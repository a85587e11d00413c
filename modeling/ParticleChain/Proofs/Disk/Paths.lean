import Mathlib
import ParticleChain.Disk.Basic

/-!
# Paths that lead somewhere

The system refuses a path for its text alone, before it looks at the disk. A path is not refused if
its parts are joined by slashes, have no zero character and are not too long (`refusal?_eq_none`),
and is then found from the root step by step (`find_of_steps`). Of names without a slash a path is
made in one way only (`render_inj`).
-/

namespace ParticleChain

namespace Path

variable {text name : String} {p : Path}

/-- Text with a last character, which is no slash. -/
def Joinable (text : String) : Prop := text.toList.getLast?.any (· != '/') = true

theorem joinable_iff : Joinable text ↔ ∃ c, text.toList.getLast? = some c ∧ c ≠ '/' := by
  simp [Joinable, Option.any_eq_true]

theorem Joinable.ne_empty (h : Joinable text) : text ≠ "" := by
  rintro rfl
  cases h

theorem Joinable.not_endsWith (h : Joinable text) : text.endsWith "/" = false := by
  obtain ⟨c, hc, hne⟩ := joinable_iff.1 h
  rw [Bool.eq_false_iff, Ne, String.endsWith_eq_endsWith_toSlice, String.Slice.endsWith_string_iff,
    String.copy_toSlice]
  intro hs
  rw [List.singleton_suffix_iff_getLast?_eq_some.1 hs] at hc
  exact hne (Option.some.inj hc).symm

theorem Joinable.append (h : Joinable name) (text : String) : Joinable (text ++ name) := by
  obtain ⟨c, hc, hne⟩ := joinable_iff.1 h
  exact joinable_iff.2 ⟨c, by rw [String.toList_append, List.getLast?_append, hc]; rfl, hne⟩

theorem Joinable.joinText_eq (h : Joinable text) (name : String) :
    joinText text name = text ++ "/" ++ name := by
  rw [joinText, String.isEmpty_eq_false_iff.2 h.ne_empty, h.not_endsWith]
  rfl

/-- The names below the text of a path are steps of their own. -/
theorem steps_eq (h : p.names ≠ [] ∨ Joinable p.text) :
    p.steps = (ofText p.text).parts ++ p.names := by
  have hslash : (p.text.endsWith "/" && p.names.isEmpty) = false := by
    obtain h | h := h
    · simp [h]
    · rw [h.not_endsWith]
      rfl
  rw [steps, hslash]
  simp [parts, ofText]

/-- Text that the system takes as part of a path. -/
structure Legible (text : String) : Prop where
  joinable : Joinable text
  noZero : '\x00' ∉ text.toList

theorem Legible.joinText (h : Legible text) (hn : Legible name) :
    Legible (joinText text name) := by
  rw [h.joinable.joinText_eq]
  refine ⟨hn.joinable.append _, ?_⟩
  simp [h.noZero, hn.noZero]

theorem utf8ByteSize_joinText (h : Joinable text) (name : String) :
    (joinText text name).utf8ByteSize = text.utf8ByteSize + (name.utf8ByteSize + 1) := by
  rw [h.joinText_eq, String.utf8ByteSize_append, String.utf8ByteSize_append,
    show "/".utf8ByteSize = 1 from rfl]
  omega

theorem legible_foldl {names : List String} (h : Legible text) (hn : ∀ n ∈ names, Legible n) :
    Legible (names.foldl Path.joinText text) ∧ (names.foldl Path.joinText text).utf8ByteSize =
      text.utf8ByteSize + (names.map (·.utf8ByteSize + 1)).sum := by
  induction names generalizing text with
  | nil => exact ⟨h, rfl⟩
  | cons name names ih =>
    obtain ⟨hname, hn⟩ := List.forall_mem_cons.1 hn
    obtain ⟨hlegible, hsize⟩ := ih (h.joinText hname) hn
    refine ⟨hlegible, hsize.trans ?_⟩
    rw [utf8ByteSize_joinText h.joinable, List.map_cons, List.sum_cons]
    omega

/-! ## Written paths -/

/-- A name that is written as one step of a path. -/
structure Segment (name : String) : Prop where
  ne_empty : name ≠ ""
  noSlash : '/' ∉ name.toList

theorem Segment.joinable (h : Segment name) : Joinable name := by
  have hne : name.toList ≠ [] := fun he => h.ne_empty (String.toList_inj.1 he)
  refine joinable_iff.2 ⟨_, List.getLast?_eq_some_getLast hne, ?_⟩
  exact fun he => h.noSlash (he ▸ List.getLast_mem hne)

theorem Segment.append {ending : String} (h : Segment name) (he : '/' ∉ ending.toList) :
    Segment (name ++ ending) where
  ne_empty hn := h.ne_empty (String.append_eq_empty_iff.1 hn).1
  noSlash := by
    rw [String.toList_append, List.mem_append]
    exact not_or.2 ⟨h.noSlash, he⟩

theorem render_child (p : Path) (name : String) : (p / name).render = joinText p.render name :=
  List.foldl_append

/-- What stands before the first name. -/
def lead (text : String) : String :=
  if text.isEmpty || text.endsWith "/" then text else text ++ "/"

theorem joinText_eq (text name : String) : joinText text name = lead text ++ name := by
  unfold joinText lead
  split <;> rfl

theorem intercalate_append (sep a b : List Char) (l : List (List Char)) :
    sep.intercalate ((a ++ b) :: l) = a ++ sep.intercalate (b :: l) := by
  cases l with
  | nil => simp
  | cons c l => simp [List.intercalate_cons_cons]

theorem toList_foldl {names : List String} (h : Joinable text) (hn : ∀ n ∈ names, Segment n) :
    (names.foldl joinText text).toList =
      ['/'].intercalate (text.toList :: names.map String.toList) := by
  induction names generalizing text with
  | nil => simp
  | cons n names ih =>
    obtain ⟨hname, hn⟩ := List.forall_mem_cons.1 hn
    have hjoined : (joinText text n).toList = (text.toList ++ ['/']) ++ n.toList := by
      rw [h.joinText_eq, String.toList_append, String.toList_append]
      rfl
    rw [List.foldl_cons, ih (h.joinText_eq n ▸ hname.joinable.append _) hn, hjoined,
      intercalate_append, List.map_cons, List.intercalate_cons_cons]

/-- A path as it is written, from its first name on: the names with slashes between. -/
theorem toList_render (hne : p.names ≠ []) (hn : ∀ n ∈ p.names, Segment n) :
    p.render.toList = (lead p.text).toList ++ ['/'].intercalate (p.names.map String.toList) := by
  obtain ⟨n, names, he⟩ := List.exists_cons_of_ne_nil hne
  rw [he] at hn
  obtain ⟨hname, hn⟩ := List.forall_mem_cons.1 hn
  rw [render, he, List.foldl_cons, joinText_eq, toList_foldl (hname.joinable.append _) hn,
    String.toList_append, intercalate_append, List.map_cons]

/-- Two paths below the same text that are written alike have the same names. -/
theorem render_inj {p' : Path} (ht : p.text = p'.text) (hne : p.names ≠ [])
    (hn : ∀ n ∈ p.names, Segment n) (hne' : p'.names ≠ []) (hn' : ∀ n ∈ p'.names, Segment n)
    (h : p.render = p'.render) : p = p' := by
  have hsplit : ∀ {names : List String}, names ≠ [] → (∀ n ∈ names, Segment n) →
      (['/'].intercalate (names.map String.toList)).splitOn '/' = names.map String.toList :=
    fun hne hn => List.splitOn_intercalate '/'
      (List.forall_mem_map.2 fun n hmem => (hn n hmem).noSlash) (by simpa using hne)
  have hlists := congrArg String.toList h
  rw [toList_render hne hn, toList_render hne' hn', ht] at hlists
  have hnames := congrArg (List.splitOn '/') (List.append_cancel_left hlists)
  rw [hsplit hne hn, hsplit hne' hn'] at hnames
  cases p
  cases p'
  cases ht
  rw [Path.mk.injEq]
  exact ⟨rfl, List.map_injective_iff.2 (fun _ _ => String.toList_inj.1) hnames⟩

/-! ## Extensions -/

/-- The extension that is put behind a dot, and what is before it. -/
theorem stem_append {ending : String} (h : name ≠ "") (he : '.' ∉ ending.toList) :
    extension? (name ++ "." ++ ending) = some ending ∧ stem (name ++ "." ++ ending) = name := by
  obtain ⟨c, rest, hrest⟩ : ∃ c rest, name.toList.reverse = c :: rest :=
    List.exists_cons_of_ne_nil fun he => h (String.toList_inj.1 (List.reverse_eq_nil_iff.1 he))
  have hname : name = String.ofList (c :: rest).reverse := by
    rw [← hrest, List.reverse_reverse, String.ofList_toList]
  have hlist : (name ++ "." ++ ending).toList.reverse =
      ending.toList.reverse ++ '.' :: c :: rest := by
    rw [String.toList_append, String.toList_append, List.reverse_append, List.reverse_append, hrest]
    rfl
  have hspan : (name ++ "." ++ ending).toList.reverse.span (· != '.') =
      (ending.toList.reverse, '.' :: c :: rest) := by
    have hbefore : ∀ x ∈ ending.toList.reverse, (x != '.') = true := by
      intro x hx
      refine bne_iff_ne.2 ?_
      rintro rfl
      exact he (List.mem_reverse.1 hx)
    rw [hlist, List.span_eq_takeWhile_dropWhile, List.takeWhile_append_of_pos hbefore,
      List.dropWhile_append_of_pos hbefore]
    simp
  unfold extension? stem
  rw [hspan]
  exact ⟨by simp, hname.symm⟩

end Path

namespace Disk

variable {d : Disk} {p : Path} {steps : List String}

theorem refusal?_eq_none (ht : Path.Legible p.text) (hn : ∀ n ∈ p.names, Path.Legible n)
    (hs : p.text.utf8ByteSize + (p.names.map (·.utf8ByteSize + 1)).sum ≤ maxPath) :
    refusal? p = none := by
  obtain ⟨hlegible, hsize⟩ := Path.legible_foldl ht hn
  have hempty : p.render.isEmpty = false := String.isEmpty_eq_false_iff.2 hlegible.joinable.ne_empty
  have hzero : p.render.contains '\x00' = false := by
    rw [String.contains_char_eq]
    exact decide_eq_false hlegible.noZero
  unfold refusal?
  dsimp only
  rw [hzero, hempty, if_neg Bool.false_ne_true, if_neg Bool.false_ne_true]
  exact if_neg (Nat.not_lt.2 (Nat.le_trans (Nat.le_of_eq hsize) hs))

/-- How a path is found that starts at the root. -/
theorem find_of_steps (hr : refusal? p = none) (ha : p.isAbsolute = true) (hs : p.steps = steps) :
    d.find p = d.walk [] steps := by
  unfold find start
  rw [hr, ha, hs]
  rfl

end Disk

end ParticleChain
