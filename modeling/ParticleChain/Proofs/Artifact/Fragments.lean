import Mathlib
import ParticleChain.Artifact.Source

/-!
# Texts that tell what they were written of

Two texts that can be continued to the same text need not be equal. They are if the same mark
follows each and neither holds it (`eq_of_mark`). A writer is `Telling` if its texts tell, whatever
follows, what they were written of. A list of such texts ends where something stands that none of
them starts with (`join_of_stop`, `intercalate_of_stop`).
-/

namespace ParticleChain.Artifact

variable {a b r s t : String} {c d : Char}

/-! ## Marks -/

theorem not_mem_append : c ∉ (a ++ b).toList ↔ c ∉ a.toList ∧ c ∉ b.toList := by
  rw [String.toList_append, List.mem_append, not_or]

/-- A text ends where a mark starts that it does not hold. -/
theorem eq_of_mark (c : Char) (ht : t.toList.head? = some c) (ha : c ∉ a.toList)
    (hb : c ∉ b.toList) (h : a ++ (t ++ r) = b ++ (t ++ s)) : a = b ∧ r = s := by
  have htake : ∀ {x y : String}, c ∉ x.toList →
      (x ++ (t ++ y)).toList.takeWhile (· != c) = x.toList := by
    intro x y hx
    obtain ⟨rest, hrest⟩ := List.head?_eq_some_iff.1 ht
    rw [String.toList_append, String.toList_append, hrest, List.takeWhile_append_of_pos]
    · simp
    · intro e he
      exact bne_iff_ne.2 fun hec => hx (hec ▸ he)
  have hab : a = b := by
    rw [← String.toList_inj, ← htake (y := r) ha, h, htake hb]
  subst hab
  exact ⟨rfl, (String.append_right_inj t).1 ((String.append_right_inj a).1 h)⟩

/-- Texts differ that start differently. -/
theorem append_ne (ha : a.toList.head? = some c) (hb : b.toList.head? = some d) (hcd : c ≠ d) :
    a ++ r ≠ b ++ s := by
  intro h
  have hheads := congrArg (·.toList.head?) h
  simp only [String.toList_append, List.head?_append, ha, hb, Option.some_or,
    Option.some.injEq] at hheads
  exact hcd hheads

/-! ## Numbers -/

theorem not_mem_repr (n : Nat) (h : c.isDigit = false) : c ∉ n.repr.toList := by
  intro hc
  rw [Nat.toList_repr] at hc
  rw [Nat.isDigit_of_mem_toDigits (by decide) (by decide) hc] at h
  cases h

theorem not_mem_reprInt (n : Int) (h : c.isDigit = false) (hm : c ≠ '-') :
    c ∉ n.repr.toList := by
  cases n with
  | ofNat n => exact not_mem_repr n h
  | negSucc n =>
    rw [show (Int.negSucc n).repr = "-" ++ (n + 1).repr from rfl, not_mem_append]
    refine ⟨?_, not_mem_repr _ h⟩
    rwa [show "-".toList = ['-'] by simp, List.mem_singleton]

/-- A number ends where no digit follows. -/
theorem nat_of_mark (c : Char) {n m : Nat} (ht : t.toList.head? = some c) (hc : c.isDigit = false)
    (h : n.repr ++ (t ++ r) = m.repr ++ (t ++ s)) : n = m ∧ r = s := by
  obtain ⟨hnm, hrs⟩ := eq_of_mark c ht (not_mem_repr n hc) (not_mem_repr m hc) h
  exact ⟨Nat.repr_inj.1 hnm, hrs⟩

/-! ## Lists -/

/-- Whatever follows it, the text of a value tells the value and where it ends. -/
def Telling {α : Type} (fit : α → Prop) (write : α → String) : Prop :=
  ∀ ⦃x y : α⦄, fit x → fit y → ∀ ⦃r s : String⦄, write x ++ r = write y ++ s → x = y ∧ r = s

variable {α : Type} {fit : α → Prop} {write : α → String} {stop sep : String} {l m : List α}

namespace Telling

theorem eq_of_eq {x y : α} (hw : Telling fit write) (hx : fit x) (hy : fit y)
    (h : write x = write y) : x = y :=
  (hw hx hy (congrArg (· ++ "") h)).1

theorem prepend (hw : Telling fit write) (t : String) : Telling fit fun x => t ++ write x := by
  intro x y hx hy r s h
  rw [String.append_assoc, String.append_assoc] at h
  exact hw hx hy ((String.append_right_inj t).1 h)

theorem append (hw : Telling fit write) (t : String) : Telling fit fun x => write x ++ t := by
  intro x y hx hy r s h
  rw [String.append_assoc, String.append_assoc] at h
  obtain ⟨rfl, hrest⟩ := hw hx hy h
  exact ⟨rfl, (String.append_right_inj t).1 hrest⟩

end Telling

/-- Texts one after the other end where something stands that none of them starts with. -/
theorem join_of_stop (hw : Telling fit write) (hstop : ∀ x r s, write x ++ r ≠ stop ++ s)
    (hl : ∀ x ∈ l, fit x) (hm : ∀ x ∈ m, fit x)
    (h : String.join (l.map write) ++ (stop ++ r) = String.join (m.map write) ++ (stop ++ s)) :
    l = m ∧ r = s := by
  induction l generalizing m with
  | nil =>
    cases m with
    | nil => exact ⟨rfl, (String.append_right_inj _).1 ((String.append_right_inj _).1 h)⟩
    | cons y m =>
      rw [List.map_nil, String.join_nil, String.empty_append, List.map_cons, String.join_cons,
        String.append_assoc] at h
      exact absurd h.symm (hstop y _ _)
  | cons x l ih =>
    obtain ⟨hx, hls⟩ := List.forall_mem_cons.1 hl
    rw [List.map_cons, String.join_cons, String.append_assoc] at h
    cases m with
    | nil =>
      rw [List.map_nil, String.join_nil, String.empty_append] at h
      exact absurd h (hstop x _ _)
    | cons y m =>
      obtain ⟨hy, hms⟩ := List.forall_mem_cons.1 hm
      rw [List.map_cons, String.join_cons, String.append_assoc] at h
      obtain ⟨rfl, hrest⟩ := hw hx hy h
      obtain ⟨rfl, hrs⟩ := ih hls hms hrest
      exact ⟨rfl, hrs⟩

theorem intercalate_cons (sep a : String) (l : List String) :
    sep.intercalate (a :: l) = a ++ String.join (l.map (sep ++ ·)) := by
  induction l generalizing a with
  | nil => simp
  | cons b l ih =>
    rw [String.intercalate_cons_cons, ih, List.map_cons, String.join_cons, String.append_assoc,
      String.append_assoc]

/-- So do texts with separators between, if there is one at least. -/
theorem intercalate_of_stop {x y : α} (hw : Telling fit write)
    (hstop : ∀ r s, sep ++ r ≠ stop ++ s) (hl : ∀ z ∈ x :: l, fit z) (hm : ∀ z ∈ y :: m, fit z)
    (h : sep.intercalate ((x :: l).map write) ++ (stop ++ r) =
      sep.intercalate ((y :: m).map write) ++ (stop ++ s)) : x :: l = y :: m ∧ r = s := by
  obtain ⟨hx, hls⟩ := List.forall_mem_cons.1 hl
  obtain ⟨hy, hms⟩ := List.forall_mem_cons.1 hm
  rw [List.map_cons, List.map_cons, intercalate_cons, intercalate_cons, List.map_map,
    List.map_map, String.append_assoc, String.append_assoc] at h
  obtain ⟨rfl, hrest⟩ := hw hx hy h
  have hstop : ∀ x r s, sep ++ write x ++ r ≠ stop ++ s := fun x r s => by
    rw [String.append_assoc]
    exact hstop _ _
  obtain ⟨rfl, hrs⟩ := join_of_stop (hw.prepend sep) hstop hls hms hrest
  exact ⟨rfl, hrs⟩

end ParticleChain.Artifact
