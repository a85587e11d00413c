import ParticleChain.Proofs.Disk.Files
import ParticleChain.Publishing.Pipeline

/-!
# Files that publishing works on

Sources and builds lie beside the records, but at other places (`apart_build_record`): the names on
the way to them are others. So removing a build touches no record and no source, and a source that
is written for the compiler leaves nothing behind once it is removed (`kept_compile`), as far as
the compiler leaves alone what is not for it to change (`Compiler.Leaves`).
-/

namespace ParticleChain

open Disk (Agree Apart Descends IsName)

/-- The compiler leaves what is at the path as it is. -/
def Compiler.Leaves (c : Compiler) (p : Path) : Prop := ∀ args d, Agree p d (c args d).2

/-- On a job the compiler leaves what is at the path as it is. -/
def Compiler.LeavesOn (c : Compiler) (j : Job) (p : Path) : Prop :=
  ∀ args, arguments j = .ok args → ∀ d, Agree p d (c args d).2

theorem Compiler.Leaves.on {c : Compiler} {p : Path} (h : c.Leaves p) (j : Job) : c.LeavesOn j p :=
  fun args _ => h args

theorem Compiler.agree_run {c : Compiler} {j : Job} {p : Path} (h : c.LeavesOn j p)
    (searchPath : List String) (program : String) (d : Disk) :
    Agree p d (run c searchPath program j d).2 := by
  unfold run
  split
  · exact .refl p d
  · rename_i args ha
    split
    · exact .refl p d
    · split
      · exact .refl p d
      · exact h args ha d

namespace Publishing

open Artifact (Kind Record)

variable {u : Setup} {c : Config} {k l : Kind} {name other : String} {d d' d'' : Disk}

/-! ## Files of the storage -/

theorem isName_of_length (h : 2 < name.length) : IsName name :=
  ⟨fun he => absurd h (by rw [he]; decide), fun he => absurd h (by rw [he]; decide)⟩

theorem isName_append (name ending : String) (h : 2 < ending.length) : IsName (name ++ ending) := by
  refine isName_of_length ?_
  rw [String.length_append]
  omega

theorem isName_plural (k : Kind) : IsName k.plural :=
  isName_of_length (by cases k <;> decide)

/-- Endings of the same length can be told from what is before them. -/
theorem append_ending_inj {m n a b : String} (hl : a.length = b.length) (h : m ++ a = n ++ b) :
    m = n ∧ a = b := by
  have hlists := congrArg String.toList h
  rw [String.toList_append, String.toList_append] at hlists
  obtain ⟨hnames, hendings⟩ := List.append_inj' hlists hl
  exact ⟨String.toList_inj.1 hnames, String.toList_inj.1 hendings⟩

theorem append_ne {m n a b : String} (hl : a.length = b.length) (h : a ≠ b) : m ++ a ≠ n ++ b :=
  fun he => h (append_ending_inj hl he).2

theorem names_recordFile (c : Config) (k : Kind) (name : String) :
    (recordFile c k name).names = [k.plural, name ++ ".json"] := rfl

theorem names_build (c : Config) (k : Kind) (name : String) :
    (buildDirectory c k / name).names = [k.plural, "build", name] := rfl

theorem sourceFile_eq (c : Config) (k : Kind) (name : String) :
    sourceFile c k name = buildDirectory c k / (name ++ ".sol") := rfl

theorem descends_recordFile (c : Config) (k : Kind) (name : String) :
    Descends (recordFile c k name) := by
  refine ⟨List.cons_ne_nil _ _, ?_⟩
  rw [names_recordFile]
  exact List.forall_mem_cons.2 ⟨isName_plural k,
    List.forall_mem_singleton.2 (isName_append name ".json" (by decide))⟩

theorem descends_build (c : Config) (k : Kind) (h : IsName name) :
    Descends (buildDirectory c k / name) := by
  refine ⟨List.cons_ne_nil _ _, ?_⟩
  rw [names_build]
  exact List.forall_mem_cons.2 ⟨isName_plural k, List.forall_mem_cons.2
    ⟨isName_of_length (by decide), List.forall_mem_singleton.2 h⟩⟩

theorem descends_sourceFile (c : Config) (k : Kind) (name : String) :
    Descends (sourceFile c k name) := descends_build c k (isName_append name ".sol" (by decide))

/-- What is built is no record. -/
theorem apart_build_record (c : Config) (k : Kind) (h : IsName name) (l : Kind) (other : String) :
    Apart (buildDirectory c k / name) (recordFile c l other) := by
  refine (descends_build c k h).apart (descends_recordFile c l other) rfl fun he => ?_
  have := congrArg (·.names.length) he
  simp [names_build, names_recordFile] at this

/-- Files with different names are built at different places. -/
theorem apart_builds {m n : String} (c : Config) (k l : Kind) (hm : IsName m) (hn : IsName n)
    (hne : m ≠ n) : Apart (buildDirectory c k / m) (buildDirectory c l / n) := by
  refine (descends_build c k hm).apart (descends_build c l hn) rfl fun he => hne ?_
  have hnames := congrArg Path.names he
  rw [names_build, names_build] at hnames
  exact (List.cons.inj (List.cons.inj (List.cons.inj hnames).2).2).1

/-- What is built is no source. -/
theorem apart_build_source (c : Config) (k : Kind) (name : String) (ending : String)
    (hl : ending.length = 4) (hne : ending ≠ ".sol") (l : Kind) (other : String) :
    Apart (buildDirectory c k / (name ++ ending)) (sourceFile c l other) :=
  apart_builds c k l (isName_append name ending (by omega)) (isName_append other ".sol" (by decide))
    (append_ne (hl.trans (by decide)) hne)

/-! ## Writing a record -/

section

variable {r : Record k} (h : saveRecord c r d = .ok d')

include h

theorem write_of_saveRecord : d.write (recordFile c k r.name) r.render.toUTF8 = .ok d' := by
  unfold saveRecord at h
  dsimp only at h
  split at h
  · unfold Disk.writeText at h
    cases hw : d.write (recordFile c k r.name) r.render.toUTF8 with
    | ok d₁ =>
      rw [hw] at h
      cases h
      rfl
    | error e =>
      rw [hw] at h
      cases h
  · cases h

theorem agree_saveRecord {p : Path} (ha : Apart (recordFile c k r.name) p) : Agree p d d' :=
  Disk.agree_write (write_of_saveRecord h) ha

theorem look_saveRecord : d'.look (recordFile c k r.name) = .ok (.file r.render.toUTF8) :=
  Disk.look_write (write_of_saveRecord h)

end

/-! ## What publishing leaves as it is -/

/-- Records are as they were, and there is no source that was not there, as far as the compiler is
not to blame. -/
structure Kept (u : Setup) (d d' : Disk) : Prop where
  records (k : Kind) (name : String) : u.compiler.Leaves (recordFile u.config k name) →
    Agree (recordFile u.config k name) d d'
  sources (k : Kind) (name : String) : u.compiler.Leaves (sourceFile u.config k name) →
    d'.has (sourceFile u.config k name) = true → d.has (sourceFile u.config k name) = true

theorem Kept.refl (u : Setup) (d : Disk) : Kept u d d := ⟨fun _ _ _ => .refl _ d, fun _ _ _ h => h⟩

theorem Kept.trans (h : Kept u d d') (h' : Kept u d' d'') : Kept u d d'' where
  records k name hc := (h.records k name hc).trans (h'.records k name hc)
  sources k name hc hs := h.sources k name hc (h'.sources k name hc hs)

theorem agree_dropBuild {p : Path} (hb : Apart (binaryFile c k name) p)
    (hi : Apart (interfaceFile c k name) p) (d : Disk) : Agree p d (dropBuild c k name d) :=
  (Disk.agree_withoutFile hb d).trans (Disk.agree_withoutFile hi _)

theorem kept_dropBuild (u : Setup) (k : Kind) (name : String) (d : Disk) :
    Kept u d (dropBuild u.config k name d) := by
  refine ⟨fun l other _ => agree_dropBuild ?_ ?_ d,
    fun l other _ => (agree_dropBuild ?_ ?_ d).has_iff.1⟩
  · exact apart_build_record u.config k (isName_append name ".bin" (by decide)) l other
  · exact apart_build_record u.config k (isName_append name ".abi" (by decide)) l other
  · exact apart_build_source u.config k name ".bin" rfl (by decide) l other
  · exact apart_build_source u.config k name ".abi" rfl (by decide) l other

section

variable {text : String} (h : d.writeText (sourceFile u.config k name) text = .ok d')

include h

/-- A file that is left alone while the source is there is left alone as the source comes and
goes. -/
theorem agree_compile {p : Path} (ha : Apart (sourceFile u.config k name) p)
    (hc : Agree p d' d'') : Agree p d (d''.withoutFile (sourceFile u.config k name)) :=
  ((Disk.agree_write h ha).trans hc).trans (Disk.agree_withoutFile ha d'')

/-- The source that is written for the compiler is taken away again. -/
theorem kept_compile (hc : ∀ p, u.compiler.Leaves p → Agree p d' d'') :
    Kept u d (d''.withoutFile (sourceFile u.config k name)) := by
  refine ⟨fun l other hl => ?_, fun l other hl hs => ?_⟩
  · have ha := apart_build_record u.config k (isName_append name ".sol" (by decide)) l other
    exact agree_compile h ha (hc _ hl)
  · by_cases he : sourceFile u.config k name = sourceFile u.config l other
    · rw [← he] at hl hs
      rw [Disk.has_withoutFile ((hc _ hl _).2 (Disk.look_write h)) nofun] at hs
      cases hs
    · have ha := (descends_sourceFile u.config k name).apart (descends_sourceFile u.config l other)
        rfl he
      exact (agree_compile h ha (hc _ hl)).has_iff.1 hs

end

end Publishing

end ParticleChain
