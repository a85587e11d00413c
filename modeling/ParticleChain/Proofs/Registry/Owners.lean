import Mathlib.Data.List.Induction
import ParticleChain.Proofs.Registry.Versions

/-!
# The owner index

A table owns up to a name for an owner (`t.Owns o name`) if some record under the name has an
owner text that stands for `o`. The index never lists more than that. It lists less once a record
is removed while the owner is left with another version of the name, but with none that has the
owner written the same way: for what is compared on a removal are the texts, and what is indexed
are the addresses (`owners_listed_iff`).
-/

namespace ParticleChain.Registry

open Artifact (Kind Record)

/-! ## Reading the index -/

namespace Table

variable {k : Kind} {t : Table k} {name n : String} {a b o owner : Address} {r : Record k}

/-- The owner has a version of the name. -/
def Owns (t : Table k) (o : Address) (name : String) : Prop :=
  ∃ a r, t.get? name a = some r ∧ Address.parse r.owner = .ok o

/-- A version of the name has its owner written like this. -/
def Spells (t : Table k) (text name : String) : Prop :=
  ∃ a r, t.get? name a = some r ∧ r.owner = text

theorem mem_ownedBy_insert (t : Table k) (a owner : Address) (r : Record k) (o : Address)
    (n : String) :
    n ∈ (t.insert a owner r).ownedBy o ↔ owner = o ∧ r.name = n ∨ n ∈ t.ownedBy o := by
  unfold ownedBy insert
  rw [Std.TreeMap.getD_insert]
  by_cases ho : owner = o
  · subst ho
    simp [Std.TreeSet.mem_insert, ownedBy]
  · simp [ho]

theorem mem_disown (t : Table k) (owner : Address) (name : String) (o : Address) (n : String) :
    n ∈ (t.disown owner name).getD o ∅ ↔ n ∈ t.ownedBy o ∧ ¬ (owner = o ∧ name = n) := by
  have herase : n ∈ (t.ownedBy owner).erase name ↔ n ∈ t.ownedBy owner ∧ name ≠ n := by
    simp [Std.TreeSet.mem_erase, and_comm]
  by_cases ho : owner = o
  · subst ho
    simp only [disown]
    split
    · split
      · rename_i hz
        have hnot := Std.TreeSet.isEmpty_iff_forall_not_mem.1 hz n
        rw [herase] at hnot
        rw [Std.TreeMap.getD_erase]
        simpa using hnot
      · rw [Std.TreeMap.getD_insert]
        simpa using herase
    · rename_i hc
      have hnone : t.owned.getD owner ∅ = ∅ :=
        Std.TreeMap.getD_eq_fallback_of_contains_eq_false (Bool.eq_false_iff.2 hc)
      simp [ownedBy, hnone]
  · have hget : (t.disown owner name).getD o ∅ = t.ownedBy o := by
      simp only [disown]
      split
      · split
        · simp [Std.TreeMap.getD_erase, ho, ownedBy]
        · simp [Std.TreeMap.getD_insert, ho, ownedBy]
      · rfl
    simp [hget, ho]

/-- What is looked for before a name is taken from an owner: another version spelled alike. -/
theorem any_left_iff (t : Table k) (name : String) (a : Address) (text : String) :
    ((t.bucket name).erase a).values.any (·.owner == text) = true ↔
      (t.remove name a).Spells text name := by
  have hget : ∀ b, ((t.bucket name).erase a)[b]? = (t.remove name a).get? name b := fun b => by
    rw [getElem?_erase, get?_remove, Table.get?]
    simp
  rw [List.any_eq_true]
  constructor
  · rintro ⟨q, hq, ht⟩
    obtain ⟨b, hb⟩ := mem_values.1 hq
    exact ⟨b, q, (hget b).symm.trans hb, eq_of_beq ht⟩
  · rintro ⟨b, q, hb, ht⟩
    exact ⟨q, mem_values.2 ⟨b, (hget b).trans hb⟩, beq_iff_eq.2 ht⟩

theorem mem_ownedBy_remove (h : t.get? name a = some r) (o : Address) (n : String) :
    n ∈ (t.remove name a).ownedBy o ↔ n ∈ t.ownedBy o ∧
      ¬ (Address.parse r.owner = .ok o ∧ name = n ∧ ¬ (t.remove name a).Spells r.owner name) := by
  have howned : (t.remove name a).owned =
      if ((t.bucket name).erase a).values.any (·.owner == r.owner) then t.owned
      else (Address.parse r.owner).toOption.elim t.owned fun owner => t.disown owner name := by
    unfold remove
    split
    · rename_i hnone
      rw [h] at hnone
      cases hnone
    · rename_i q hq
      obtain rfl := Option.some.inj (h.symm.trans hq)
      cases Address.parse r.owner <;> rfl
  rw [← any_left_iff, ownedBy, howned]
  split
  · rename_i hany
    simp [hany, ownedBy]
  · rename_i hany
    cases hp : Address.parse r.owner with
    | ok owner =>
      simp only [Except.toOption, Option.elim]
      rw [mem_disown]
      simp [hany]
    | error e => simp [ownedBy, Except.toOption]

/-! ## One operation -/

theorem owns_insert (h : t.get? r.name a = none) (owner o : Address) (n : String) :
    (t.insert a owner r).Owns o n ↔
      (Address.parse r.owner = .ok o ∧ r.name = n) ∨ t.Owns o n := by
  constructor
  · rintro ⟨b, q, hb, ho⟩
    rw [get?_insert] at hb
    split at hb
    · rename_i he
      cases hb
      exact .inl ⟨ho, he.1⟩
    · exact .inr ⟨b, q, hb, ho⟩
  · rintro (⟨ho, rfl⟩ | ⟨b, q, hb, ho⟩)
    · exact ⟨a, r, by rw [get?_insert, if_pos ⟨rfl, rfl⟩], ho⟩
    · refine ⟨b, q, ?_, ho⟩
      rw [get?_insert, if_neg, hb]
      rintro ⟨rfl, rfl⟩
      rw [h] at hb
      cases hb

theorem Owns.of_remove (h : (t.remove name a).Owns o n) : t.Owns o n := by
  obtain ⟨b, q, hb, ho⟩ := h
  rw [get?_remove] at hb
  split at hb
  · cases hb
  · exact ⟨b, q, hb, ho⟩

/-- An owner who loses a name loses the version that is removed. -/
theorem Owns.remove (h : t.Owns o n) (hr : t.get? name a = some r)
    (hn : ¬ (Address.parse r.owner = .ok o ∧ name = n)) : (t.remove name a).Owns o n := by
  obtain ⟨b, q, hb, ho⟩ := h
  refine ⟨b, q, ?_, ho⟩
  rw [get?_remove, if_neg, hb]
  rintro ⟨rfl, rfl⟩
  obtain rfl := Option.some.inj (hr.symm.trans hb)
  exact hn ⟨ho, rfl⟩

/-- If the owner keeps a version of the name after the removal, some version left has the owner
written as it is in the one removed. -/
def SpelledAlike (t : Table k) (name : String) (a o : Address) : Prop :=
  ∀ r, t.get? name a = some r → Address.parse r.owner = .ok o →
    (t.remove name a).Owns o name → (t.remove name a).Spells r.owner name

/-- The index lists the name if the owner has a version of it. -/
def Listed (t : Table k) (o : Address) (n : String) : Prop := n ∈ t.ownedBy o ↔ t.Owns o n

theorem owns_of_mem_remove (h : n ∈ t.ownedBy o → t.Owns o n)
    (hm : n ∈ (t.remove name a).ownedBy o) : (t.remove name a).Owns o n := by
  cases hr : t.get? name a with
  | none =>
    rw [remove_of_none hr] at hm ⊢
    exact h hm
  | some r =>
    obtain ⟨hm, hkept⟩ := (mem_ownedBy_remove hr o n).1 hm
    by_cases hd : Address.parse r.owner = .ok o ∧ name = n
    · -- Some version left is spelled like the one removed, so it has the same owner.
      obtain ⟨hp, rfl⟩ := hd
      obtain ⟨b, q, hb, hq⟩ : (t.remove name a).Spells r.owner name := by
        by_contra hs
        exact hkept ⟨hp, rfl, hs⟩
      exact ⟨b, q, hb, by rw [hq, hp]⟩
    · exact (h hm).remove hr hd

theorem Listed.insert (h : t.Listed o n) (hf : t.get? r.name a = none)
    (ho : Address.parse r.owner = .ok owner) : (t.insert a owner r).Listed o n := by
  rw [Listed, mem_ownedBy_insert, owns_insert hf, ho, Except.ok.injEq, show _ ↔ _ from h]

theorem Listed.remove (h : t.Listed o n) (hs : name = n → t.SpelledAlike name a o) :
    (t.remove name a).Listed o n := by
  refine ⟨owns_of_mem_remove h.1, fun ho => ?_⟩
  cases hr : t.get? name a with
  | none =>
    rw [remove_of_none hr] at ho ⊢
    exact h.2 ho
  | some r =>
    refine (mem_ownedBy_remove hr o n).2 ⟨h.2 ho.of_remove, ?_⟩
    rintro ⟨hp, rfl, hnot⟩
    exact hnot (hs rfl r hr hp ho)

/-- A removal after which the index still lists the name left a version spelled alike. -/
theorem Listed.spelledAlike (h : (t.remove name a).Listed o name) : t.SpelledAlike name a o := by
  intro r hr hp ho
  by_contra hs
  exact ((mem_ownedBy_remove hr o name).1 (h.2 ho)).2 ⟨hp, rfl, hs⟩

end Table

/-! ## Runs -/

variable {k : Kind} {o : Address} {n : String}

theorem Takes.owns_of_mem {s t : Registry} {op : Op} (ht : s.Takes op t)
    (h : n ∈ (s.table k).ownedBy o → (s.table k).Owns o n) :
    n ∈ (t.table k).ownedBy o → (t.table k).Owns o n := by
  refine ht.table_cases (P := fun u => n ∈ u.ownedBy o → u.Owns o n) h
    (fun a owner r _ hf ho hm => ?_) fun name a _ hm => Table.owns_of_mem_remove h hm
  rw [Table.owns_insert hf, ho, Except.ok.injEq]
  exact ((Table.mem_ownedBy_insert _ _ _ _ _ _).1 hm).imp_right h

theorem ownedBy_empty (k : Kind) (o : Address) : (empty.table k).ownedBy o = ∅ := by
  cases k <;> rfl

/-- The index never lists a name that the owner has no version of. -/
theorem owns_of_mem (ops : List Op) :
    n ∈ ((run ops).table k).ownedBy o → ((run ops).table k).Owns o n := by
  refine run_keeps (P := fun s _ => n ∈ (s.table k).ownedBy o → (s.table k).Owns o n) ?_
    (fun h ht => ht.owns_of_mem h) ops
  intro hm
  rw [ownedBy_empty] at hm
  exact absurd hm Std.TreeSet.not_mem_emptyc

theorem listed_empty : (empty.table k).Listed o n := by
  rw [Table.Listed, ownedBy_empty]
  refine ⟨fun hm => absurd hm Std.TreeSet.not_mem_emptyc, ?_⟩
  rintro ⟨a, r, hr, -⟩
  cases (((follows_empty.lists k n).get? a r).1 hr)

theorem Takes.listed {s t : Registry} {op : Op} (ht : s.Takes op t)
    (hs : ∀ a, op = .remove k n a → (s.table k).SpelledAlike n a o) (h : (s.table k).Listed o n) :
    (t.table k).Listed o n := by
  refine ht.table_cases (P := fun u => u.Listed o n) h (fun a owner r _ hf ho => h.insert hf ho)
    fun name a he => h.remove ?_
  rintro rfl
  exact hs a he

theorem run_listed {l : List Op}
    (h : ∀ l' a, l' ++ [.remove k n a] <+: l → ((run l').table k).SpelledAlike n a o) :
    ((run l).table k).Listed o n := by
  induction l using List.reverseRecOn with
  | nil => exact listed_empty
  | append_singleton l op ih =>
    have hl := ih fun l' a hp => h l' a (hp.trans (List.prefix_append l [op]))
    rw [run_concat]
    rcases apply_cases (run l) op with he | ht
    · rwa [he]
    · refine ht.listed ?_ hl
      rintro a rfl
      exact h l a (List.prefix_refl _)

/-- An owner whom all versions of a name spell alike keeps it until the last of them is gone. -/
theorem spelledAlike_of_one_spelling {ops : List Op} {text : String}
    (h : ∀ a (r : Record k), .add k a r ∈ ops → r.name = n → Address.parse r.owner = .ok o →
      r.owner = text) {l : List Op} (hl : l <+: ops) (a : Address) :
    ((run l).table k).SpelledAlike n a o := by
  have htext : ∀ b q, ((run l).table k).get? n b = some q → Address.parse q.owner = .ok o →
      q.owner = text := by
    intro b q hq ho
    obtain ⟨hadd, hname⟩ := (run_follows l).mem hq
    exact h b q (hl.subset ((log_sublist l).subset hadd)) hname ho
  rintro r hr hp ⟨b, q, hb, ho⟩
  have hq : ((run l).table k).get? n b = some q := by
    rw [Table.get?_remove] at hb
    split at hb
    · cases hb
    · exact hb
  exact ⟨b, q, hb, (htext b q hq ho).trans (htext a r hr hp).symm⟩

/-- The index lists a name for an owner only if the owner has a version of it. It does so after
each operation of a run just if every removal that leaves the owner a version of the name leaves
one with the owner written as in the one removed; in particular if all versions of the name are
written alike. -/
theorem owned_names_exact_iff (ops : List Op) (k : Kind) (o : Address) (name : String) :
    (name ∈ (run ops).ownedBy k o → ((run ops).table k).Owns o name) ∧
    ((∀ l, l <+: ops → (name ∈ (run l).ownedBy k o ↔ ((run l).table k).Owns o name)) ↔
      ∀ l a, l ++ [.remove k name a] <+: ops → ((run l).table k).SpelledAlike name a o) ∧
    ∀ text, (∀ a (r : Record k), .add k a r ∈ ops → r.name = name →
        Address.parse r.owner = .ok o → r.owner = text) →
      (name ∈ (run ops).ownedBy k o ↔ ((run ops).table k).Owns o name) := by
  have hlist : ∀ l, (name ∈ (run l).ownedBy k o ↔ ((run l).table k).Owns o name) ↔
      ((run l).table k).Listed o name := fun l => by
    rw [Table.Listed, Registry.ownedBy, Std.TreeSet.mem_toList]
  refine ⟨?only, ⟨?spelled, ?listed⟩, ?one⟩
  case only =>
    rw [Registry.ownedBy, Std.TreeSet.mem_toList]
    exact owns_of_mem ops
  case spelled =>
    intro h l a hl
    have hafter := (hlist _).1 (h _ hl)
    rw [run_remove, remove, table_setTable] at hafter
    exact hafter.spelledAlike
  case listed =>
    exact fun h l hl => (hlist l).2 (run_listed fun l' a hp => h l' a (hp.trans hl))
  case one =>
    intro text h
    refine (hlist ops).2 (run_listed fun l' a hp => ?_)
    exact spelledAlike_of_one_spelling h ((List.prefix_append l' _).trans hp) a

/-- The owner of `always`, written with a mark in front. -/
def marked : Record .condition := { always with owner := "0x" ++ always.owner }

/-- A second version with the owner written otherwise is added and rolled back. -/
def respelled : List Op :=
  [.add .condition ⟨1, 0, 0⟩ always, .add .condition ⟨2, 0, 0⟩ marked,
    .remove .condition "always" ⟨2, 0, 0⟩]

theorem respelled_removal_drops_name :
    (run respelled).ownedBy .condition ⟨7, 0, 0⟩ = [] ∧
    ((run respelled).table .condition).Owns ⟨7, 0, 0⟩ "always" :=
  ⟨by decide +kernel, ⟨1, 0, 0⟩, always, by decide +kernel, by decide +kernel⟩

/-- In `rollback` all versions are written alike, so that the name is listed as long as there is one
of them; in `respelled` there is a removal that leaves no version written as the one removed. -/
theorem owned_names_exact_iff_rollback :
    (∀ a (r : Record .condition), .add .condition a r ∈ rollback → r.owner = always.owner) ∧
    ("always" ∈ (run rollback).ownedBy .condition ⟨7, 0, 0⟩ ↔
      ((run rollback).table .condition).Owns ⟨7, 0, 0⟩ "always") ∧
    ((run rollback).table .condition).Owns ⟨7, 0, 0⟩ "always" ∧
    ∃ l a, l ++ [.remove .condition "always" a] <+: respelled ∧
      ¬ ((run l).table .condition).SpelledAlike "always" a ⟨7, 0, 0⟩ := by
  obtain ⟨hown, -, hone⟩ := owned_names_exact_iff rollback .condition ⟨7, 0, 0⟩ "always"
  obtain ⟨-, hspelled, -⟩ := owned_names_exact_iff respelled .condition ⟨7, 0, 0⟩ "always"
  have halike : ∀ a (r : Record .condition), .add .condition a r ∈ rollback →
      r.owner = always.owner := by
    intro a r h
    simp only [rollback, List.mem_cons, Op.add.injEq, heq_eq_eq, true_and, reduceCtorEq,
      List.not_mem_nil, or_false] at h
    obtain ⟨-, rfl⟩ | ⟨-, rfl⟩ | ⟨-, rfl⟩ := h <;> rfl
  have hm : "always" ∈ (run rollback).ownedBy .condition ⟨7, 0, 0⟩ := by decide +kernel
  refine ⟨halike, hone always.owner fun a r h _ _ => halike a r h, hown hm, ?_⟩
  have hlost : ¬ ("always" ∈ (run respelled).ownedBy .condition ⟨7, 0, 0⟩ ↔
      ((run respelled).table .condition).Owns ⟨7, 0, 0⟩ "always") := by
    intro h
    have hnone : (run respelled).ownedBy .condition ⟨7, 0, 0⟩ = [] := by decide +kernel
    have hlisted := h.2 ⟨⟨1, 0, 0⟩, always, by decide +kernel, by decide +kernel⟩
    rw [hnone] at hlisted
    cases hlisted
  by_contra hno
  refine hlost (hspelled.2 (fun l a hl => ?_) respelled (List.prefix_refl _))
  by_contra hbad
  exact hno ⟨l, a, hl, hbad⟩

end ParticleChain.Registry
