import ParticleChain.Registry.Basic

/-!
# Runs of the registry

A registry is changed by additions and removals. An addition that is rejected leaves it as it is,
any other operation takes effect (`Takes`), and what holds of the empty registry and is kept by
every operation that takes effect holds after every run (`run_keeps`). The log of a run has the
operations that took effect.
-/

namespace ParticleChain.Registry

open Artifact (Kind Record)

/-- What can be asked of a registry. -/
inductive Op where
  | add (k : Kind) (address : Address) (r : Record k)
  | remove (k : Kind) (name : String) (address : Address)

/-- What an operation comes to: why it is rejected, if it is, and the registry after it. -/
def perform (s : Registry) : Op → Except Rejection Unit × Registry
  | .add _ a r => s.add a r
  | .remove k name a => (.ok (), s.remove k name a)

/-- The registry after an operation, whether that is rejected or not. -/
def apply (s : Registry) (op : Op) : Registry := (s.perform op).2

def applyAll (s : Registry) (ops : List Op) : Registry := ops.foldl apply s

/-- The registry after the operations, nothing being there at the beginning. -/
def run (ops : List Op) : Registry := empty.applyAll ops

/-- The operations that take effect, one after another. -/
def accepted (s : Registry) : List Op → List Op
  | [] => []
  | op :: ops => match s.perform op with
    | (.ok (), t) => op :: accepted t ops
    | (.error _, t) => accepted t ops

/-- The operations of a run that took effect. -/
def log (ops : List Op) : List Op := accepted empty ops

/-- What an operation that takes effect makes of a registry. -/
inductive Takes (s : Registry) : Op → Registry → Prop
  | add {k : Kind} {a owner : Address} {r : Record k} (hn : r.name.isEmpty = false)
      (hf : (s.table k).get? r.name a = none) (hr : s.checkReferences r.definition = .ok ())
      (ho : Address.parse r.owner = .ok owner) :
    Takes s (.add k a r) (s.setTable k ((s.table k).insert a owner r))
  | remove (k : Kind) (name : String) (a : Address) :
    Takes s (.remove k name a) (s.setTable k ((s.table k).remove name a))

variable {s t : Registry} {op : Op}

theorem takes_of_add {k : Kind} {a : Address} {r : Record k} (h : s.add a r = (.ok (), t)) :
    s.Takes (.add k a r) t := by
  unfold Registry.add at h
  split at h
  · cases h
  · rename_i hn
    split at h
    · cases h
    · rename_i hf
      split at h
      · cases h
      · rename_i hr
        split at h
        · cases h
        · rename_i ho
          cases h
          exact .add (Bool.eq_false_iff.2 hn) (Option.not_isSome_iff_eq_none.1 hf) hr ho

/-- A record is not inserted before all has been checked. -/
theorem add_error {k : Kind} {a : Address} {r : Record k} {e : Rejection}
    (h : s.add a r = (.error e, t)) : t = s := by
  unfold Registry.add at h
  split at h
  · cases h
    rfl
  · split at h
    · cases h
      rfl
    · split at h
      · cases h
        rfl
      · split at h
        · cases h
          rfl
        · cases h

theorem exists_add_iff {k : Kind} {a : Address} {r : Record k} : (∃ t, s.add a r = (.ok (), t)) ↔
    r.name.isEmpty = false ∧ (s.table k).get? r.name a = none ∧
      s.checkReferences r.definition = .ok () ∧ ∃ owner, Address.parse r.owner = .ok owner := by
  constructor
  · rintro ⟨t, h⟩
    cases takes_of_add h with
    | add hn hf hr ho => exact ⟨hn, hf, hr, _, ho⟩
  · rintro ⟨hn, hf, hr, owner, ho⟩
    exact ⟨_, by simp [Registry.add, hn, hf, hr, ho]; rfl⟩

theorem takes_of_perform (h : s.perform op = (.ok (), t)) : s.Takes op t := by
  cases op with
  | add k a r => exact takes_of_add h
  | remove k name a =>
    cases h
    exact .remove k name a

/-- What is rejected changes nothing. -/
theorem perform_error {e : Rejection} (h : s.perform op = (.error e, t)) : t = s := by
  cases op with
  | add k a r => exact add_error h
  | remove k name a => cases h

theorem apply_of_perform {x : Except Rejection Unit} (h : s.perform op = (x, t)) :
    s.apply op = t := by rw [apply, h]

/-- An operation takes effect or changes nothing. -/
theorem apply_cases (s : Registry) (op : Op) : s.apply op = s ∨ s.Takes op (s.apply op) := by
  rcases hp : s.perform op with ⟨e | _, t⟩
  · exact .inl ((apply_of_perform hp).trans (perform_error hp))
  · rw [apply_of_perform hp]
    exact .inr (takes_of_perform hp)

/-- Only the table of the kind that an operation is about is another one after it. -/
theorem Takes.table_cases {l : Kind} {P : Table l → Prop} (ht : s.Takes op t) (same : P (s.table l))
    (insert : ∀ a owner (r : Record l), op = .add l a r → (s.table l).get? r.name a = none →
      Address.parse r.owner = .ok owner → P ((s.table l).insert a owner r))
    (remove : ∀ name a, op = .remove l name a → P ((s.table l).remove name a)) :
    P (t.table l) := by
  cases ht with
  | @add k a owner r hn hf hr ho =>
    by_cases hk : l = k
    · subst hk
      rw [table_setTable]
      exact insert a owner r rfl hf ho
    · rwa [table_setTable_of_ne _ _ hk]
  | remove k name a =>
    by_cases hk : l = k
    · subst hk
      rw [table_setTable]
      exact remove name a rfl
    · rwa [table_setTable_of_ne _ _ hk]

theorem run_concat (ops : List Op) (op : Op) : run (ops ++ [op]) = (run ops).apply op := by
  simp only [run, applyAll, List.foldl_append, List.foldl_cons, List.foldl_nil]

theorem run_remove (ops : List Op) (k : Kind) (name : String) (a : Address) :
    run (ops ++ [.remove k name a]) = (run ops).remove k name a := run_concat ops _

theorem accepted_sublist (s : Registry) (ops : List Op) : (s.accepted ops).Sublist ops := by
  induction ops generalizing s with
  | nil => exact .slnil
  | cons op ops ih =>
    unfold accepted
    split
    · exact (ih _).cons_cons op
    · exact (ih _).cons op

theorem log_sublist (ops : List Op) : (log ops).Sublist ops := accepted_sublist empty ops

theorem exists_of_mem_accepted {ops : List Op} (h : op ∈ s.accepted ops) :
    ∃ l, l ++ [op] <+: ops ∧ ∃ t, (s.applyAll l).perform op = (.ok (), t) := by
  induction ops generalizing s with
  | nil => cases h
  | cons o ops ih =>
    have hrest : op ∈ (s.apply o).accepted ops →
        ∃ l, l ++ [op] <+: o :: ops ∧ ∃ t, (s.applyAll l).perform op = (.ok (), t) := by
      intro hm
      obtain ⟨l, hl, ht⟩ := ih hm
      exact ⟨o :: l, List.cons_prefix_cons.2 ⟨rfl, hl⟩, ht⟩
    unfold accepted at h
    split at h
    · rename_i t ho
      rcases List.mem_cons.1 h with rfl | h
      · exact ⟨[], List.prefix_append [op] ops, t, ho⟩
      · exact hrest (by rwa [apply_of_perform ho])
    · rename_i e t he
      exact hrest (by rwa [apply_of_perform he])

/-- What the log has took effect at some point of the run. -/
theorem exists_of_mem_log {ops : List Op} (h : op ∈ log ops) :
    ∃ l, l ++ [op] <+: ops ∧ ∃ t, (run l).perform op = (.ok (), t) := exists_of_mem_accepted h

theorem applyAll_keeps {P : Registry → List Op → Prop}
    (step : ∀ {s t l op}, P s l → s.Takes op t → P t (l ++ [op])) (ops : List Op)
    {l : List Op} (h : P s l) : P (s.applyAll ops) (l ++ s.accepted ops) := by
  induction ops generalizing s l with
  | nil => rwa [accepted, List.append_nil]
  | cons op ops ih =>
    unfold accepted
    rw [applyAll, List.foldl_cons]
    rcases hp : s.perform op with ⟨e | _, t⟩
    · rw [apply_of_perform hp]
      obtain rfl := perform_error hp
      exact ih h
    · rw [apply_of_perform hp, List.append_cons]
      exact ih (step h (takes_of_perform hp))

/-- What holds at the beginning and is kept by every operation that takes effect holds of every
run, with its log. -/
theorem run_keeps {P : Registry → List Op → Prop} (start : P empty [])
    (step : ∀ {s t l op}, P s l → s.Takes op t → P t (l ++ [op])) (ops : List Op) :
    P (run ops) (log ops) := applyAll_keeps step ops start

end ParticleChain.Registry
