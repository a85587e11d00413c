import ParticleChain.Proofs.Registry.Runs
import ParticleChain.Proofs.Registry.Tables

/-!
# The versions of a name

The versions that stand under a name are those that were added and not removed since, in the
order in which they were added (`standing`). After every run, the tables have just these: they
are what a bucket holds, their addresses are the history, and the last one is the newest
(`tables_follow_log`).
-/

namespace ParticleChain.Registry

open Artifact (Kind Record Definition)

/-! ## Versions that stand -/

/-- The version of the name that the operation adds. -/
def Op.version? (k : Kind) (name : String) : Op → Option (Address × Record k)
  | .add l a r => if h : l = k then if r.name = name then some (a, h ▸ r) else none else none
  | .remove .. => none

/-- Whether the operation removes the version at the address. -/
def Op.removes (k : Kind) (name : String) (a : Address) : Op → Bool
  | .add .. => false
  | .remove l n b => l = k ∧ n = name ∧ b = a

/-- The versions that are added and not removed later. -/
def standing (k : Kind) (name : String) : List Op → List (Address × Record k)
  | [] => []
  | op :: l => match op.version? k name with
    | some e => if l.any (·.removes k name e.1) then standing k name l else e :: standing k name l
    | none => standing k name l

section

variable {k l : Kind} {name n : String} {a : Address} {r : Record k} {ops : List Op} {op : Op}

theorem standing_concat (k : Kind) (name : String) (ops : List Op) (op : Op) :
    standing k name (ops ++ [op]) =
      (standing k name ops).filter (fun e => !op.removes k name e.1) ++
        (op.version? k name).toList := by
  induction ops with
  | nil => cases h : op.version? k name <;> simp [standing, h]
  | cons o ops ih =>
    rw [List.cons_append, standing, standing]
    cases o.version? k name with
    | none => exact ih
    | some e =>
      -- A version that stood no longer does if the last operation removes it.
      cases ho : ops.any (·.removes k name e.1) <;> cases hr : op.removes k name e.1 <;>
        simp [ho, hr, ih]

theorem eq_add_of_version? {e : Address × Record k} (h : op.version? k name = some e) :
    op = .add k e.1 e.2 ∧ e.2.name = name := by
  cases op with
  | add l a r =>
    by_cases hl : l = k
    · subst hl
      simp only [Op.version?, dif_pos] at h
      split at h
      · rename_i hn
        cases h
        exact ⟨rfl, hn⟩
      · cases h
    · simp only [Op.version?, dif_neg hl] at h
      cases h
  | remove l n a => cases h

theorem mem_of_mem_standing {e : Address × Record k} (h : e ∈ standing k name ops) :
    .add k e.1 e.2 ∈ ops ∧ e.2.name = name := by
  induction ops with
  | nil => cases h
  | cons op ops ih =>
    have hrest : e ∈ standing k name ops → .add k e.1 e.2 ∈ op :: ops ∧ e.2.name = name :=
      fun h => (ih h).imp_left (List.mem_cons_of_mem _)
    unfold standing at h
    split at h
    · rename_i e' hv
      split at h
      · exact hrest h
      · rcases List.mem_cons.1 h with rfl | h
        · obtain ⟨rfl, hn⟩ := eq_add_of_version? hv
          exact ⟨List.mem_cons_self, hn⟩
        · exact hrest h
    · exact hrest h

theorem standing_add (a : Address) (r : Record k) (name : String) (ops : List Op) :
    standing k name (ops ++ [.add k a r]) =
      standing k name ops ++ if r.name = name then [(a, r)] else [] := by
  rw [standing_concat]
  by_cases h : r.name = name <;> simp [Op.removes, Op.version?, h]

theorem standing_add_of_ne (h : l ≠ k) (a : Address) (r : Record l) (name : String)
    (ops : List Op) : standing k name (ops ++ [.add l a r]) = standing k name ops := by
  rw [standing_concat]
  simp [Op.removes, Op.version?, h]

theorem standing_remove (k : Kind) (name : String) (a : Address) (ops : List Op) :
    standing k name (ops ++ [.remove k name a]) =
      (standing k name ops).filter (·.1 != a) := by
  rw [standing_concat, show (Op.remove k name a).version? k name = none from rfl,
    Option.toList_none, List.append_nil]
  refine List.filter_congr fun e _ => ?_
  by_cases h : a = e.1 <;> simp [Op.removes, h, Ne.symm]

theorem standing_remove_of_ne (h : l ≠ k ∨ n ≠ name) (a : Address) (ops : List Op) :
    standing k name (ops ++ [.remove l n a]) = standing k name ops := by
  rw [standing_concat, show (Op.remove l n a).version? k name = none from rfl,
    Option.toList_none, List.append_nil, List.filter_eq_self]
  intro e _
  rcases h with h | h <;> simp [Op.removes, h]

end

/-! ## Tables and the log -/

/-- Under every name, each table lists the versions that stand; none does under no name at all. -/
structure Follows (s : Registry) (ops : List Op) : Prop where
  lists (k : Kind) (name : String) : (s.table k).Lists name (standing k name ops)
  named (k : Kind) (name : String) : name.isEmpty = true → standing k name ops = []

theorem follows_empty : empty.Follows [] where
  lists k name := by
    rw [show empty.table k = ∅ by cases k <;> rfl]
    exact Table.lists_empty name
  named _ _ _ := rfl

theorem Follows.takes {s t : Registry} {ops : List Op} {op : Op} (h : s.Follows ops)
    (ht : s.Takes op t) : t.Follows (ops ++ [op]) := by
  cases ht with
  | @add l a owner r hn hf hr ho =>
    refine ⟨fun k name => ?_, fun k name he => ?_⟩
    · by_cases hk : l = k
      · subst hk
        rw [table_setTable, standing_add]
        by_cases hname : r.name = name
        · subst hname
          rw [if_pos rfl]
          exact (h.lists l r.name).insert hf owner
        · rw [if_neg hname, List.append_nil]
          exact (h.lists l name).insert_of_ne hname a owner
      · rw [table_setTable_of_ne _ _ (Ne.symm hk), standing_add_of_ne hk]
        exact h.lists k name
    · by_cases hk : l = k
      · subst hk
        rw [standing_add, h.named l name he, if_neg]
        · rfl
        · rintro rfl
          rw [hn] at he
          cases he
      · rw [standing_add_of_ne hk, h.named k name he]
  | remove l n a =>
    refine ⟨fun k name => ?_, fun k name he => ?_⟩
    · by_cases hk : l = k
      · subst hk
        rw [table_setTable]
        by_cases hname : n = name
        · subst hname
          rw [standing_remove]
          exact (h.lists l n).remove a
        · rw [standing_remove_of_ne (.inr hname)]
          exact (h.lists l name).remove_of_ne hname a
      · rw [table_setTable_of_ne _ _ (Ne.symm hk), standing_remove_of_ne (.inl hk)]
        exact h.lists k name
    · rw [standing_concat, h.named k name he]
      rfl

/-- A record in a table was added under its name. -/
theorem Follows.mem {s : Registry} {ops : List Op} (h : s.Follows ops) {k : Kind} {name : String}
    {a : Address} {r : Record k} (hr : (s.table k).get? name a = some r) :
    .add k a r ∈ ops ∧ r.name = name := mem_of_mem_standing (((h.lists k name).get? a r).1 hr)

theorem run_follows (ops : List Op) : (run ops).Follows (log ops) :=
  run_keeps follows_empty Follows.takes ops

theorem Follows.add_duplicate {s : Registry} {ops : List Op} (h : s.Follows ops) {k : Kind}
    {a : Address} {r : Record k} (hr : ((s.table k).get? r.name a).isSome = true) :
    s.add a r = (.error (.duplicate k r.name a), s) := by
  have hn : r.name.isEmpty = false := by
    refine Bool.eq_false_iff.2 fun hn => ?_
    obtain ⟨q, hq⟩ := Option.isSome_iff_exists.1 hr
    have hm := ((h.lists k r.name).get? a q).1 hq
    rw [h.named k r.name hn] at hm
    cases hm
  rw [add, hn, if_neg Bool.false_ne_true, if_pos hr]

/-- After every run, the tables have under each name just the versions that stand. The name has a
bucket if and only if it has a history, and neither is empty. The history has the addresses in the
bucket, each once, in the order of their insertion; its last is the newest. A version is found
at its address, and cannot be added again; what is rejected changes nothing. -/
theorem tables_follow_log (ops : List Op) (k : Kind) (name : String) :
    let s := run ops
    let t := s.table k
    let versions := standing k name (log ops)
    t.buckets.contains name = t.histories.contains name ∧
    (∀ m, t.buckets[name]? = some m → m.isEmpty = false) ∧
    (∀ l, t.histories[name]? = some l → l ≠ []) ∧
    t.history name = versions.map Prod.fst ∧ (t.history name).Nodup ∧
    (∀ a, a ∈ t.history name ↔ a ∈ t.bucket name) ∧
    s.newestAddress? k name = versions.getLast?.map Prod.fst ∧
    t.newest? name = versions.getLast?.map Prod.snd ∧
    (∀ a r, t.get? name a = some r ↔ (a, r) ∈ versions) ∧
    (∀ a (r : Record k), (t.get? r.name a).isSome = true →
      s.add a r = (.error (.duplicate k r.name a), s)) ∧
    ∀ op e t, s.perform op = (.error e, t) → t = s := by
  intro s t versions
  have hs : s.Follows (log ops) := run_follows ops
  have ht : t.Lists name versions := hs.lists k name
  refine ⟨ht.contains_eq, fun m => ht.bucket_not_empty, fun l => ht.history_ne_nil, ht.history, ?_,
    fun a => ?_, ht.newestAddress?, ht.newest?, ht.get?, fun a r => hs.add_duplicate,
    fun op e t => perform_error⟩
  · rw [ht.history]
    exact ht.distinct
  · rw [ht.history, ht.mem_bucket]

theorem get?_of_add_of_ne {s t : Registry} {k : Kind} {a b : Address} {r : Record k}
    (h : s.add a r = (.ok (), t)) (hne : a ≠ b) :
    (t.table k).get? r.name b = (s.table k).get? r.name b := by
  cases takes_of_add h with
  | add hn hf hr ho => rw [table_setTable, Table.get?_insert, if_neg fun he => hne he.2]

def always : Record .condition :=
  ⟨⟨"always", "return true;"⟩, "0000000000000000000000000000000000000007"⟩

/-- Two versions are added, the first once more, and the second is removed. -/
def rollback : List Op :=
  [.add .condition ⟨1, 0, 0⟩ always, .add .condition ⟨2, 0, 0⟩ always,
    .add .condition ⟨1, 0, 0⟩ always, .remove .condition "always" ⟨2, 0, 0⟩]

theorem tables_follow_log_rollback :
    (log rollback).length = 3 ∧
    (run rollback).newestAddress? .condition "always" = some ⟨1, 0, 0⟩ ∧
    ((run rollback).table .condition).get? "always" ⟨1, 0, 0⟩ = some always ∧
    (run rollback).add ⟨1, 0, 0⟩ always =
      (.error (.duplicate .condition "always" ⟨1, 0, 0⟩), run rollback) := by
  have hv : standing .condition "always" (log rollback) = [(⟨1, 0, 0⟩, always)] := by
    decide +kernel
  obtain ⟨-, -, -, -, -, -, hn, -, hg, hd, -⟩ := tables_follow_log rollback .condition "always"
  rw [hv] at hn hg
  have hget := (hg ⟨1, 0, 0⟩ always).2 List.mem_cons_self
  exact ⟨by decide +kernel, hn, hget, hd ⟨1, 0, 0⟩ always (congrArg Option.isSome hget)⟩

end ParticleChain.Registry
