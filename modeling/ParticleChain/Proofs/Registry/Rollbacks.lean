import ParticleChain.Proofs.Registry.Versions

/-!
# Rollbacks

A removal that undoes an addition gives back the answers from before the addition, whatever the
name had by then. The owner index is no part of these answers.
-/

namespace ParticleChain.Registry

open Artifact (Kind Record)

/-- Two registries that answer alike what is registered, and what is the newest. -/
structure SameAnswers (s t : Registry) : Prop where
  get? (k : Kind) (name : String) (a : Address) : t.get? k name a = s.get? k name a
  has (k : Kind) (name : String) : t.has k name = s.has k name
  newest? (k : Kind) (name : String) : t.newest? k name = s.newest? k name
  newestAddress? (k : Kind) (name : String) : t.newestAddress? k name = s.newestAddress? k name

variable {s t u : Registry} {k : Kind}

theorem SameAnswers.refl (s : Registry) : SameAnswers s s :=
  ⟨fun _ _ _ => rfl, fun _ _ => rfl, fun _ _ => rfl, fun _ _ => rfl⟩

namespace Table

variable {x y : Table k} {name : String} {a owner : Address} {r : Record k}
  {es : List (Address × Record k)}

theorem Lists.get?_eq (hx : x.Lists name es) (hy : y.Lists name es) (a : Address) :
    y.get? name a = x.get? name a :=
  Option.ext fun r => (hy.get? a r).trans (hx.get? a r).symm

theorem Lists.has_eq (h : x.Lists name es) : x.has name = !es.isEmpty := by
  rw [has, isEmpty_of_reads fun a r => h.get? a r]

/-- What is listed before an addition is listed again after its removal. -/
theorem Lists.undone (h : x.Lists name es) (hf : x.get? r.name a = none) (owner : Address) :
    ((x.insert a owner r).remove r.name a).Lists name es := by
  by_cases hn : r.name = name
  · subst hn
    have hback : (es ++ [(a, r)]).filter (·.1 != a) = es := by
      rw [List.filter_append, List.filter_eq_self.2 fun e he => bne_iff_ne.2 (h.ne_of_none hf e he)]
      simp
    have := (h.insert hf owner).remove a
    rwa [hback] at this
  · exact (h.insert_of_ne hn a owner).remove_of_ne hn a

end Table

/-- Registries with one log answer alike. -/
theorem Follows.sameAnswers {l : List Op} (hs : s.Follows l) (h : t.Follows l) :
    SameAnswers s t where
  get? k name a := by
    rw [Registry.get?, Registry.get?, (hs.lists k name).get?_eq (h.lists k name)]
  has k name := by
    rw [Registry.has, Registry.has, (hs.lists k name).has_eq, (h.lists k name).has_eq]
  newest? k name := by
    rw [Registry.newest?, Registry.newest?, (hs.lists k name).newest?, (h.lists k name).newest?]
  newestAddress? k name := by
    rw [Registry.newestAddress?, Registry.newestAddress?, (hs.lists k name).newestAddress?,
      (h.lists k name).newestAddress?]

/-- An addition may be left out of the log together with the removal that comes next. -/
theorem Follows.takenBack {l : List Op} (hs : s.Follows l) {a : Address} {r : Record k}
    (h : s.add a r = (.ok (), t)) : (t.remove k r.name a).Follows l := by
  refine ⟨fun l name => ?_, hs.named⟩
  cases takes_of_add h with
  | add hn hf hc ho =>
    by_cases hk : l = k
    · subst hk
      rw [remove, table_setTable, table_setTable]
      exact (hs.lists l name).undone hf _
    · rw [remove, table_setTable_of_ne _ _ hk, table_setTable_of_ne _ _ hk]
      exact hs.lists l name

/-- A removal undoes the addition before it. -/
theorem Follows.undone {l : List Op} (hs : s.Follows l) {a : Address} {r : Record k}
    (h : s.add a r = (.ok (), t)) : SameAnswers s (t.remove k r.name a) :=
  hs.sameAnswers (hs.takenBack h)

end ParticleChain.Registry
