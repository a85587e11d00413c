import Mathlib
import ParticleChain.Proofs.Artifact.Validation
import ParticleChain.Proofs.Composite.Paths
import ParticleChain.Proofs.Registry.Rollbacks

/-!
# Composites in a registry

A particle uses the composites of its newest version (`Uses`). An addition is checked against
these, so no addition makes a particle use itself, over others or not (`CycleFree`). A removal is
not checked: it brings an older version back, which was checked against what was the newest then.
So a registry stays free of cycles just as long as no removal brings back a version whose
composites use, by now, its own name (`cycle_free_iff`). Removals that undo the addition before
them, no other particle having been added since, bring nothing back.
-/

namespace ParticleChain.Registry

open Artifact (Kind Record Definition Feature Particle forM_eq_ok)
open Relation

variable {s t : Registry} {name n c : String}

/-- The newest version of `a` leaves a dimension to `b`. -/
def Uses (s : Registry) (a b : String) : Prop :=
  ∃ p, s.newest? .particle a = some p ∧ b ∈ Particle.compositeNames p ∧ b ≠ ""

/-- No particle uses itself, over others or not. -/
def CycleFree (s : Registry) : Prop := ∀ n, ¬ TransGen s.Uses n n

/-! ## The graph that is searched -/

theorem getElem?_compositeGraph (s : Registry) (name : String) :
    s.compositeGraph[name]? = (s.newest? .particle name).map Particle.references := by
  unfold compositeGraph newest?
  rw [Std.TreeMap.getElem?_filterMap', Option.map_map]
  cases h : s.particles.histories[name]? with
  | some l => rfl
  | none =>
    rw [Table.newest?_of_no_history (t := s.table .particle) h]
    rfl

theorem mem_references {p : Particle} : c ∈ p.references ↔ c ∈ p.compositeNames ∧ c ≠ "" := by
  simp [Particle.references]

theorem refers_compositeGraph (s : Registry) : s.compositeGraph.Refers = s.Uses := by
  funext a b
  refine propext ⟨?_, ?_⟩
  · rintro ⟨next, hn, hb⟩
    rw [getElem?_compositeGraph] at hn
    obtain ⟨p, hp, rfl⟩ := Option.map_eq_some_iff.1 hn
    exact ⟨p, hp, mem_references.1 hb⟩
  · rintro ⟨p, hp, hb⟩
    exact ⟨p.references, by rw [getElem?_compositeGraph, hp, Option.map_some],
      mem_references.2 hb⟩

theorem leads_compositeGraph (s : Registry) : s.compositeGraph.Leads = ReflTransGen s.Uses := by
  rw [Composite.Graph.Leads, refers_compositeGraph]

theorem cycleFree_iff_acyclic (s : Registry) : s.CycleFree ↔ s.compositeGraph.Acyclic := by
  rw [Composite.Graph.Acyclic, refers_compositeGraph, CycleFree]

/-- Two registries in which all particles but one have the same newest version. -/
def SameApart (name : String) (s t : Registry) : Prop :=
  ∀ n, n ≠ name → t.newest? .particle n = s.newest? .particle n

theorem SameApart.cycleFree_iff (h : SameApart name s t) (hs : s.CycleFree) :
    t.CycleFree ↔ ∀ c, t.Uses name c → ¬ ReflTransGen s.Uses c name := by
  have hagree : Composite.Graph.AgreeApart name s.compositeGraph t.compositeGraph := by
    intro n hn
    rw [getElem?_compositeGraph, getElem?_compositeGraph, h n hn]
  rw [cycleFree_iff_acyclic, Composite.Graph.acyclic_iff_of_agree
    ((cycleFree_iff_acyclic s).1 hs) hagree, refers_compositeGraph, leads_compositeGraph]

/-! ## What additions are checked for -/

theorem checkFeature_eq_ok {f : Feature} :
    s.checkFeature f = .ok () ↔ ∀ t ∈ f.transformations, s.has .transformation t = true := by
  unfold checkFeature
  split
  · rename_i t ht
    refine ⟨fun h => (nomatch h), fun h => ?_⟩
    have := List.find?_some ht
    rw [h t (List.mem_of_find?_eq_some ht)] at this
    cases this
  · rename_i hnone
    simpa using List.find?_eq_none.1 hnone

theorem checkComposite_eq_ok {p : Particle} :
    s.checkComposite p c = .ok () ↔
      s.has .particle c = true ∧ ¬ ReflTransGen s.Uses c p.name := by
  have hreach : s.compositeGraph.reaches p.name [c] = true ↔ ReflTransGen s.Uses c p.name := by
    rw [Composite.Graph.reaches_iff, leads_compositeGraph]
    simp
  unfold checkComposite
  split
  · rename_i hh
    rw [Bool.not_eq_true'] at hh
    simp [hh]
  · rename_i hh
    rw [Bool.not_eq_true', Bool.not_eq_false] at hh
    split
    · rename_i hr
      simp [hreach.1 hr]
    · rename_i hr
      simp [hh, mt hreach.2 hr]

/-- A particle fits a feature that has a dimension for each of its composite names. -/
def FitsFeature (s : Registry) (p : Particle) : Prop :=
  ∃ f, s.newest? .feature p.feature = some f ∧
    p.compositeNames.length = (Feature.dimensions f).length

theorem checkParticle_eq_ok {p : Particle} :
    s.checkParticle p = .ok () ↔ s.FitsFeature p ∧ ∀ c ∈ p.references,
      s.has .particle c = true ∧ ¬ ReflTransGen s.Uses c p.name := by
  unfold checkParticle FitsFeature
  split
  · rename_i hf
    simp [hf]
  · rename_i f hf
    dsimp only
    split
    · rename_i hl
      simp [hf, hl]
    · rename_i hl
      rw [forM_eq_ok]
      simp [hf, Decidable.not_not.1 hl, checkComposite_eq_ok]

/-! ## Operations -/

theorem newest?_setTable (s : Registry) (k : Kind) (t : Table k) (name : String) :
    (s.setTable k t).newest? k name = (t.newest? name).map Record.definition := by
  rw [newest?, table_setTable]

theorem newest?_setTable_of_ne (s : Registry) {k l : Kind} (t : Table k) (h : l ≠ k)
    (name : String) : (s.setTable k t).newest? l name = s.newest? l name := by
  rw [newest?, table_setTable_of_ne _ _ h, newest?]

theorem sameApart_insert (s : Registry) (a owner : Address) (r : Record .particle) :
    SameApart r.name s (s.setTable .particle ((s.table .particle).insert a owner r)) := by
  intro n hn
  rw [newest?_setTable, Table.newest?_insert, if_neg (Ne.symm hn), newest?]

theorem sameApart_remove (s : Registry) (name : String) (a : Address) :
    SameApart name s (s.remove .particle name a) := by
  intro n hn
  rw [remove, newest?_setTable, Table.newest?_remove_of_ne _ (Ne.symm hn), newest?]

theorem uses_of_newest? (h : ∀ n, t.newest? .particle n = s.newest? .particle n) :
    t.Uses = s.Uses := by
  funext a b
  rw [Uses, Uses, h]

/-- An operation keeps a registry free of cycles, unless it brings back a version that leads to its
own name. -/
theorem Takes.cycleFree {op : Op} (ht : s.Takes op t) (hs : s.CycleFree)
    (hr : ∀ n a, op = .remove .particle n a → ∀ c, t.Uses n c → ¬ ReflTransGen s.Uses c n) :
    t.CycleFree := by
  cases ht with
  | @add k a owner r hn hf hc ho =>
    by_cases hk : k = .particle
    · subst hk
      rw [(sameApart_insert s a owner r).cycleFree_iff hs]
      rintro c ⟨p, hp, hm⟩
      rw [newest?_setTable, Table.newest?_insert, if_pos rfl] at hp
      obtain rfl := Option.some.inj hp
      exact ((checkParticle_eq_ok.1 hc).2 c (mem_references.2 hm)).2
    · rwa [CycleFree, uses_of_newest? fun n => newest?_setTable_of_ne _ _ (Ne.symm hk) n]
  | remove k name a =>
    by_cases hk : k = .particle
    · subst hk
      exact ((sameApart_remove s name a).cycleFree_iff hs).2 (hr name a rfl)
    · rwa [CycleFree, uses_of_newest? fun n => newest?_setTable_of_ne _ _ (Ne.symm hk) n]

theorem cycleFree_empty : empty.CycleFree := by
  intro n hn
  obtain ⟨c, ⟨p, hp, -⟩, -⟩ := TransGen.head'_iff.1 hn
  cases hp

/-! ## Runs -/

/-- The particle version that the removal brings back does not lead to its own name. -/
def Harmless (s : Registry) (n : String) (a : Address) : Prop :=
  ∀ c, (s.remove .particle n a).Uses n c → ¬ ReflTransGen s.Uses c n

/-- A run stays free of cycles if it is with each particle that is removed. -/
theorem run_cycleFree {ops : List Op}
    (h : ∀ l n a, l ++ [.remove .particle n a] <+: ops → (∀ l', l' <+: l → (run l').CycleFree) →
      (run (l ++ [.remove .particle n a])).CycleFree) {l : List Op} (hl : l <+: ops) :
    (run l).CycleFree := by
  suffices hall : ∀ l', l' <+: l → (run l').CycleFree from hall l (List.prefix_refl l)
  induction l using List.reverseRecOn with
  | nil =>
    intro l' hl'
    rw [List.prefix_nil.1 hl']
    exact cycleFree_empty
  | append_singleton l op ih =>
    have hbefore := ih ((List.prefix_append l [op]).trans hl)
    intro l' hl'
    rcases List.prefix_concat_iff.1 hl' with rfl | hl'
    · by_cases hop : ∃ n a, op = .remove .particle n a
      · obtain ⟨n, a, rfl⟩ := hop
        exact h l n a hl hbefore
      · rw [run_concat]
        have hs := hbefore l (List.prefix_refl l)
        rcases apply_cases (run l) op with he | ht
        · rwa [he]
        · exact ht.cycleFree hs fun n a hr => absurd ⟨n, a, hr⟩ hop
    · exact hbefore l' hl'

/-- Whether the operation adds or removes a particle. -/
def Op.ofParticle : Op → Bool
  | .add k .. | .remove k .. => k = .particle

/-- Every particle that is removed was added, and no particle was added or removed since. -/
def InTurn (ops : List Op) : Prop :=
  ∀ l n a, l ++ [.remove .particle n a] <+: ops → ∃ l₀ l₁, ∃ r : Record .particle,
    l = l₀ ++ .add .particle a r :: l₁ ∧ r.name = n ∧ (∃ t, (run l₀).add a r = (.ok (), t)) ∧
    ∀ op ∈ l₁, op.ofParticle = false

theorem particles_applyAll {l : List Op} (h : ∀ op ∈ l, op.ofParticle = false) (s : Registry) :
    (s.applyAll l).particles = s.particles := by
  induction l generalizing s with
  | nil => rfl
  | cons op l ih =>
    obtain ⟨hop, hl⟩ := List.forall_mem_cons.1 h
    refine (ih hl (s.apply op)).trans ?_
    rcases apply_cases s op with he | ht
    · rw [he]
    · generalize s.apply op = t at ht
      cases ht with
      | @add k | remove k => cases k <;> first | rfl | cases hop

/-- A removal that comes in turn gives back the composites from before the addition. -/
theorem uses_of_inTurn {l₀ l₁ : List Op} {a : Address} {r : Record .particle}
    (h : (run l₀).add a r = (.ok (), t)) (hl : ∀ op ∈ l₁, op.ofParticle = false) :
    ((run (l₀ ++ .add .particle a r :: l₁)).remove .particle r.name a).Uses = (run l₀).Uses := by
  have hrun : (run (l₀ ++ .add .particle a r :: l₁)).particles = t.particles := by
    rw [List.append_cons, run, applyAll, List.foldl_append]
    refine (particles_applyAll hl _).trans (congrArg Registry.particles ?_)
    exact (run_concat l₀ _).trans (apply_of_perform h)
  refine uses_of_newest? fun n => ?_
  rw [← ((run_follows l₀).undone h).newest? .particle n, remove, remove, newest?_setTable,
    newest?_setTable]
  exact congrArg (fun x : Table .particle => ((x.remove r.name a).newest? n).map _) hrun

/-- After each operation of a run no particle uses itself just if every removal is harmless. It is
if removals come in turn. -/
theorem cycle_free_iff (ops : List Op) :
    ((∀ l, l <+: ops → (run l).CycleFree) ↔
      ∀ l n a, l ++ [.remove .particle n a] <+: ops → (run l).Harmless n a) ∧
    (InTurn ops → (run ops).CycleFree) := by
  refine ⟨⟨fun h l n a hl => ?harmless, fun h l hl => ?free⟩, fun h => ?turns⟩
  case harmless =>
    have hafter := h _ hl
    rw [run_remove] at hafter
    have hbefore := h l ((List.prefix_append l _).trans hl)
    exact ((sameApart_remove _ n a).cycleFree_iff hbefore).1 hafter
  case free =>
    refine run_cycleFree (fun l n a hl hbefore => ?_) hl
    rw [run_remove]
    have hs := hbefore l (List.prefix_refl l)
    exact ((sameApart_remove _ n a).cycleFree_iff hs).2 (h l n a hl)
  case turns =>
    refine run_cycleFree (fun l n a hl hbefore => ?_) (List.prefix_refl ops)
    obtain ⟨l₀, l₁, r, rfl, rfl, ⟨t, ht⟩, hrest⟩ := h l n a hl
    rw [run_remove, CycleFree, uses_of_inTurn ht hrest]
    exact hbefore l₀ (List.prefix_append l₀ _)

/-! ## A rollback that closes a cycle -/

def wave : Record .feature := ⟨⟨"Wave", [⟨[]⟩]⟩, always.owner⟩

/-- A particle with one dimension, which is left to a composite or to none. -/
def leaf (name composite : String) : Record .particle :=
  ⟨⟨name, "Wave", [composite], "", []⟩, always.owner⟩

/-- `A` uses `B` until a second version is added; before that is removed, `B` comes to use `A`. -/
def crossing : List Op :=
  [.add .feature ⟨1, 0, 0⟩ wave, .add .particle ⟨1, 0, 0⟩ (leaf "B" ""),
    .add .particle ⟨2, 0, 0⟩ (leaf "A" "B"), .add .particle ⟨3, 0, 0⟩ (leaf "A" ""),
    .add .particle ⟨4, 0, 0⟩ (leaf "B" "A"), .remove .particle "A" ⟨3, 0, 0⟩]

/-- Each removal in `crossing` takes out what was added, and still two particles use each other. -/
theorem crossing_removal_closes_cycle :
    log crossing = crossing ∧ ¬ (run crossing).CycleFree := by
  have huse : (run crossing).Uses "A" "B" ∧ (run crossing).Uses "B" "A" :=
    ⟨⟨(leaf "A" "B").definition, by cbv, by decide, by decide⟩,
      ⟨(leaf "B" "A").definition, by cbv, by decide, by decide⟩⟩
  refine ⟨?_, fun h => h "A" (.tail (.single huse.1) huse.2)⟩
  cbv

/-- The same operations, but the removal comes before `B` comes to use `A`. -/
def uncrossed : List Op := crossing.take 4 ++ [.remove .particle "A" ⟨3, 0, 0⟩,
    .add .particle ⟨4, 0, 0⟩ (leaf "B" "A")]

theorem cycle_free_iff_uncrossed : InTurn uncrossed ∧ (run uncrossed).CycleFree := by
  have hadd : ∃ t, (run (crossing.take 3)).add ⟨3, 0, 0⟩ (leaf "A" "") = (.ok (), t) := by
    have hok : ((run (crossing.take 3)).add ⟨3, 0, 0⟩ (leaf "A" "")).1 = .ok () := by cbv
    exact ⟨_, Prod.ext hok rfl⟩
  have hturn : InTurn uncrossed := by
    intro l n a hl
    obtain ⟨rest, he⟩ := hl
    -- The one removal comes after four additions.
    rcases l with _ | ⟨o₁, _ | ⟨o₂, _ | ⟨o₃, _ | ⟨o₄, _ | ⟨o₅, _ | ⟨o₆, l⟩⟩⟩⟩⟩⟩ <;>
      simp [uncrossed, crossing] at he
    obtain ⟨rfl, rfl, rfl, rfl, ⟨rfl, rfl⟩, -⟩ := he
    exact ⟨crossing.take 3, [], leaf "A" "", rfl, rfl, hadd, List.forall_mem_nil _⟩
  exact ⟨hturn, (cycle_free_iff uncrossed).2 hturn⟩

end ParticleChain.Registry
