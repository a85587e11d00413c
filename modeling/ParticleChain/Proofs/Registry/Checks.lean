import ParticleChain.Proofs.Registry.References

/-!
# What a check has found

A particle is refused for a cycle just if there would be one with it, in place of the version that
is the newest so far (`cycle_check_exact`): the references that are about to be replaced are on no
path that matters, since such a path has come back to the particle already. What a record refers to
was there when it was added, and still is as long as nothing is removed (`references_stay`).
-/

namespace ParticleChain.Registry

open Artifact (Kind Record Feature Particle)
open Relation

variable {s : Registry} {r : Record .particle} {p : Particle} {c : String}

/-! ## Cycles -/

/-- What the particles would use with the record as the newest version of its name. -/
def UsesWith (s : Registry) (r : Record .particle) (a b : String) : Prop :=
  if r.name = a then b ∈ Particle.references r.definition else s.Uses a b

/-- The composites with those of the record in place of those of its name. -/
def graphWith (s : Registry) (r : Record .particle) : Composite.Graph :=
  s.compositeGraph.insert r.name (Particle.references r.definition)

theorem getElem?_graphWith (s : Registry) (r : Record .particle) (n : String) :
    (s.graphWith r)[n]? =
      if r.name = n then some (Particle.references r.definition) else s.compositeGraph[n]? := by
  rw [graphWith, Std.TreeMap.getElem?_insert]
  simp only [Std.compare_eq_iff_eq]

theorem refers_graphWith (s : Registry) (r : Record .particle) :
    (s.graphWith r).Refers = s.UsesWith r := by
  funext a b
  rw [Composite.Graph.Refers, getElem?_graphWith, UsesWith, ← refers_compositeGraph]
  by_cases ha : r.name = a
  · simp [ha]
  · simp [ha, Composite.Graph.Refers]

theorem usesWith_cycleFree_iff (hs : s.CycleFree) : (∀ n, ¬ TransGen (s.UsesWith r) n n) ↔
    ∀ c ∈ Particle.references r.definition, ¬ ReflTransGen s.Uses c r.name := by
  have hagree : Composite.Graph.AgreeApart r.name s.compositeGraph (s.graphWith r) :=
    fun n hn => by rw [getElem?_graphWith, if_neg (Ne.symm hn)]
  have hiff := Composite.Graph.acyclic_iff_of_agree ((cycleFree_iff_acyclic s).1 hs) hagree
  rw [Composite.Graph.Acyclic, refers_graphWith, leads_compositeGraph] at hiff
  simpa only [UsesWith, if_true] using hiff

/-- What makes the whole fail is the first that fails. -/
theorem exists_of_forM_eq_error {ε α : Type} {f : α → Except ε Unit} {l : List α} {e : ε}
    (h : l.forM f = .error e) : ∃ front x back, l = front ++ x :: back ∧
      (∀ y ∈ front, f y = .ok ()) ∧ f x = .error e := by
  induction l with
  | nil => cases h
  | cons x l ih =>
    rw [List.forM] at h
    cases hx : f x with
    | ok =>
      rw [hx] at h
      obtain ⟨front, y, back, rfl, hfront, hy⟩ := ih h
      exact ⟨x :: front, y, back, rfl, List.forall_mem_cons.2 ⟨hx, hfront⟩, hy⟩
    | error e' =>
      rw [hx] at h
      cases h
      exact ⟨[], x, l, rfl, List.forall_mem_nil _, hx⟩

/-- A composite that is registered is refused only for a cycle. -/
theorem checkComposite_eq_error {e : Rejection} (hc : s.has .particle c = true)
    (h : s.checkComposite p c = .error e) :
    e = .compositeCycle p.name c ∧ ReflTransGen s.Uses c p.name := by
  have hleads : ReflTransGen s.Uses c p.name := by
    by_contra hno
    cases h.symm.trans (checkComposite_eq_ok.2 ⟨hc, hno⟩)
  unfold checkComposite at h
  rw [hc, Bool.not_true, if_neg Bool.false_ne_true] at h
  split at h
  · cases h
    exact ⟨rfl, hleads⟩
  · cases h

/-- A particle that fits is checked composite by composite. -/
theorem checkParticle_of_fits (hf : s.FitsFeature p) :
    s.checkParticle p = p.references.forM (s.checkComposite p) := by
  obtain ⟨f, hf, hl⟩ := hf
  unfold checkParticle
  rw [hf]
  exact if_neg (not_not.2 hl)

/-- In a registry without cycles, a particle whose feature has a dimension for each of its composite
names, and whose composites are registered, is accepted just if its composites, in place of those
of the newest version of its name, make no particle use itself. It is refused for a cycle just if
they do, and for the first composite that leads to it. -/
theorem cycle_check_exact (s : Registry) (hs : s.CycleFree) (r : Record .particle)
    (hf : s.FitsFeature r.definition)
    (hc : ∀ c ∈ Particle.references r.definition, s.has .particle c = true) :
    (s.checkReferences r.definition = .ok () ↔ ∀ n, ¬ TransGen (s.UsesWith r) n n) ∧
    ((∃ c, s.checkReferences r.definition = .error (.compositeCycle r.name c)) ↔
      ∃ n, TransGen (s.UsesWith r) n n) ∧
    ∀ e, s.checkReferences r.definition = .error e → ∃ front c back,
      Particle.references r.definition = front ++ c :: back ∧ e = .compositeCycle r.name c ∧
      ReflTransGen s.Uses c r.name ∧ ∀ b ∈ front, ¬ ReflTransGen s.Uses b r.name := by
  have hok : s.checkReferences r.definition = .ok () ↔ ∀ n, ¬ TransGen (s.UsesWith r) n n := by
    rw [usesWith_cycleFree_iff hs]
    refine checkParticle_eq_ok.trans ⟨fun h c hm => (h.2 c hm).2, fun h => ⟨hf, fun c hm => ?_⟩⟩
    exact ⟨hc c hm, h c hm⟩
  have herror : ∀ e, s.checkReferences r.definition = .error e → ∃ front c back,
      Particle.references r.definition = front ++ c :: back ∧ e = .compositeCycle r.name c ∧
      ReflTransGen s.Uses c r.name ∧ ∀ b ∈ front, ¬ ReflTransGen s.Uses b r.name := by
    intro e he
    obtain ⟨front, c, back, hsplit, hfront, hce⟩ :=
      exists_of_forM_eq_error ((checkParticle_of_fits hf).symm.trans he)
    have hmem : c ∈ Particle.references r.definition := hsplit ▸ by simp
    obtain ⟨rfl, hleads⟩ := checkComposite_eq_error (hc c hmem) hce
    exact ⟨front, c, back, hsplit, rfl, hleads,
      fun b hb => (checkComposite_eq_ok.1 (hfront b hb)).2⟩
  refine ⟨hok, ⟨?refused, fun hcycle => ?cycle⟩, herror⟩
  case refused =>
    rintro ⟨c, he⟩
    by_contra hno
    cases he.symm.trans (hok.2 fun n hn => hno ⟨n, hn⟩)
  case cycle =>
    obtain ⟨n, hn⟩ := hcycle
    cases he : s.checkReferences r.definition with
    | ok => exact absurd hn (hok.1 he n)
    | error e =>
      obtain ⟨front, c, back, -, rfl, -⟩ := herror e he
      exact ⟨c, rfl⟩

/-- While `A` uses `B`, there can be no version of `B` that uses `A`. -/
theorem cycle_check_exact_crossing : (run (crossing.take 3)).CycleFree ∧ ∃ c,
    (run (crossing.take 3)).checkReferences (leaf "B" "A").definition =
      .error (.compositeCycle "B" c) := by
  have hs : (run (crossing.take 3)).CycleFree := (run_sound (by decide)).cycleFree
  have hab : (run (crossing.take 3)).UsesWith (leaf "B" "A") "A" "B" := by
    rw [UsesWith, if_neg (by decide)]
    exact ⟨(leaf "A" "B").definition, by cbv, by decide, by decide⟩
  have hba : (run (crossing.take 3)).UsesWith (leaf "B" "A") "B" "A" := by
    rw [UsesWith, if_pos (by decide)]
    decide
  obtain ⟨-, hcycle, -⟩ := cycle_check_exact (run (crossing.take 3)) hs (leaf "B" "A")
    ⟨wave.definition, by cbv, rfl⟩ (List.forall_mem_singleton.2 (by cbv))
  exact ⟨hs, hcycle.2 ⟨"A", .tail (.single hab) hba⟩⟩

/-! ## References -/

/-- In a registry that comes about by additions, accepted or rejected, some record is registered
for every transformation in a dimension of a version of a feature, and for the feature and every
composite of a version of a particle. Every such version was accepted at some point of the run;
when a version of a particle is, it has as many composite names as the newest version of its feature
has dimensions then. -/
theorem references_stay (ops : List Op) (h : ∀ op ∈ ops, op.isAddition = true) :
    let s := run ops
    (∀ name a (r : Record .feature), (s.table .feature).get? name a = some r →
      ∀ d ∈ Feature.dimensions r.definition, ∀ x ∈ d.applications,
        ∃ b q, (s.table .transformation).get? x.transformation b = some q) ∧
    (∀ name a (r : Record .particle), (s.table .particle).get? name a = some r →
      (∃ b q, (s.table .feature).get? (Particle.feature r.definition) b = some q) ∧
      ∀ c ∈ Particle.references r.definition, ∃ b q, (s.table .particle).get? c b = some q) ∧
    (∀ name a (r : Record .particle), (s.table .particle).get? name a = some r →
      ∃ l, l ++ [.add .particle a r] <+: ops ∧ ∃ t, (run l).add a r = (.ok (), t)) ∧
    ∀ l a (r : Record .particle) t, l ++ [.add .particle a r] <+: ops →
      (run l).add a r = (.ok (), t) →
      ∃ f, (run l).newest? .feature (Particle.feature r.definition) = some f ∧
        (Particle.compositeNames r.definition).length = (Feature.dimensions f).length := by
  intro s
  have hsound : s.Sound := run_sound h
  refine ⟨fun name a r hr d hd x hx => ?_, fun name a r hr => ?_, fun name a r hr => ?_,
    fun l a r t _ ht => ?_⟩
  · have hresolves : ∀ n ∈ Feature.transformations r.definition, s.has .transformation n = true :=
      (hsound.grounded .feature name a r hr).resolves
    refine has_iff.1 (hresolves _ ?_)
    exact List.mem_flatMap.2 ⟨d, hd, List.mem_map.2 ⟨x, hx, rfl⟩⟩
  · obtain ⟨hfeature, hcomposites⟩ := (hsound.grounded .particle name a r hr).resolves
    exact ⟨has_iff.1 hfeature, fun c hc => has_iff.1 (hcomposites c hc)⟩
  · exact exists_of_mem_log ((run_follows ops).mem hr).1
  · cases takes_of_add ht with
    | add hn hf hc ho => exact (checkParticle_eq_ok.1 hc).1

/-- A particle is rejected, then accepted; its feature gets another number of dimensions. -/
def regrown : List Op :=
  [.add .particle ⟨1, 0, 0⟩ (leaf "A" "B"), .add .feature ⟨2, 0, 0⟩ wave,
    .add .particle ⟨3, 0, 0⟩ (leaf "B" ""), .add .particle ⟨1, 0, 0⟩ (leaf "A" "B"),
    .add .feature ⟨4, 0, 0⟩ ⟨⟨"Wave", []⟩, always.owner⟩]

theorem references_stay_regrown : (∀ op ∈ regrown, op.isAddition = true) ∧
    ((run regrown).table .particle).get? "A" ⟨1, 0, 0⟩ = some (leaf "A" "B") ∧
    (∃ b q, ((run regrown).table .particle).get? "B" b = some q) ∧
    ∃ l, l ++ [.add .particle ⟨1, 0, 0⟩ (leaf "A" "B")] <+: regrown ∧
      ∃ f, (run l).newest? .feature "Wave" = some f ∧ 1 = (Feature.dimensions f).length := by
  have hadds : ∀ op ∈ regrown, op.isAddition = true := by decide
  have hget : ((run regrown).table .particle).get? "A" ⟨1, 0, 0⟩ = some (leaf "A" "B") := by cbv
  obtain ⟨-, hparticle, haccepted, hfits⟩ := references_stay regrown hadds
  obtain ⟨l, hl, t, ht⟩ := haccepted "A" ⟨1, 0, 0⟩ (leaf "A" "B") hget
  exact ⟨hadds, hget, (hparticle _ _ _ hget).2 "B" (by decide), l, hl, hfits l _ _ t hl ht⟩

end ParticleChain.Registry
