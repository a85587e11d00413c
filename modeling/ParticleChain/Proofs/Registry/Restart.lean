import Mathlib
import ParticleChain.Proofs.Registry.Stored

/-!
# Restarts

A restart adds what is stored again, each record after what it refers to (`Turn`). So nothing can
be wrong with a record but one thing: a particle was checked against the newest version its
feature had then, and is checked against another one now. A particle that no longer fits, or that
uses one that does not, is not restored; all else is (`restart_restores`).
-/

namespace ParticleChain.Registry

open Artifact (Kind Record Particle)
open Relation

variable {s t : Registry} {k l : Kind} {name c : String} {a : Address} {r : Record k}
  {ops before : List Op} {place : Kind → String → Address}

/-! ## What a restart takes back -/

/-- The particle and all it uses, over others or not, have as many composite names as the newest
versions of their features have dimensions. -/
def Fits (s : Registry) (name : String) : Prop :=
  ∀ n, ReflTransGen s.Uses name n → ∀ p, s.newest? .particle n = some p → s.FitsFeature p

theorem fits_iff {p : Particle} (hp : s.newest? .particle name = some p) :
    s.Fits name ↔ s.FitsFeature p ∧ ∀ c ∈ p.references, s.Fits c := by
  have huses : ∀ c, s.Uses name c ↔ c ∈ p.references := by
    intro c
    rw [mem_references, Uses, hp]
    simp only [Option.some.injEq, exists_eq_left']
  constructor
  · exact fun h => ⟨h name .refl p hp, fun c hc n hn => h n (.head ((huses c).2 hc) hn)⟩
  · rintro ⟨hf, hc⟩ n hn q hq
    rcases ReflTransGen.cases_head hn with rfl | ⟨c, hu, hn⟩
    · rw [hp] at hq
      exact Option.some.inj hq ▸ hf
    · exact hc c ((huses c).1 hu) n hn q hq

/-- What a registry has of the records that were added again. -/
def Restored (s : Registry) (before : List Op) (t : Registry) : Prop :=
  ∀ k name (r : Record k), (t.table k).newest? name = some r ↔
    (∃ a, .add k a r ∈ before) ∧ r.name = name ∧ (k = .particle → s.Fits name)

theorem restored_empty (s : Registry) : s.Restored [] empty := by
  intro k name r
  refine ⟨fun h => ?_, fun ⟨⟨_, h⟩, _⟩ => nomatch h⟩
  cases (follows_empty.newest?_mem h).1.choose_spec

theorem newest?_of_add {u : Registry} (hu : t.add a r = (.ok (), u))
    (hfresh : (t.table k).newest? r.name = none) (name : String) (q : Record l) :
    (u.table l).newest? name = some q ↔
      (Op.add l a q = .add k a r ∧ q.name = name) ∨ (t.table l).newest? name = some q := by
  cases takes_of_add hu with
  | add hn hf hr ho =>
    by_cases hl : l = k
    · subst hl
      rw [table_setTable, Table.newest?_insert]
      by_cases hname : r.name = name
      · subst hname
        simp only [if_pos, Option.some.injEq, Op.add.injEq, heq_eq_eq, true_and, hfresh, or_false,
          reduceCtorEq]
        exact ⟨fun he => ⟨he.symm, he ▸ rfl⟩, fun he => he.1.symm⟩
      · rw [if_neg hname, or_iff_right]
        rintro ⟨he, hq⟩
        cases he
        exact hname hq
    · rw [table_setTable_of_ne _ _ hl, or_iff_right]
      rintro ⟨he, -⟩
      cases he
      exact hl rfl

namespace Turn

section

variable {done : List Op} (hturn : s.Turn place before r) (hs : s.Follows ops)
  (hsound : s.Sound) (ht : t.Follows done) (hr : s.Restored before t)

include hturn hs hr in
/-- The kinds that come before are there again. -/
theorem newest?_eq (hl : l.ctorIdx < k.ctorIdx) (name : String) :
    (t.table l).newest? name = (s.table l).newest? name := by
  have hkind : l ≠ .particle := by
    rintro rfl
    cases k <;> exact absurd hl (by decide)
  refine Option.ext fun q => (hr l name q).trans ⟨?_, fun hq => ?_⟩
  · rintro ⟨⟨a, ha⟩, rfl, -⟩
    exact hturn.newestBefore l a q ha
  · have hname : q.name = name := (hs.newest?_mem hq).2
    exact ⟨⟨_, hturn.kinds l q hl (by rwa [hname])⟩, hname, fun h => absurd h hkind⟩

include hturn hr in
theorem newest?_eq_none : (t.table k).newest? r.name = none := by
  refine Option.eq_none_iff_forall_ne_some.2 fun q hq => ?_
  obtain ⟨⟨b, hb⟩, hname, -⟩ := (hr k r.name q).1 hq
  exact hturn.fresh b q hb hname

include hturn hr in
theorem uses_of_uses {m n : String} (h : t.Uses m n) : s.Uses m n := by
  obtain ⟨p, hp, hn⟩ := h
  obtain ⟨q, hq, rfl⟩ := Option.map_eq_some_iff.1 hp
  obtain ⟨⟨a, ha⟩, rfl, -⟩ := (hr .particle m q).1 hq
  exact ⟨q.definition, by rw [newest?, hturn.newestBefore .particle a q ha, Option.map_some], hn⟩

include hs hsound ht hr in
theorem checkFeature_ok {r : Record .feature} (hturn : s.Turn place before r) :
    t.checkReferences r.definition = .ok () := by
  refine checkFeature_eq_ok.2 fun n hn => ?_
  rw [ht.has_eq, hturn.newest?_eq hs hr (by decide), ← hs.has_eq]
  exact (hsound.newest?_grounded hturn.newest).resolves n hn

include hs hsound ht hr in
theorem has_composite_iff {r : Record .particle} (hturn : s.Turn place before r)
    (hu : s.Uses r.name c) : t.has .particle c = true ↔ s.Fits c := by
  have hhas : s.has .particle c = true := by
    obtain ⟨p, hp, hc⟩ := hu
    rw [newest?, hturn.newest, Option.map_some, Option.some.injEq] at hp
    exact (hsound.newest?_grounded hturn.newest).resolves.2 c (mem_references.2 (hp ▸ hc))
  rw [hs.has_eq, Option.isSome_iff_exists] at hhas
  obtain ⟨q, hq⟩ := hhas
  obtain rfl := (hs.newest?_mem hq).2
  rw [ht.has_eq, Option.isSome_iff_exists]
  constructor
  · rintro ⟨q', hq'⟩
    exact ((hr _ _ _).1 hq').2.2 rfl
  · exact fun hf => ⟨q, (hr _ _ _).2 ⟨⟨_, hturn.composites q rfl hu hq⟩, rfl, fun _ => hf⟩⟩

include hs hsound ht hr in
theorem checkParticle_iff {r : Record .particle} (hturn : s.Turn place before r) :
    t.checkReferences r.definition = .ok () ↔ s.Fits r.name := by
  have hp : s.newest? .particle r.name = some r.definition := by
    rw [newest?, hturn.newest, Option.map_some]
  have huses : ∀ c ∈ Particle.references r.definition, s.Uses r.name c :=
    fun c hc => ⟨r.definition, hp, mem_references.1 hc⟩
  have hfeature : t.FitsFeature r.definition ↔ s.FitsFeature r.definition := by
    unfold FitsFeature newest?
    rw [hturn.newest?_eq hs hr (by decide)]
  refine checkParticle_eq_ok.trans ((fits_iff hp).trans ?_).symm
  rw [hfeature]
  refine and_congr_right fun _ => forall₂_congr fun c hc => ?_
  -- Of what the particle uses nothing leads back to it, as nothing did before.
  have hacyclic : ¬ ReflTransGen t.Uses c r.name := fun hback =>
    hsound.cycleFree r.name (.head' (huses c hc)
      (ReflTransGen.mono (fun _ _ h => hturn.uses_of_uses hr h) _ _ hback))
  rw [hturn.has_composite_iff hs hsound ht hr (huses c hc)]
  exact ⟨fun hf => ⟨hf, hacyclic⟩, And.left⟩

include hturn hs hsound ht hr in
/-- A record is taken back unless it is a particle that does not fit. -/
theorem added_iff (a : Address) :
    (∃ u, t.add a r = (.ok (), u)) ↔ (k = .particle → s.Fits r.name) := by
  have hgrounded := hsound.newest?_grounded hturn.newest
  have hadd : (∃ u, t.add a r = (.ok (), u)) ↔ t.checkReferences r.definition = .ok () := by
    rw [exists_add_iff]
    simp [hgrounded.named, ht.get?_eq_none (hturn.newest?_eq_none hr), hgrounded.owned]
  rw [hadd]
  cases k with
  | transformation | condition => exact ⟨fun _ h => (nomatch h), fun _ => rfl⟩
  | feature => exact ⟨fun _ h => (nomatch h), fun _ => hturn.checkFeature_ok hs hsound ht hr⟩
  | particle => exact (hturn.checkParticle_iff hs hsound ht hr).trans (by simp)

include hturn hs hsound ht hr in
theorem restored (a : Address) :
    s.Restored (before ++ [.add k a r]) (t.apply (.add k a r)) := by
  intro l name q
  have hmem : (∃ b, Op.add l b q ∈ before ++ [.add k a r]) ↔
      (∃ b, Op.add l b q ∈ before) ∨ Op.add l a q = .add k a r := by
    simp only [List.mem_append, List.mem_singleton, exists_or]
    refine or_congr_right ⟨fun ⟨b, hb⟩ => ?_, fun h => ⟨a, h⟩⟩
    cases hb
    rfl
  rw [hmem]
  rcases hp : t.perform (.add k a r) with ⟨e | _, u⟩
  case ok =>
    have hgood := (hturn.added_iff hs hsound ht hr a).1 ⟨u, hp⟩
    rw [apply_of_perform hp, newest?_of_add hp (hturn.newest?_eq_none hr), hr l name q]
    refine ⟨?_, fun ⟨hm, hname, hfits⟩ => hm.symm.imp (fun he => ⟨he, hname⟩) fun hm =>
      ⟨hm, hname, hfits⟩⟩
    rintro (⟨he, rfl⟩ | ⟨hm, hname, hfits⟩)
    · cases he
      exact ⟨.inr rfl, rfl, hgood⟩
    · exact ⟨.inl hm, hname, hfits⟩
  case error =>
    have hbad : ¬ (k = .particle → s.Fits r.name) := fun hgood => by
      obtain ⟨u', hu⟩ := (hturn.added_iff hs hsound ht hr a).2 hgood
      exact absurd (hp.symm.trans hu) (by simp)
    rw [apply_of_perform hp, perform_error hp, hr l name q]
    refine ⟨fun ⟨hm, h⟩ => ⟨.inl hm, h⟩, fun ⟨hm, hname, hfits⟩ => ⟨hm.resolve_right fun he => ?_,
      hname, hfits⟩⟩
    cases he
    exact hbad (hname ▸ hfits)

end

end Turn

theorem Follows.restored (h : s.Follows ops) (hsound : s.Sound)
    (hp : before <+: s.replay place) : s.Restored before (run before) := by
  induction before using List.reverseRecOn with
  | nil => exact restored_empty s
  | append_singleton before op ih =>
    obtain ⟨k, r, rfl, hturn⟩ := h.turn hsound.cycleFree hp
    rw [run_concat]
    exact hturn.restored h hsound (run_follows before) (ih ((List.prefix_append _ _).trans hp)) _

/-- After additions alone, a restart leaves no particle out of its order, and adds the newest
record of every name again. All are taken back but particles that do not fit the newest versions
of their features, or use some that do not; of these there is no version then. Of every other name
the newest record is the one from before. -/
theorem restart_restores (ops : List Op) (h : ∀ op ∈ ops, op.isAddition = true)
    (place : Kind → String → Address) :
    let s := run ops
    let again := s.replay place
    (∀ k, s.blocked k = []) ∧
    (∀ k a (r : Record k), .add k a r ∈ again ↔
      a = place k r.name ∧ (s.table k).newest? r.name = some r) ∧
    (∀ before k a (r : Record k), before ++ [.add k a r] <+: again →
      ((∃ t, (run before).add a r = (.ok (), t)) ↔ (k = .particle → s.Fits r.name))) ∧
    (∀ k name (r : Record k), ((run again).table k).newest? name = some r ↔
      (s.table k).newest? name = some r ∧ (k = .particle → s.Fits name)) ∧
    ((∀ name, s.Fits name) →
      ∀ k name, ((run again).table k).newest? name = (s.table k).newest? name) := by
  intro s again
  have hs : s.Follows (log ops) := run_follows ops
  have hsound : s.Sound := run_sound h
  have hadded : ∀ k a (r : Record k), .add k a r ∈ again ↔
      a = place k r.name ∧ (s.table k).newest? r.name = some r :=
    fun k a r => mem_replay_add.trans (and_congr_right fun _ => hs.mem_stack hsound.cycleFree)
  have hnewest : ∀ k name (r : Record k), ((run again).table k).newest? name = some r ↔
      (s.table k).newest? name = some r ∧ (k = .particle → s.Fits name) := by
    intro k name r
    rw [hs.restored hsound (List.prefix_refl _) k name r, ← and_assoc]
    refine and_congr_left fun _ => ⟨?_, fun hr => ?_⟩
    · rintro ⟨⟨a, ha⟩, rfl⟩
      exact ((hadded k a r).1 ha).2
    · obtain rfl := (hs.newest?_mem hr).2
      exact ⟨⟨_, (hadded k _ r).2 ⟨rfl, hr⟩⟩, rfl⟩
  refine ⟨blocked_eq_nil hsound.cycleFree, hadded, fun before k a r hp => ?_, hnewest, fun hf k name =>
    Option.ext fun r => (hnewest k name r).trans (and_iff_left fun _ => hf name)⟩
  obtain ⟨l, q, he, hturn⟩ := hs.turn hsound.cycleFree hp
  cases he
  exact hturn.added_iff hs hsound (run_follows before)
    (hs.restored hsound ((List.prefix_append _ _).trans hp)) _

/-! ## A feature that changes its shape -/

/-- A feature without dimensions, a particle of it, and then a dimension for the feature. -/
def reshaping : List Op :=
  [.add .feature ⟨1, 0, 0⟩ ⟨⟨"Wave", []⟩, always.owner⟩,
    .add .particle ⟨2, 0, 0⟩ ⟨⟨"P", "Wave", [], "", []⟩, always.owner⟩,
    .add .feature ⟨3, 0, 0⟩ wave]

/-- An address for each kind and first letter. -/
def byLetter (k : Kind) (name : String) : Address :=
  ⟨k.ctorIdx.toUInt64, (name.toList.headD ' ').val.toUInt64, 0⟩

/-- All of `reshaping` takes effect, and a restart loses the particle. -/
theorem restart_loses_reshaped :
    log reshaping = reshaping ∧ (run reshaping).newest? .particle "P" ≠ none ∧
    ((run reshaping).replay byLetter).length = 2 ∧
    (run ((run reshaping).replay byLetter)).newest? .particle "P" = none := by
  refine ⟨by cbv, ?_, by cbv, by cbv⟩
  cbv
  exact Option.some_ne_none _

/-- Composites whose features keep their shape. -/
def layered : List Op :=
  [.add .feature ⟨1, 0, 0⟩ wave, .add .particle ⟨1, 0, 0⟩ (leaf "B" ""),
    .add .particle ⟨2, 0, 0⟩ (leaf "A" "B")]

theorem restart_restores_layered :
    (∀ op ∈ layered, op.isAddition = true) ∧
    ((run ((run layered).replay byLetter)).table .particle).newest? "A" = some (leaf "A" "B") := by
  have hadds : ∀ op ∈ layered, op.isAddition = true := by decide
  have hwave : ∀ p : Particle, p.feature = "Wave" → p.compositeNames.length = 1 →
      (run layered).FitsFeature p := fun p hf hl => ⟨wave.definition, by rw [hf]; cbv, hl⟩
  have hb : (run layered).Fits "B" :=
    (fits_iff (p := (leaf "B" "").definition) (by cbv)).2 ⟨hwave _ rfl rfl, by simp [Particle.references, leaf]⟩
  have ha : (run layered).Fits "A" :=
    (fits_iff (p := (leaf "A" "B").definition) (by cbv)).2 ⟨hwave _ rfl rfl, by
      rintro c hc
      obtain rfl : c = "B" := by simpa [Particle.references, leaf] using hc
      exact hb⟩
  obtain ⟨-, -, -, hnewest, -⟩ := restart_restores layered hadds byLetter
  exact ⟨hadds, (hnewest .particle "A" (leaf "A" "B")).2 ⟨by cbv, fun _ => ha⟩⟩

end ParticleChain.Registry
