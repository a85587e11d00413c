import ParticleChain.Proofs.Registry.Composites

/-!
# References in a registry

What a record refers to is checked once, when the record is added. While nothing is removed, a
name that has a record keeps one, though its newest may be another by then. So in a registry that
comes about by additions alone each record could be added again as far as names are concerned
(`Grounded`), and no particle uses itself.
-/

namespace ParticleChain.Registry

open Artifact (Kind Record Definition Feature Particle)
open Relation

variable {s t : Registry} {k : Kind} {name : String} {a : Address} {r : Record k} {ops : List Op}

/-! ## Names that are registered -/

theorem has_iff : s.has k name = true ↔ ∃ a r, (s.table k).get? name a = some r := by
  unfold Registry.has Table.has Table.get?
  rw [Bool.not_eq_true', Std.TreeMap.isEmpty_eq_false_iff_exists_mem]
  exact exists_congr fun a =>
    Std.TreeMap.mem_iff_isSome_getElem?.trans Option.isSome_iff_exists

/-- A name is registered just if it has a newest record. -/
theorem Follows.has_eq (h : s.Follows ops) (k : Kind) (name : String) :
    s.has k name = ((s.table k).newest? name).isSome := by
  have hl := h.lists k name
  rw [Registry.has, hl.has_eq, hl.newest?, Option.isSome_map]
  cases standing k name ops <;> simp

/-- A name without a newest record has none. -/
theorem Follows.get?_eq_none (h : s.Follows ops) (hn : (s.table k).newest? name = none)
    (a : Address) : (s.table k).get? name a = none := by
  have hno : ¬ s.has k name = true := by
    rw [h.has_eq, hn]
    exact Bool.false_ne_true
  exact Option.eq_none_iff_forall_ne_some.2 fun r hr => hno (has_iff.2 ⟨a, r, hr⟩)

/-- A newest record was added under its name. -/
theorem Follows.newest?_mem (h : s.Follows ops) (hr : (s.table k).newest? name = some r) :
    (∃ a, .add k a r ∈ ops) ∧ r.name = name := by
  obtain ⟨a, -, ha⟩ := Option.bind_eq_some_iff.1 hr
  exact (h.mem ha).imp_left fun hm => ⟨a, hm⟩

/-! ## Additions -/

def Op.isAddition : Op → Bool
  | .add .. => true
  | .remove .. => false

/-- What the definition refers to is registered. -/
def Resolves (s : Registry) : {k : Kind} → Definition k → Prop
  | .transformation, _ | .condition, _ => True
  | .feature, f => ∀ t ∈ Feature.transformations f, s.has .transformation t = true
  | .particle, p => s.has .feature (Particle.feature p) = true ∧
      ∀ c ∈ Particle.references p, s.has .particle c = true

/-- A record with a name and an owner, and with nothing missing that it refers to. -/
structure Grounded (s : Registry) {k : Kind} (r : Record k) : Prop where
  named : r.name.isEmpty = false
  owned : ∃ owner, Address.parse r.owner = .ok owner
  resolves : s.Resolves r.definition

theorem Resolves.mono (h : ∀ k name, s.has k name = true → t.has k name = true)
    {d : Definition k} (hd : s.Resolves d) : t.Resolves d := by
  cases k with
  | transformation | condition => trivial
  | feature => exact fun n hn => h .transformation n (hd n hn)
  | particle => exact ⟨h .feature _ hd.1, fun c hc => h .particle c (hd.2 c hc)⟩

theorem resolves_of_checked {d : Definition k} (h : s.checkReferences d = .ok ()) :
    s.Resolves d := by
  cases k with
  | transformation | condition => trivial
  | feature => exact checkFeature_eq_ok.1 h
  | particle =>
    obtain ⟨⟨f, hf, -⟩, hc⟩ := checkParticle_eq_ok.1 h
    obtain ⟨q, hq, -⟩ := Option.map_eq_some_iff.1 hf
    obtain ⟨b, -, hb⟩ := Option.bind_eq_some_iff.1 hq
    exact ⟨has_iff.2 ⟨b, q, hb⟩, fun c hm => (hc c hm).1⟩

theorem Takes.get?_add (h : s.Takes (.add k a r) t) (l : Kind) (name : String) (b : Address)
    (q : Record l) : (t.table l).get? name b = some q →
      (s.table l).get? name b = some q ∨ ∃ e : l = k, e ▸ q = r := by
  cases h with
  | add hn hf hr ho =>
    by_cases hl : l = k
    · subst hl
      rw [table_setTable, Table.get?_insert]
      split
      · exact fun h => .inr ⟨rfl, (Option.some.inj h).symm⟩
      · exact .inl
    · rw [table_setTable_of_ne _ _ hl]
      exact .inl

/-- An addition leaves the names registered that are. -/
theorem Takes.has_mono (h : s.Takes (.add k a r) t) (l : Kind) (name : String)
    (hs : s.has l name = true) : t.has l name = true := by
  obtain ⟨b, q, hq⟩ := has_iff.1 hs
  cases h with
  | add hn hf hr ho =>
    by_cases hl : l = k
    · subst hl
      refine has_iff.2 ⟨b, ?_⟩
      rw [table_setTable, Table.get?_insert]
      split
      · exact ⟨r, rfl⟩
      · exact ⟨q, hq⟩
    · exact has_iff.2 ⟨b, q, by rw [table_setTable_of_ne _ _ hl, hq]⟩

/-- Every record of every name can be added again as far as names are concerned, and no particle
uses itself. -/
structure Sound (s : Registry) : Prop where
  grounded (k : Kind) (name : String) (a : Address) (r : Record k) :
    (s.table k).get? name a = some r → s.Grounded r
  cycleFree : s.CycleFree

theorem Sound.add (hs : s.Sound) (h : s.Takes (.add k a r) t) : t.Sound where
  grounded l name b q hq := by
    have hmono := fun k name => h.has_mono k name
    rcases h.get?_add l name b q hq with hold | ⟨rfl, rfl⟩
    · have hg := hs.grounded l name b q hold
      exact ⟨hg.named, hg.owned, hg.resolves.mono hmono⟩
    · cases h with
      | add hn hf hr ho => exact ⟨hn, ⟨_, ho⟩, (resolves_of_checked hr).mono hmono⟩
  cycleFree := h.cycleFree hs.cycleFree fun _ _ he => nomatch he

/-- Additions alone keep a registry sound. -/
theorem run_sound (h : ∀ op ∈ ops, op.isAddition = true) : (run ops).Sound := by
  have hall : (∀ op ∈ log ops, op.isAddition = true) → (run ops).Sound := by
    refine run_keeps (P := fun s l => (∀ op ∈ l, op.isAddition = true) → s.Sound)
      (fun _ => ?start) (fun {s t l op} hs ht hl => ?step) ops
    case start =>
      refine ⟨fun k name a r hr => ?_, cycleFree_empty⟩
      cases (follows_empty.mem hr).1
    case step =>
      have hsound := hs fun op hop => hl op (List.mem_append_left _ hop)
      cases op with
      | add => exact hsound.add ht
      | remove => cases hl _ List.mem_concat_self
  exact hall fun op hop => h op ((log_sublist ops).subset hop)

theorem Sound.newest?_grounded (hs : s.Sound) (h : (s.table k).newest? name = some r) :
    s.Grounded r := by
  obtain ⟨a, -, ha⟩ := Option.bind_eq_some_iff.1 h
  exact hs.grounded k name a r ha

end ParticleChain.Registry
