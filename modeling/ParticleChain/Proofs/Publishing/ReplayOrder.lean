import ParticleChain.Proofs.Composite.Order
import ParticleChain.Publishing.Replay

/-!
# The order of stored particles

Stored particles are replayed with composites first. What has no place in such an order is what
leads to a cycle, and nothing else (`particleOrder_sorts`): neither a name that no record is stored
under, nor a particle that others on a cycle refer to.
-/

namespace ParticleChain.Publishing

open Artifact (Kind Record Particle)
open Composite Relation

variable {records : Std.TreeMap String (Record .particle)} {a b : String}

/-- The record under one name leaves a dimension to the one under another. -/
def RefersTo (records : Std.TreeMap String (Record .particle)) (a b : String) : Prop :=
  ∃ r, records[a]? = some r ∧ b ∈ Particle.references r.definition ∧ b ∈ records

/-- The graph that is put in order. -/
def recordGraph (records : Std.TreeMap String (Record .particle)) : Graph :=
  records.map fun _ r => Particle.references r.definition

theorem mem_recordGraph : a ∈ recordGraph records ↔ a ∈ records := Std.TreeMap.mem_map

theorem refers_recordGraph : (recordGraph records).Refers a b ↔
    ∃ r, records[a]? = some r ∧ b ∈ Particle.references r.definition := by
  unfold Graph.Refers recordGraph
  rw [Std.TreeMap.getElem?_map]
  constructor
  · rintro ⟨next, hn, hb⟩
    obtain ⟨r, hr, rfl⟩ := Option.map_eq_some_iff.1 hn
    exact ⟨r, hr, hb⟩
  · rintro ⟨r, hr, hb⟩
    exact ⟨_, Option.map_eq_some_iff.2 ⟨r, hr, rfl⟩, hb⟩

theorem links_recordGraph : (recordGraph records).Links = RefersTo records := by
  funext a b
  refine propext ?_
  rw [Graph.Links, refers_recordGraph, mem_recordGraph, RefersTo]
  exact ⟨fun ⟨⟨r, hr, hb⟩, hm⟩ => ⟨r, hr, hb, hm⟩, fun ⟨r, hr, hb, hm⟩ => ⟨⟨r, hr, hb⟩, hm⟩⟩

/-- Every record is in order or has no place, and not both. What a particle in order leaves its
dimensions to comes before it, as far as there are records of it. The particles without a place are
those from which references lead to one that leads back to itself. -/
theorem particleOrder_sorts (records : Std.TreeMap String (Record .particle)) :
    let ordered := (particleOrder records).1
    let blocked := (particleOrder records).2
    (ordered ++ blocked).Nodup ∧ (∀ name, name ∈ ordered ++ blocked ↔ name ∈ records) ∧
    (∀ before name after r, ordered = before ++ name :: after → records[name]? = some r →
      ∀ c ∈ Particle.references r.definition, c ∈ records → c ∈ before) ∧
    ∀ name, name ∈ blocked ↔
      ∃ m, ReflTransGen (RefersTo records) name m ∧ TransGen (RefersTo records) m m := by
  intro ordered blocked
  refine ⟨Graph.nodup_order _, fun name => ?members, ?sorted, fun name => ?cycles⟩
  case members => exact Graph.mem_order_iff.trans mem_recordGraph
  case sorted =>
    intro before name after r hsplit hr c hc hm
    exact Graph.mem_before_of_refers hsplit (refers_recordGraph.2 ⟨r, hr, hc⟩)
      (mem_recordGraph.2 hm)
  case cycles =>
    rw [← links_recordGraph]
    exact Graph.mem_order_snd_iff

/-- A particle with one dimension, which is left to a composite or to none. -/
def branch (name composite : String) : Record .particle := ⟨⟨name, "Wave", [composite], "", []⟩, ""⟩

/-- Two particles that refer to each other, one that refers to them, and two in a row. -/
def tangled : Std.TreeMap String (Record .particle) :=
  .ofList [("A", branch "A" "B"), ("B", branch "B" "A"), ("C", branch "C" "A"),
    ("D", branch "D" ""), ("E", branch "E" "D")]

theorem particleOrder_sorts_tangled : "C" ∈ (particleOrder tangled).2 ∧
    "C" ∉ (particleOrder tangled).1 ∧
    ∀ before after, (particleOrder tangled).1 = before ++ "E" :: after → "D" ∈ before := by
  have hab : RefersTo tangled "A" "B" := ⟨branch "A" "B", by decide +kernel⟩
  have hba : RefersTo tangled "B" "A" := ⟨branch "B" "A", by decide +kernel⟩
  have hca : RefersTo tangled "C" "A" := ⟨branch "C" "A", by decide +kernel⟩
  obtain ⟨hnodup, -, hbefore, hblocked⟩ := particleOrder_sorts tangled
  have hc : "C" ∈ (particleOrder tangled).2 :=
    (hblocked "C").2 ⟨"A", .single hca, .tail (.single hab) hba⟩
  have hdisjoint := (List.nodup_append.1 hnodup).2.2
  refine ⟨hc, fun h => hdisjoint "C" h "C" hc rfl, fun before after hsplit => ?_⟩
  exact hbefore before "E" after (branch "E" "D") hsplit (by decide +kernel) "D" (by decide)
    (by decide +kernel)

end ParticleChain.Publishing
