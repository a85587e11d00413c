import ParticleChain.Artifact.Definition
import ParticleChain.Json.Member
import ParticleChain.Json.Parse

/-!
# The written form of records

Definitions and records as JSON; lists may be left out when they are empty.
-/

namespace ParticleChain

namespace Address

/-- An address is written without `0x`, but may be read with it. -/
def toJson (a : Address) : Json := .ofString a.digits

def ofJson? (v : Json) : Option Address := do (parse (← v.toText?)).toOption

end Address

namespace Artifact

open Json (ofString ofFields ofInt)

def ofUInt32s (l : List UInt32) : Json := .array (l.map fun n => ofInt n.toNat)

def ofInt32s (l : List Int32) : Json := .array (l.map fun n => ofInt n.toInt)

namespace Transformation

def toJson (t : Transformation) : Json :=
  ofFields [("name", ofString t.name), ("sol_src", ofString t.body)]

def ofJson? (v : Json) : Option Transformation := do
  let [name, body] ← v.members? ["name", "sol_src"] | none
  return ⟨← (← name).toText?, ← (← body).toText?⟩

end Transformation

namespace Condition

def toJson (c : Condition) : Json :=
  ofFields [("name", ofString c.name), ("sol_src", ofString c.body)]

def ofJson? (v : Json) : Option Condition := do
  let [name, body] ← v.members? ["name", "sol_src"] | none
  return ⟨← (← name).toText?, ← (← body).toText?⟩

end Condition

namespace Application

def toJson (a : Application) : Json :=
  ofFields [("name", ofString a.transformation), ("args", ofUInt32s a.args)]

def ofJson? (v : Json) : Option Application := do
  let [name, args] ← v.members? ["name", "args"] | none
  return ⟨← (← name).toText?, ← Json.orEmpty (Json.toList? Json.toUInt32?) args⟩

end Application

namespace Dimension

def toJson (d : Dimension) : Json :=
  ofFields [("transformations", .array (d.applications.map Application.toJson))]

def ofJson? (v : Json) : Option Dimension := do
  let [applications] ← v.members? ["transformations"] | none
  return ⟨← Json.orEmpty (Json.toList? Application.ofJson?) applications⟩

end Dimension

namespace Feature

def toJson (f : Feature) : Json :=
  ofFields [("name", ofString f.name), ("dimensions", .array (f.dimensions.map Dimension.toJson))]

def ofJson? (v : Json) : Option Feature := do
  let [name, dimensions] ← v.members? ["name", "dimensions"] | none
  return ⟨← (← name).toText?, ← Json.orEmpty (Json.toList? Dimension.ofJson?) dimensions⟩

end Feature

namespace Particle

def toJson (p : Particle) : Json :=
  ofFields [
    ("name", ofString p.name),
    ("feature_name", ofString p.feature),
    ("composite_names", .array (p.compositeNames.map ofString)),
    ("condition_name", ofString p.condition),
    ("condition_args", ofInt32s p.conditionArgs)]

def ofJson? (v : Json) : Option Particle := do
  let [name, feature, composites, condition, args] ← v.members?
    ["name", "feature_name", "composite_names", "condition_name", "condition_args"] | none
  return {
    name := ← (← name).toText?
    feature := ← (← feature).toText?
    compositeNames := ← Json.orEmpty (Json.toList? Json.toText?) composites
    condition := ← (← condition).toText?
    conditionArgs := ← Json.orEmpty (Json.toList? Json.toInt32?) args }

end Particle

namespace Definition

def toJson : {k : Kind} → Definition k → Json
  | .transformation, d => Transformation.toJson d
  | .condition, d => Condition.toJson d
  | .feature, d => Feature.toJson d
  | .particle, d => Particle.toJson d

def ofJson? : {k : Kind} → Json → Option (Definition k)
  | .transformation, v => Transformation.ofJson? v
  | .condition, v => Condition.ofJson? v
  | .feature, v => Feature.ofJson? v
  | .particle, v => Particle.ofJson? v

end Definition

namespace Record

variable {k : Kind}

/-- The definition stands under the label of its kind. -/
def toJson (r : Record k) : Json :=
  ofFields [(k.label, r.definition.toJson), ("owner", ofString r.owner)]

def ofJson? (v : Json) : Option (Record k) := do
  let [definition, owner] ← v.members? [k.label, "owner"] | none
  return ⟨← Definition.ofJson? (← definition), ← (← owner).toText?⟩

/-- The content of a record file. -/
def render (r : Record k) : String := r.toJson.pretty

/-- The record a file holds. -/
def parse? (text : String) : Option (Record k) := (Json.parse? text).bind ofJson?

end Record

end Artifact

end ParticleChain
