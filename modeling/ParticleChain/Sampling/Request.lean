import ParticleChain.Artifact.Format
import ParticleChain.Sampling.Samples

/-!
# Sampling requests

What is asked of the runner contract, and the written form of requests and samples.
-/

namespace ParticleChain.Sampling

open Json (ofString ofFields ofInt)

/-- Where one instance of the generator starts. -/
structure Instance where
  startPoint : UInt32
  shift : UInt32
  deriving DecidableEq, Repr

structure Request where
  particle : String
  count : UInt32
  instances : List Instance
  deriving DecidableEq, Repr

def Request.pairs (q : Request) : List (UInt32 × UInt32) :=
  q.instances.map fun i => (i.startPoint, i.shift)

namespace Instance

def toJson (i : Instance) : Json :=
  ofFields [("start_point", ofInt i.startPoint.toNat),
    ("transformation_shift", ofInt i.shift.toNat)]

def ofJson? (v : Json) : Option Instance := do
  let [start, shift] ← v.members? ["start_point", "transformation_shift"] | none
  return ⟨← (← start).toUInt32?, ← (← shift).toUInt32?⟩

end Instance

namespace Request

def toJson (q : Request) : Json :=
  ofFields [
    ("particle_name", ofString q.particle),
    ("samples_count", ofInt q.count.toNat),
    ("running_instances", .array (q.instances.map Instance.toJson))]

def ofJson? (v : Json) : Option Request := do
  let [particle, count, instances] ← v.members?
    ["particle_name", "samples_count", "running_instances"] | none
  return ⟨← (← particle).toText?, ← (← count).toUInt32?,
    ← Json.orEmpty (Json.toList? Instance.ofJson?) instances⟩

/-- The request a file holds. -/
def parse? (text : String) : Option Request := (Json.parse? text).bind ofJson?

end Request

namespace Samples

def toJson (s : Samples) : Json :=
  ofFields [("path", ofString s.path), ("data", Artifact.ofUInt32s s.data)]

def ofJson? (v : Json) : Option Samples := do
  let [path, data] ← v.members? ["path", "data"] | none
  return ⟨← (← path).toText?, ← Json.toList? Json.toUInt32? (← data)⟩

end Samples

/-- The written form of a list of samples. -/
def renderAll (l : List Samples) : String := (Json.array (l.map Samples.toJson)).pretty

end ParticleChain.Sampling
