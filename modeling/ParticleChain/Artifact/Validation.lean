import ParticleChain.Artifact.Definition

/-!
# Validation

The names in a definition end up in contract source and in file names, so they must be
identifiers, and a body must not be empty.
-/

namespace ParticleChain.Artifact

inductive Invalid where
  | emptyName (role : String)
  | badName (role name : String)
  | emptyBody (k : Kind)
  deriving DecidableEq, Repr

def Invalid.message : Invalid → String
  | emptyName role => s!"{role} is empty"
  | badName role name => s!"{role} `{name}` is not a valid identifier"
  | emptyBody k =>
    let label := k.label
    s!"{label} source is empty"

def requireName (role name : String) : Except Invalid Unit :=
  if name.isEmpty then .error (.emptyName role)
  else if isIdentifier name then .ok ()
  else .error (.badName role name)

def requireBody (k : Kind) (body : String) : Except Invalid Unit :=
  if body.isEmpty then .error (.emptyBody k) else .ok ()

/-- The name of a condition may be left out of a particle. -/
def Definition.validate : {k : Kind} → Definition k → Except Invalid Unit
  | .transformation, d => do
    requireName "transformation name" (Transformation.name d)
    requireBody .transformation (Transformation.body d)
  | .condition, d => do
    requireName "condition name" (Condition.name d)
    requireBody .condition (Condition.body d)
  | .feature, d => do
    requireName "feature name" (Feature.name d)
    (Feature.transformations d).forM (requireName "transformation name")
  | .particle, d => do
    requireName "particle name" (Particle.name d)
    requireName "feature name" (Particle.feature d)
    unless (Particle.condition d).isEmpty do requireName "condition name" (Particle.condition d)
    (Particle.references d).forM (requireName "composite name")

end ParticleChain.Artifact
