import ParticleChain.Revert

/-!
# Kinds of artifacts

A feature is built from transformations, and a particle from a feature, a condition and other
particles; the order of the kinds is the order in which they can be published.
-/

namespace ParticleChain.Artifact

inductive Kind where
  | transformation
  | condition
  | feature
  | particle
  deriving DecidableEq, Repr

namespace Kind

/-- What a kind depends on comes before it. -/
def all : List Kind := [transformation, condition, feature, particle]

def label : Kind → String
  | transformation => "transformation"
  | condition => "condition"
  | feature => "feature"
  | particle => "particle"

/-- The name of the directory with the records of a kind. -/
def plural : Kind → String
  | transformation => "transformations"
  | condition => "conditions"
  | feature => "features"
  | particle => "particles"

/-- Why a contract reverts whose name the registry contract already has. -/
def alreadyRegistered : Kind → Revert.Kind
  | transformation => .transformationAlreadyRegistered
  | condition => .conditionAlreadyRegistered
  | feature => .featureAlreadyRegistered
  | particle => .particleAlreadyRegistered

/-- A kind by its label or plural. -/
def parse? (text : String) : Option Kind :=
  all.find? fun k => k.label == text || k.plural == text

instance : Ord Kind := ⟨fun a b => compare a.ctorIdx b.ctorIdx⟩

theorem mem_all (k : Kind) : k ∈ all := by cases k <;> decide

end Kind

end ParticleChain.Artifact
