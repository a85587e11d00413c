import ParticleChain.Artifact.Kind

/-!
# Definitions and records

A definition is what an author writes down; a record is a definition with its owner. The owner
stays text until it is needed: a badly written one is an error of its own.
-/

namespace ParticleChain.Artifact

/-- The body of a function of a number `x` and arguments `args[0]`, `args[1]`, … -/
structure Transformation where
  name : String
  body : String
  deriving DecidableEq, Repr

/-- The body of a test of its arguments. -/
structure Condition where
  name : String
  body : String
  deriving DecidableEq, Repr

/-- A transformation by name, with the arguments it is given. -/
structure Application where
  transformation : String
  args : List UInt32
  deriving DecidableEq, Repr

/-- The transformations applied along one axis, in order. -/
structure Dimension where
  applications : List Application
  deriving DecidableEq, Repr

structure Feature where
  name : String
  dimensions : List Dimension
  deriving DecidableEq, Repr

structure Particle where
  name : String
  feature : String
  /-- For each dimension of the feature the particle it is left to, or no name. -/
  compositeNames : List String
  condition : String
  conditionArgs : List Int32
  deriving DecidableEq, Repr

/-- The transformations a feature uses, as often as it does. -/
def Feature.transformations (f : Feature) : List String :=
  f.dimensions.flatMap fun d => d.applications.map Application.transformation

/-- The dimensions left to other particles. -/
def Particle.composites (p : Particle) : List (UInt32 × String) :=
  (p.compositeNames.zipIdx.filter fun (name, _) => !name.isEmpty).map fun (name, i) =>
    (i.toUInt32, name)

/-- The particles that dimensions are left to. -/
def Particle.references (p : Particle) : List String := p.compositeNames.filter (!·.isEmpty)

theorem Particle.composites_map_snd (p : Particle) : p.composites.map Prod.snd = p.references := by
  simp only [composites, references, List.map_map]
  generalize p.compositeNames = l, (0 : Nat) = i
  induction l generalizing i with
  | nil => rfl
  | cons a l ih =>
    by_cases h : a.isEmpty
    · simpa [List.zipIdx_cons, h] using ih (i + 1)
    · simpa [List.zipIdx_cons, h] using ih (i + 1)

abbrev Definition : Kind → Type
  | .transformation => Transformation
  | .condition => Condition
  | .feature => Feature
  | .particle => Particle

instance {k : Kind} : DecidableEq (Definition k) :=
  match k with
  | .transformation => inferInstanceAs (DecidableEq Transformation)
  | .condition => inferInstanceAs (DecidableEq Condition)
  | .feature => inferInstanceAs (DecidableEq Feature)
  | .particle => inferInstanceAs (DecidableEq Particle)

def Definition.name : {k : Kind} → Definition k → String
  | .transformation, d => Transformation.name d
  | .condition, d => Condition.name d
  | .feature, d => Feature.name d
  | .particle, d => Particle.name d

structure Record (k : Kind) where
  definition : Definition k
  owner : String
  deriving DecidableEq

def Record.name {k : Kind} (r : Record k) : String := r.definition.name

/-- A letter, an underscore or a dollar sign. -/
def startsName (c : Char) : Bool := c.isAlpha || c == '_' || c == '$'

/-- What can be a name in contract source; the letters and digits are those of ASCII. -/
def isIdentifier (text : String) : Bool :=
  match text.toList with
  | [] => false
  | c :: r => startsName c && r.all fun c => startsName c || c.isDigit

end ParticleChain.Artifact
