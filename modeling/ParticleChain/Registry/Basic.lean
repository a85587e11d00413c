import ParticleChain.Composite.Graph
import ParticleChain.Registry.Table

/-!
# The registry

A table for each kind of artifact. A record is added only if what it refers to is there: the
transformations of a feature, and the feature and composites of a particle, which must fit the
feature's dimensions and must not lead back to the particle.
-/

namespace ParticleChain

open Artifact (Kind Definition Record Feature Particle)

structure Registry where
  transformations : Registry.Table .transformation
  conditions : Registry.Table .condition
  features : Registry.Table .feature
  particles : Registry.Table .particle

namespace Registry

def empty : Registry := ⟨∅, ∅, ∅, ∅⟩

def table (s : Registry) : (k : Kind) → Table k
  | .transformation => s.transformations
  | .condition => s.conditions
  | .feature => s.features
  | .particle => s.particles

def setTable (s : Registry) : (k : Kind) → Table k → Registry
  | .transformation, t => { s with transformations := t }
  | .condition, t => { s with conditions := t }
  | .feature, t => { s with features := t }
  | .particle, t => { s with particles := t }

@[simp] theorem table_setTable (s : Registry) (k : Kind) (t : Table k) :
    (s.setTable k t).table k = t := by cases k <;> rfl

theorem table_setTable_of_ne (s : Registry) {k l : Kind} (t : Table k) (h : l ≠ k) :
    (s.setTable k t).table l = s.table l := by cases k <;> cases l <;> first | rfl | contradiction

/-! ## Questions -/

section

variable (s : Registry) (k : Kind)

def get? (name : String) (address : Address) : Option (Definition k) :=
  ((s.table k).get? name address).map Record.definition

def newest? (name : String) : Option (Definition k) :=
  ((s.table k).newest? name).map Record.definition

def newestAddress? (name : String) : Option Address := (s.table k).newestAddress? name

/-- The names an owner published, in order. -/
def ownedBy (owner : Address) : List String := ((s.table k).ownedBy owner).toList

def has (name : String) : Bool := (s.table k).has name

end

/-! ## Additions -/

inductive Rejection where
  | emptyName (k : Kind)
  | duplicate (k : Kind) (name : String) (address : Address)
  | badOwner (text : String)
  | missingTransformation (feature transformation : String)
  | missingFeature (particle feature : String)
  | dimensionMismatch (particle : String) (expected actual : Nat)
  | missingComposite (particle composite : String)
  | compositeCycle (particle composite : String)
  deriving DecidableEq

def Rejection.message : Rejection → String
  | emptyName k =>
    let label := k.label
    s!"{label} name is empty"
  | duplicate k name address =>
    let label := k.label
    let place := address.render
    s!"{label} `{name}` already registered at {place}"
  | badOwner text => s!"invalid owner address `{text}`"
  | missingTransformation feature transformation =>
    s!"cannot find transformation `{transformation}` used in feature `{feature}`"
  | missingFeature particle feature =>
    s!"cannot find feature `{feature}` used in particle `{particle}`"
  | dimensionMismatch particle expected actual =>
    s!"particle `{particle}` has {actual} composites, feature has {expected} dimensions"
  | missingComposite particle composite =>
    s!"cannot find particle `{composite}` used in particle `{particle}`"
  | compositeCycle particle composite =>
    s!"particle `{particle}` reaches itself through composite `{composite}`"

/-- The newest version of each particle, with the particles it refers to. -/
def compositeGraph (s : Registry) : Composite.Graph :=
  s.particles.histories.filterMap fun name _ =>
    (s.particles.newest? name).map fun r => Particle.references r.definition

def checkFeature (s : Registry) (f : Feature) : Except Rejection Unit :=
  match f.transformations.find? fun t => !s.has .transformation t with
  | some t => .error (.missingTransformation f.name t)
  | none => .ok ()

/-- A composite must be registered and must not lead to the particle. -/
def checkComposite (s : Registry) (p : Particle) (composite : String) : Except Rejection Unit :=
  if !s.has .particle composite then .error (.missingComposite p.name composite)
  else if s.compositeGraph.reaches p.name [composite] then .error (.compositeCycle p.name composite)
  else .ok ()

def checkParticle (s : Registry) (p : Particle) : Except Rejection Unit :=
  match s.newest? .feature p.feature with
  | none => .error (.missingFeature p.name p.feature)
  | some f =>
    let expected := (Feature.dimensions f).length
    let actual := p.compositeNames.length
    if actual ≠ expected then .error (.dimensionMismatch p.name expected actual)
    else p.references.forM (s.checkComposite p)

def checkReferences (s : Registry) : {k : Kind} → Definition k → Except Rejection Unit
  | .transformation, _ | .condition, _ => .ok ()
  | .feature, f => s.checkFeature f
  | .particle, p => s.checkParticle p

/-- Adds a record at an address, or says why not; and the registry after that. -/
def add {k : Kind} (s : Registry) (address : Address) (r : Record k) :
    Except Rejection Unit × Registry :=
  if r.name.isEmpty then (.error (.emptyName k), s)
  else if ((s.table k).get? r.name address).isSome then (.error (.duplicate k r.name address), s)
  else match s.checkReferences r.definition with
    | .error e => (.error e, s)
    | .ok () =>
      match Address.parse r.owner with
      | .error _ => (.error (.badOwner r.owner), s)
      | .ok owner => (.ok (), s.setTable k ((s.table k).insert address owner r))

/-- Undoes the addition of a record. -/
def remove (s : Registry) (k : Kind) (name : String) (address : Address) : Registry :=
  s.setTable k ((s.table k).remove name address)

end Registry

end ParticleChain
