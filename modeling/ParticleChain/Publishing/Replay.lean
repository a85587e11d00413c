import ParticleChain.Publishing.Pipeline

/-!
# Replaying stored records

At the start the stored records are published again, what others depend on first. Every record
is tried; the failures are counted and told at the end.
-/

namespace ParticleChain.Publishing

open Artifact (Kind Record Particle)

/-- The file stems of particles with composites first, and those that have no place in such an
order. -/
def particleOrder (records : Std.TreeMap String (Record .particle)) : List String × List String :=
  Composite.Graph.order (records.map fun _ r => Particle.references r.definition)

/-- Stored records in an order that has composites first, and the stems of those that have no
place in one. Only particles refer to others of their kind. -/
def replayOrder : {k : Kind} → Std.TreeMap String (Record k) → List (Record k) × List String
  | .particle, records =>
    let (stems, blocked) := particleOrder records
    (stems.filterMap fun stem => records[stem]?, blocked)
  | .transformation, records | .condition, records | .feature, records => (records.values, [])

/-- Publishes records one after the other; how many were. -/
def publishAll {k : Kind} (u : Setup) : List (Record k) → Site → Nat × Site
  | [], s => (0, s)
  | r :: rest, s =>
    match publish u r s with
    | .ok _ s =>
      let (n, s) := publishAll u rest s
      (n + 1, s)
    | .error _ s => publishAll u rest s

/-- Replays the stored records of a kind; how many there were. -/
def loadStored (u : Setup) (k : Kind) : Work Error Nat := fun s =>
  match storedRecords u.config k s.disk with
  | .error e => .error (.unlisted k e) s
  | .ok records =>
    let (ordered, blocked) := replayOrder records
    let (loaded, s) := publishAll u ordered s
    let failed := ordered.length - loaded + blocked.length
    if failed = 0 then .ok loaded s
    else .error (.notLoaded k failed (ordered.length + blocked.length)) s

/-- Replays the kinds in turn; what failed of each. -/
def loadKinds (u : Setup) : List Kind → Site → List Error × Site
  | [], s => ([], s)
  | k :: kinds, s =>
    match loadStored u k s with
    | .ok _ s => loadKinds u kinds s
    | .error e s =>
      let (errors, s) := loadKinds u kinds s
      (e :: errors, s)

/-- Replays all stored records. -/
def loadAll (u : Setup) : Work Error Unit := fun s =>
  match loadKinds u Kind.all s with
  | ([], s) => .ok () s
  | (errors, s) => .error (.several errors) s

/-- Makes a site ready for publishing. -/
def prepare (u : Setup) : Work Disk.Error Unit := Site.onDisk (makeLayout u.config Kind.all)

/-- Removes builds of other versions of the contract sources; whether the version was another
one. -/
def renew (u : Setup) : Work Error Bool :=
  (Site.onDisk (renewBuilds u.config)).adaptExcept .staleBuilds

end ParticleChain.Publishing
