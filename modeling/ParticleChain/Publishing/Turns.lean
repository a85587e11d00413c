import ParticleChain.Publishing.Pipeline

/-!
# Publishing at the same time

Several records may be published at once, a stage of one between stages of another. Those of
one kind and name take turns: there is a mutex for the name as long as anyone uses it, and only
who holds it goes through the stages.
-/

namespace ParticleChain.Publishing

open Artifact (Kind Record)

/-! ## Stages -/

/-- The stage that comes next, or the end. -/
inductive Stage where
  | build
  | fund
  | create
  | verify (contract : Address)
  | index (contract : Address)
  | save (contract : Address)
  | done (result : Except Error Address)

namespace Stage

/-- Goes on after some work, or ends where it fails. -/
def after {α : Type} (x : Work Error α) (next : α → Stage) (s : Site) : Stage × Site :=
  match x s with
  | .ok a s => (next a, s)
  | .error e s => (done (.error e), s)

section

variable {k : Kind} (u : Setup) (r : Record k) (owner : Address)

def advance : Stage → Site → Stage × Site
  | .build => after (Publishing.build u r) fun _ => .fund
  | .fund => after (Publishing.fund owner) fun _ => .create
  | .create => after (Publishing.create u r owner) .verify
  | .verify a => after (Publishing.verify u r a owner) fun _ => .index a
  | .index a => after (Publishing.index u r a) fun _ => .save a
  | .save a => after (Publishing.save u r a) fun _ => .done (.ok a)
  | .done result => fun s => (.done result, s)

end

end Stage

/-! ## Locks -/

/-- What the deployments of a name take turns with. -/
structure Mutex where
  held : Bool
  /-- How many deployments have it: those that wait, the one that holds it, and those that are done
  with it but have not let go of it. -/
  users : Nat
  deriving DecidableEq, Inhabited

/-- The mutexes that have been made, which are known by their numbers, and the one that whoever
arrives for a name is given. A name that has none is given a new one, so deployments of one name
could come to have different ones. -/
structure Locks where
  table : List ((Kind × String) × Nat)
  mutexes : List Mutex
  deriving DecidableEq, Inhabited

namespace Locks

variable (locks : Locks) (key : Kind × String) (i : Nat)

def empty : Locks := ⟨[], []⟩

/-- The number of the mutex in the table. -/
def find? : Option Nat := locks.table.lookup key

def edit (f : Mutex → Mutex) : Locks := { locks with mutexes := locks.mutexes.modify i f }

/-- A new mutex, with one user, that stands in the table. -/
def make : Nat × Locks :=
  let i := locks.mutexes.length
  (i, ⟨(key, i) :: locks.table, locks.mutexes ++ [⟨false, 1⟩]⟩)

/-- The mutex of a name has one user more; there is one from now on. -/
def join : Nat × Locks :=
  match locks.find? key with
  | some i => (i, locks.edit i fun m => { m with users := m.users + 1 })
  | none => locks.make key

def isHeld : Bool := (locks.mutexes[i]?.map Mutex.held).getD false

def setHeld (held : Bool) : Locks := locks.edit i fun m => { m with held }

def leave : Locks := locks.edit i fun m => { m with users := m.users - 1 }

def isUsed : Bool := (locks.mutexes[i]?.map fun m => m.users != 0).getD false

/-- Takes a mutex that nobody has out of the table. -/
def tidy : Locks :=
  match locks.find? key with
  | some i =>
    if locks.isUsed i then locks
    else { locks with table := locks.table.filter fun (k, _) => k != key }
  | none => locks

end Locks

/-! ## Turns -/

/-- How far a deployment is, and the mutex it has. -/
inductive Turn where
  | arriving (owner : Address)
  | waiting (owner : Address) (mutex : Nat)
  | working (owner : Address) (mutex : Nat) (stage : Stage)
  | releasing (mutex : Nat) (result : Except Error Address)
  | leaving (mutex : Nat) (result : Except Error Address)
  | tidying (result : Except Error Address)
  | finished (result : Except Error Address)

namespace Turn

/-- A record that is not valid is refused at once. -/
def start {k : Kind} (r : Record k) : Turn :=
  match approve r with
  | .ok owner => arriving owner
  | .error e => finished (.error e)

def result? : Turn → Option (Except Error Address)
  | finished result => some result
  | _ => none

/-- One step of a deployment, which may be to wait. -/
def step {k : Kind} (u : Setup) (r : Record k) (t : Turn) (locks : Locks) (s : Site) :
    Turn × Locks × Site :=
  let key := (k, r.name)
  match t with
  | arriving owner =>
    let (i, locks) := locks.join key
    (waiting owner i, locks, s)
  | waiting owner i =>
    if locks.isHeld i then (waiting owner i, locks, s)
    else (working owner i .build, locks.setHeld i true, s)
  | working _ i (.done result) => (releasing i result, locks, s)
  | working owner i stage =>
    let (next, s) := stage.advance u r owner s
    (working owner i next, locks, s)
  | releasing i result => (leaving i result, locks.setHeld i false, s)
  | leaving i result => (tidying result, locks.leave i, s)
  | tidying result => (finished result, locks.tidy key, s)
  | finished result => (finished result, locks, s)

end Turn

/-- Two deployments of one kind, the locks and the site they work on. -/
structure Pair where
  first : Turn
  second : Turn
  locks : Locks
  site : Site

namespace Pair

section

variable {k : Kind} (u : Setup) (r₁ r₂ : Record k)

def start (s : Site) : Pair := ⟨.start r₁, .start r₂, .empty, s⟩

/-- A step of the first deployment, or of the second. -/
def step (isFirst : Bool) (p : Pair) : Pair :=
  if isFirst then
    let (first, locks, site) := p.first.step u r₁ p.locks p.site
    { p with first, locks, site }
  else
    let (second, locks, site) := p.second.step u r₂ p.locks p.site
    { p with second, locks, site }

/-- Runs a schedule: who takes the next step. -/
def run (schedule : List Bool) (p : Pair) : Pair := schedule.foldl (fun p b => p.step u r₁ r₂ b) p

/-- The steps of a deployment that never waits. -/
def turnLength : Nat := 12

/-- Both arrive before the first one goes to work. -/
def inOrder : List Bool :=
  [true, false] ++ List.replicate turnLength true ++ List.replicate turnLength false

end

end Pair

end ParticleChain.Publishing
