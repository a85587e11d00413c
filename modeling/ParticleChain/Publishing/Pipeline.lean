import ParticleChain.Abi.Reader
import ParticleChain.Publishing.Error

/-!
# Publishing a record

A record is compiled, deployed, checked, indexed and saved, in this order. A stage that fails
undoes what the stages before it have left behind, except that the build stays when the name is
taken on the chain, since it may be good for another time, and when the node has stopped.
-/

namespace ParticleChain.Publishing

open Artifact (Kind Record)

variable {ε α : Type}

/-- Does what there is to undo if the work fails. -/
def elseUndo (x : Work ε α) (undo : Site → Site) : Work ε α := fun s =>
  match x s with
  | .ok a s => .ok a s
  | .error e s => .error e (undo s)

def withoutSource (c : Config) (k : Kind) (name : String) (s : Site) : Site :=
  { s with disk := s.disk.withoutFile (sourceFile c k name) }

def withoutBuild (c : Config) (k : Kind) (name : String) (s : Site) : Site :=
  { s with disk := Publishing.dropBuild c k name s.disk }

section

variable {k : Kind} (u : Setup) (r : Record k)

/-- Compiles the contract of a record; its source is gone afterwards. -/
def compile : Work Error Unit := fun s =>
  let c := u.config
  let file := sourceFile c k r.name
  match r.definition.source with
  | .error e => .error (.source e) s
  | .ok text =>
    match s.disk.writeText file text with
    | .error e => .error (.unwritable file e) s
    | .ok disk =>
      let job : Compiler.Job :=
        ⟨file, buildDirectory c k, some c.contracts, some c.modules⟩
      match Site.compile u job { s with disk } with
      | .error e s => .error (.compiler k r.name e) (withoutSource c k r.name s)
      | .ok () s =>
        let s := withoutSource c k r.name s
        if s.disk.has (binaryFile c k r.name) then .ok () s
        else .error (.noBinary r.name) (withoutBuild c k r.name s)

/-- Compiles the contract unless it has been. -/
def build : Work Error Unit := fun s =>
  if s.disk.has (binaryFile u.config k r.name) then .ok () s else compile u r s

/-- Makes sure that the owner has an account. The build stays even if the node has stopped. -/
def fund (owner : Address) : Work Error Unit := (Site.ensureAccount owner).adaptExcept .unfunded

/-- Creates the contract, which learns the address of the registry contract. -/
def create (owner : Address) : Work Error Address := fun s =>
  let c := u.config
  let args := Abi.encodeArgs [.address s.node.registry]
  match Site.deployFile (binaryFile c k r.name) args owner s.node.gasLimit 0 s with
  | .ok a s => .ok a s
  | .error e s =>
    match e.revert? with
    | none => .error (.deploy e) (withoutBuild c k r.name s)
    | some reason =>
      if reason.kind = k.alreadyRegistered then .error (.reverted reason) s
      else .error (.reverted reason) (withoutBuild c k r.name s)

/-- The gas a contract gets to say who its owner is. -/
def ownerGas : Nat := 1000000

/-- Asks the contract for its owner, on behalf of the registry contract. -/
def checkOwner (contract owner : Address) : Work Error Unit := do
  let site ← get
  let registry := site.node.registry
  let funded := match site.node.setBalance registry site.node.gasLimit with
    | .ok n => n
    | .error _ => site.node
  set { site with node := funded }
  let output ← (Site.onNode fun n =>
    n.call registry contract (Abi.encodeCall "getOwner()" []) ownerGas 0).adaptExcept .ownerCall
  match Abi.readAddress output 0 with
  | .error e => throw (.ownerOutput e)
  | .ok actual => if actual = owner then return () else throw (.foreignOwner contract actual owner)

def verify (contract owner : Address) : Work Error Unit :=
  elseUndo (checkOwner contract owner) (withoutBuild u.config k r.name)

/-- Adds the record to the registry. -/
def index (contract : Address) : Work Error Unit := fun s =>
  match s.registry.add contract r with
  | (.ok (), registry) => .ok () { s with registry }
  | (.error e, registry) =>
    .error (.rejected e) (withoutBuild u.config k r.name { s with registry })

/-- Writes the record file, or takes the record out of the registry again. -/
def save (contract : Address) : Work Error Unit := fun s =>
  match saveRecord u.config r s.disk with
  | .ok disk => .ok () { s with disk }
  | .error e =>
    .error (.unsaved k r.name e) (withoutBuild u.config k r.name
      { s with registry := s.registry.remove k r.name contract })

/-- All stages for a record that is valid. -/
def pipeline (owner : Address) : Work Error Address := do
  build u r
  fund owner
  let contract ← create u r owner
  verify u r contract owner
  index u r contract
  save u r contract
  return contract

/-- What must hold of a record before anything is done; its owner. -/
def approve : Except Error Address := do
  match r.definition.validate with
  | .error e => throw (.invalid e)
  | .ok () =>
    match Address.parse r.owner with
    | .error e => throw (.badOwner r.owner e)
    | .ok owner => return owner

/-- Publishes a record; the address of its contract. -/
def publish : Work Error Address := fun s =>
  match approve r with
  | .error e => .error e s
  | .ok owner => pipeline u r owner s

end

end ParticleChain.Publishing
