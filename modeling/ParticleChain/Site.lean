import ParticleChain.Compiler
import ParticleChain.Node.Basic
import ParticleChain.Registry.Basic

/-!
# Sites

A site is all that publishing works on: the disk, the node and the registry. A job at a site
may fail halfway; what it has done until then stays done.
-/

namespace ParticleChain

/-- What stays the same while a site is worked on. -/
structure Setup where
  config : Config
  compiler : Compiler
  /-- The directories in which a program is looked for that is named without one. -/
  searchPath : List String

structure Site where
  disk : Disk
  node : Node
  registry : Registry

abbrev Work (ε α : Type) := EStateM ε Site α

namespace Site

variable {ε α : Type}

/-- A disk with a new node and an empty registry. -/
def start (c : Config) (disk : Disk) : Site := ⟨disk, .start c, .empty⟩

/-- Work on the disk alone. -/
def onDisk (f : Disk → Except ε α × Disk) : Work ε α := fun s =>
  match f s.disk with
  | (.ok a, disk) => .ok a { s with disk }
  | (.error e, disk) => .error e { s with disk }

/-- Work on the node alone. -/
def onNode (f : Node → Except ε α × Node) : Work ε α := fun s =>
  match f s.node with
  | (.ok a, node) => .ok a { s with node }
  | (.error e, node) => .error e { s with node }

/-- What a question about the disk answers. -/
def askDisk (f : Disk → Except ε α) : Work ε α := fun s =>
  match f s.disk with
  | .ok a => .ok a s
  | .error e => .error e s

/-- Fails if the node has stopped. -/
def ensureRunning (closed : ε) : Work ε Unit := fun s =>
  if s.node.isRunning then .ok () s else .error closed s

/-- Makes sure that an address has an account, which gets the gas of a request if it is new. -/
def ensureAccount (a : Address) : Work Node.AccountError Unit := fun s =>
  match s.node.addAccount a s.node.gasLimit with
  | .ok node => .ok () { s with node }
  | .error (.alreadyExists _) => .ok () s
  | .error e => .error e s

/-- Has the node run the compiler. -/
def compile (u : Setup) (j : Compiler.Job) : Work Compiler.Error Unit := do
  ensureRunning .closed
  onDisk (Compiler.run u.compiler u.searchPath u.config.compiler j)

/-- Creates a contract from the init code in a file, with the gas of a request. -/
def deployFile (file : Path) (args : ByteArray) (sender : Address) (gas value : Nat) :
    Work Node.Error Address := do
  ensureRunning .closed
  let text ← askDisk fun d => (d.readText file).mapError fun e =>
    let path := file.render
    let reason := e.message
    .deploy .unreadable s!"cannot read {path}: {reason}" .empty
  onNode fun n => n.deploy text args sender gas value

end Site

end ParticleChain
