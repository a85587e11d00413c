import ParticleChain.Disk.Basic

/-!
# The contract compiler

The compiler is a program outside: it is given arguments, may change the disk and ends with an
exit code, or without one if it is killed. Here is what it is asked to do and how that fails.
-/

namespace ParticleChain

/-- What a run with given arguments does. -/
abbrev Compiler := List String → Disk → Option Nat × Disk

namespace Compiler

/-- Why a program cannot be started. -/
inductive StartError where
  | disk (reason : Disk.Error)
  /-- A zero character in its path or an argument. -/
  | zeroCharacter
  | argumentTooLong
  deriving DecidableEq

def StartError.message : StartError → String
  | disk reason => reason.message
  | zeroCharacter => "nul byte found in provided data"
  | argumentTooLong => "Argument list too long (os error 7)"

inductive Error where
  | sourceMissing (source : Path)
  | includeWithoutBase
  | notStarted (reason : StartError)
  | failed (code : Option Nat)
  /-- There is no node to run it. -/
  | closed
  deriving DecidableEq

def exitCode : Option Nat → String
  | some n => s!"Some({n})"
  | none => "None"

def Error.message : Error → String
  | sourceMissing source =>
    let text := source.render
    s!"source file {text} does not exist"
  | includeWithoutBase => "an include path requires a base path"
  | notStarted reason =>
    let text := reason.message
    s!"failed to start compiler: {text}"
  | failed code =>
    let text := exitCode code
    s!"compiler exited with code {text}"
  | closed => "engine is not running"

/-- One contract to compile. -/
structure Job where
  source : Path
  /-- The directory for the output. -/
  output : Path
  /-- Where imports are looked up. -/
  base : Option Path
  /-- Where they are looked up next; only together with `base`. -/
  library : Option Path

def evmVersion : String := "shanghai"

/-- The arguments for a job, the source last. -/
def arguments (j : Job) : Except Error (List String) :=
  if j.library.isSome && j.base.isNone then .error .includeWithoutBase
  else
    let option (name : String) (p : Option Path) := match p with
      | some p => [name, p.render]
      | none => []
    .ok (["--evm-version", evmVersion, "--overwrite", "-o", j.output.render, "--optimize", "--bin",
      "--abi"] ++ option "--base-path" j.base ++ option "--include-path" j.library
      ++ [j.source.render])

/-! ## Starting a program -/

/-- The paths at which a program may be. One without a slash is looked for in the directories of
the search path. -/
def candidates (searchPath : List String) (program : String) : List Path :=
  if program.contains '/' then [.ofText program]
  else if program.isEmpty then []
  else searchPath.map fun directory => Path.ofText directory / program

/-- Whether the program at a path can be run. -/
def runnable (d : Disk) (p : Path) : Except Disk.Error Unit := do
  match ← d.look p with
  | .program => return ()
  | _ => throw .denied

/-- Tries one path after the other, unless one leads to more than nothing. That running was denied
is told before that nothing was found. -/
def search (d : Disk) (e : Disk.Error) : List Path → Except Disk.Error Unit
  | [] => .error e
  | p :: rest =>
    match runnable d p with
    | .ok () => .ok ()
    | .error .denied => search d .denied rest
    | .error .notFound => search d (if e = .denied then e else .notFound) rest
    | .error .notDirectory => search d (if e = .denied then e else .notDirectory) rest
    | .error e => .error e

/-- The number of bytes an argument may have. -/
def maxArgument : Nat := 131071

def start (d : Disk) (searchPath : List String) (program : String) (arguments : List String) :
    Except StartError Unit :=
  if (program :: arguments).any (·.contains '\x00') then .error .zeroCharacter
  else match search d .notFound (candidates searchPath program) with
    | .error e => .error (.disk e)
    | .ok () =>
      if arguments.any (maxArgument < ·.utf8ByteSize) then .error .argumentTooLong else .ok ()

/-- Runs the compiler on a job; how it ended, and the disk after it. Only exit code zero is
success. -/
def run (c : Compiler) (searchPath : List String) (program : String) (j : Job) (d : Disk) :
    Except Error Unit × Disk :=
  match arguments j with
  | .error e => (.error e, d)
  | .ok arguments =>
    if !d.has j.source then (.error (.sourceMissing j.source), d)
    else match start d searchPath program arguments with
      | .error e => (.error (.notStarted e), d)
      | .ok () =>
        let (code, d) := c arguments d
        (if code = some 0 then .ok () else .error (.failed code), d)

end Compiler

end ParticleChain
