import ParticleChain.Bootstrap
import ParticleChain.Publishing.Replay
import ParticleChain.Sampling.Generate

/-!
# The command line

Each run bootstraps a new node, replays the stored records and then does what it was asked for:
publish the record of a file, or send the sampling request of a file. Settings come from the
environment, and options replace them.
-/

namespace ParticleChain.CommandLine

open Artifact (Kind Record)

inductive Action where
  | publish (k : Kind) (file : String)
  | sample (file : String)

structure Options where
  config : Config
  /-- The last one given. -/
  action : Option Action
  sender : Option Address

/-- How a run ends: its exit code and what it wrote. -/
structure Exit where
  code : Nat
  output : String
  complaint : String

namespace Exit

def success (output : String) : Exit := ⟨0, output, ""⟩

def failure (complaint : String) : Exit := ⟨1, "", complaint⟩

end Exit

/-! ## Options -/

def usageLines (program : String) : List String := [
  "Artifact registry over an embedded EVM",
  "",
  "USAGE:",
  s!"    {program} [OPTIONS]",
  "",
  "OPTIONS:",
  "    --solc <path>               Solidity compiler binary",
  "    --pt <path>                 Contract tree with contracts/ and node_modules/",
  "    --storage <path>            Storage root for records and build cache",
  "    --log-level <level>         debug, info, warn or error",
  "    --deploy <kind> <file>      Deploy the record in <file> (transformation, condition, " ++
    "feature, particle)",
  "    --execute <file>            Run the execute request in <file> through the runner",
  "    --sender <address>          Caller of --execute",
  "    -h, --help                  Print this help message",
  "",
  "ENVIRONMENT:",
  "    DCN_SOLC, DCN_PT_PATH, DCN_STORAGE_PATH, DCN_LOG_LEVEL, DCN_GAS_LIMIT",
  "",
  "FILES:",
  "    <storage>/<kind>s/<name>.json",
  "    <storage>/<kind>s/build/<name>.\x7bbin,abi\x7d",
  "    <storage>/pt_solidity_build_version",
  "",
  ""]

def usage (program : String) : String := "\n".intercalate (usageLines program)

/-- Reads the options from left to right, up to the first that settles how the run ends. -/
def readOptions (program : String) (o : Options) : List String → Except Exit Options
  | [] => .ok o
  | "-h" :: _ | "--help" :: _ => .error ⟨0, "", usage program⟩
  | "--solc" :: path :: rest =>
    readOptions program { o with config := { o.config with compiler := path } } rest
  | "--pt" :: path :: rest =>
    readOptions program { o with config := { o.config with templates := path } } rest
  | "--storage" :: path :: rest =>
    readOptions program { o with config := { o.config with storage := path } } rest
  | "--log-level" :: text :: rest =>
    match LogLevel.parse text with
    | .ok logLevel => readOptions program { o with config := { o.config with logLevel } } rest
    | .error e => .error (.failure (e.message ++ "\n"))
  | "--deploy" :: kind :: rest =>
    match Kind.parse? kind, rest with
    | none, _ => .error (.failure s!"Unknown artifact kind: {kind}\n")
    | some _, [] => .error (.failure "--deploy requires an argument\n")
    | some k, file :: rest => readOptions program { o with action := some (.publish k file) } rest
  | "--execute" :: file :: rest => readOptions program { o with action := some (.sample file) } rest
  | "--sender" :: text :: rest =>
    match Address.parse text with
    | .ok a => readOptions program { o with sender := some a } rest
    | .error e =>
      let reason := e.message
      .error (.failure s!"Invalid sender address {text}: {reason}\n")
  | option :: _ =>
    if ["--solc", "--pt", "--storage", "--log-level", "--deploy", "--execute", "--sender"].contains
        option then .error (.failure s!"{option} requires an argument\n")
    else .error (.failure (s!"Unexpected argument: {option}\n\n" ++ usage program))

/-- The options of a command line, the name of the program first. -/
def options (lookup : String → Option String) : List String → Except Exit Options
  | [] => .error (.failure "")
  | program :: args =>
    match Config.ofLookup lookup with
    | .error e => .error (.failure (e.fault.label ++ ": " ++ e.message ++ "\n"))
    | .ok config => readOptions program ⟨config, none, none⟩ args

/-! ## Running -/

/-- What the file at a path holds. -/
def readFile {α : Type} (parse? : String → Option α) (file : String) (d : Disk) :
    Except Exit α :=
  match d.readText (.ofText file) with
  | .error e =>
    let reason := e.message
    .error (.failure s!"Cannot read {file}: {reason}\n")
  | .ok text =>
    match parse? text with
    | some a => .ok a
    | none => .error (.failure s!"Cannot parse {file}\n")

/-- Everything up to the action. Records that cannot be replayed do not matter. -/
def start (u : Setup) : Work Exit Unit := do
  let stop {ε : Type} (_ : ε) : Exit := .failure ""
  let _ ← (Bootstrap.run u).adaptExcept stop
  (Publishing.prepare u).adaptExcept stop
  let _ ← (Publishing.renew u).adaptExcept stop
  modify fun s => (Publishing.loadKinds u Kind.all s).2

def publishFile (u : Setup) (k : Kind) (file : String) : Work Exit Exit := do
  let r : Record k ← Site.askDisk (readFile Record.parse? file)
  let a ← (Publishing.publish u r).adaptExcept fun e => .failure (e.message ++ "\n")
  return .success (a.render ++ "\n")

def sampleFile (sender : Option Address) (file : String) : Work Exit Exit :=
  match sender with
  | none => throw (.failure "--execute requires --sender <address>\n")
  | some sender => do
    let q ← Site.askDisk (readFile Sampling.Request.parse? file)
    let samples ← (Sampling.generate sender q).adaptExcept fun e => .failure (e.message ++ "\n")
    return .success (Sampling.renderAll samples ++ "\n")

def act (u : Setup) (o : Options) : Work Exit Exit := do
  start u
  match o.action with
  | none => return .success ""
  | some (.publish k file) => publishFile u k file
  | some (.sample file) => sampleFile o.sender file

/-- Where programs are looked for that are named without a directory. -/
def searchPath (lookup : String → Option String) : List String :=
  ((lookup "PATH").getD "/bin:/usr/bin").splitOn ":"

/-- A run: how it ends, and the disk after it. -/
def run (compiler : Compiler) (lookup : String → Option String) (args : List String) (d : Disk) :
    Exit × Disk :=
  match options lookup args with
  | .error e => (e, d)
  | .ok o =>
    match act ⟨o.config, compiler, searchPath lookup⟩ o (.start o.config d) with
    | .ok e s | .error e s => (e, s.disk)

end ParticleChain.CommandLine
