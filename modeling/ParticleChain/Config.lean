import ParticleChain.Disk.Path
import ParticleChain.LogLevel
import ParticleChain.Node.Fault

/-!
# Configuration

Where things are, how much gas a request gets and how much is logged. Each setting has a
default, which a variable of the environment replaces.
-/

namespace ParticleChain

structure Config where
  /-- The compiler program. -/
  compiler : String
  /-- The directory of the contract templates and of what is built from them. -/
  templates : String
  /-- The directory of the records and the build caches. -/
  storage : String
  logLevel : LogLevel
  gasLimit : Nat
  chainId : Nat

namespace Config

def defaultGasLimit : Nat := 30000000

def standard : Config := ⟨"solc", "./pt", "./storage", .info, defaultGasLimit, 1⟩

section

variable (c : Config)

def contracts : Path := Path.ofText c.templates / "contracts"

def modules : Path := Path.ofText c.templates / "node_modules"

def built : Path := Path.ofText c.templates / "out"

end

/-- A variable with a value that is none. -/
structure Error where
  key : String
  value : String
  deriving DecidableEq, Repr

def Error.message (e : Error) : String :=
  let key := e.key
  let value := e.value
  s!"invalid value '{value}' for {key}"

def Error.fault (_ : Error) : Node.Fault := .invalidConfig

/-- A 64-bit number above zero; a plus sign may stand in front. -/
def amount? (text : String) : Option Nat :=
  let digits := match text.toList with
    | '+' :: r => r
    | r => r
  let n := digits.foldl (fun n c => n * 10 + (c.toNat - 48)) 0
  if !digits.isEmpty && digits.all Char.isDigit && 0 < n && n < UInt64.size then some n else none

/-- The value of a variable, read, or the default if it is not set. -/
def setting {α : Type} (lookup : String → Option String) (key : String) (read : String → Option α)
    (default : α) : Except Error α :=
  match lookup key with
  | none => .ok default
  | some text =>
    match read text with
    | some a => .ok a
    | none => .error ⟨key, text⟩

/-- The configuration of an environment. -/
def ofLookup (lookup : String → Option String) : Except Error Config := do
  let compiler ← setting lookup "DCN_SOLC" some standard.compiler
  let templates ← setting lookup "DCN_PT_PATH" some standard.templates
  let storage ← setting lookup "DCN_STORAGE_PATH" some standard.storage
  let level ← setting lookup "DCN_LOG_LEVEL" (fun s => (LogLevel.parse s).toOption)
    standard.logLevel
  let gas ← setting lookup "DCN_GAS_LIMIT" amount? standard.gasLimit
  return ⟨compiler, templates, storage, level, gas, standard.chainId⟩

end Config

end ParticleChain
