/-!
# Log levels

From the most talkative to the quietest; a message is shown at its own level and those before.
-/

namespace ParticleChain

inductive LogLevel where
  | debug
  | info
  | warn
  | error
  deriving DecidableEq, Repr

namespace LogLevel

def label : LogLevel → String
  | debug => "DEBUG"
  | info => "INFO"
  | warn => "WARN"
  | error => "ERROR"

def rank : LogLevel → Nat
  | debug => 0
  | info => 1
  | warn => 2
  | error => 3

instance : Ord LogLevel := ⟨fun a b => compare a.rank b.rank⟩

/-- Whether a message is shown when `lowest` is the lowest level shown. -/
def isShown (message lowest : LogLevel) : Bool := lowest.rank ≤ message.rank

/-- The text that names no level, in lowercase. -/
structure Unknown where
  text : String
  deriving DecidableEq, Repr

def Unknown.message (e : Unknown) : String :=
  let text := e.text
  s!"unknown log level '{text}'"

/-- A level by its name; the case of ASCII letters does not matter. -/
def parse (text : String) : Except Unknown LogLevel :=
  match text.map Char.toLower with
  | "debug" => .ok debug
  | "info" => .ok info
  | "warn" | "warning" => .ok warn
  | "error" => .ok error
  | other => .error ⟨other⟩

end LogLevel

end ParticleChain
