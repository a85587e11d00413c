/-!
# JSON values

Objects keep their fields in the order written, with repetitions. A number or a text that
stands for no value of ours is kept as `none`: it may be passed over, but not read.
-/

namespace ParticleChain

inductive Json where
  | null
  | bool (b : Bool)
  /-- An integer; `none` if written with a fraction or an exponent, or as `-0`. -/
  | number (n : Option Int)
  /-- A text; `none` if an escape in it is one half of a surrogate pair. -/
  | text (s : Option String)
  | array (items : List Json)
  | object (fields : List (Option String × Json))
  deriving Inhabited

namespace Json

def ofInt (n : Int) : Json := number (some n)

def ofString (s : String) : Json := text (some s)

def ofFields (fields : List (String × Json)) : Json :=
  object (fields.map fun (k, v) => (some k, v))

/-! ## Printing -/

def hexDigit (n : Nat) : Char := (Nat.toDigits 16 n).headD '0'

/-- A character inside quotes: quotes, backslashes and control characters are escaped. -/
def escape (c : Char) : List Char :=
  if c = '"' then ['\\', '"']
  else if c = '\\' then ['\\', '\\']
  else if c.toNat = 8 then ['\\', 'b']
  else if c.toNat = 9 then ['\\', 't']
  else if c.toNat = 10 then ['\\', 'n']
  else if c.toNat = 12 then ['\\', 'f']
  else if c.toNat = 13 then ['\\', 'r']
  else if c.toNat < 32 then
    ['\\', 'u', '0', '0', hexDigit (c.toNat / 16), hexDigit (c.toNat % 16)]
  else [c]

def quote (s : String) : List Char := '"' :: s.toList.flatMap escape ++ ['"']

/-- The end of a line and the indentation of the next, two spaces a level. -/
def newLine (level : Nat) : List Char := '\n' :: List.replicate (2 * level) ' '

mutual

/-- One item or field a line, indented; nothing between the brackets if there is none. -/
def prettyChars (level : Nat) : Json → List Char
  | null | number none | text none => "null".toList
  | bool true => "true".toList
  | bool false => "false".toList
  | number (some n) => (toString n).toList
  | text (some s) => quote s
  | array [] => ['[', ']']
  | array (v :: items) =>
    '[' :: newLine (level + 1) ++ prettyChars (level + 1) v ++ prettyItems level items
  | object [] => ['\x7b', '\x7d']
  | object ((k, v) :: fields) =>
    '\x7b' :: newLine (level + 1) ++ quote (k.getD "") ++ [':', ' '] ++
      prettyChars (level + 1) v ++ prettyFields level fields

/-- The items after the first, and the closing bracket. -/
def prettyItems (level : Nat) : List Json → List Char
  | [] => newLine level ++ [']']
  | v :: items =>
    ',' :: newLine (level + 1) ++ prettyChars (level + 1) v ++ prettyItems level items

/-- The fields after the first, and the closing brace. -/
def prettyFields (level : Nat) : List (Option String × Json) → List Char
  | [] => newLine level ++ ['\x7d']
  | (k, v) :: fields =>
    ',' :: newLine (level + 1) ++ quote (k.getD "") ++ [':', ' '] ++
      prettyChars (level + 1) v ++ prettyFields level fields

end

def pretty (v : Json) : String := String.ofList (v.prettyChars 0)

end Json

end ParticleChain
