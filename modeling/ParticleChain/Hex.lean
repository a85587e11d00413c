import ParticleChain.Bytes

/-!
# Hexadecimal text

Two digits a byte, lowercase when written and of either case when read. Reading names the
first byte of the text that is no digit.
-/

namespace ParticleChain.Hex

inductive Error where
  | oddLength
  /-- The text has `byte`, which is no digit, at byte `position`. -/
  | badDigit (byte : UInt8) (position : Nat)
  deriving DecidableEq, Repr

/-- The digit of a value below 16. -/
def digit (n : UInt8) : Char := if n < 10 then Char.ofUInt8 (n + 48) else Char.ofUInt8 (n + 87)

/-- The value of a digit given as an ASCII byte. -/
def value? (c : UInt8) : Option UInt8 :=
  if 48 ≤ c && c ≤ 57 then some (c - 48)
  else if 97 ≤ c && c ≤ 102 then some (c - 87)
  else if 65 ≤ c && c ≤ 70 then some (c - 55)
  else none

def encodeList : List UInt8 → List Char
  | [] => []
  | b :: r => digit (b >>> 4) :: digit (b &&& 15) :: encodeList r

def encode (b : ByteArray) : String := String.ofList (encodeList b.data.toList)

/-- Reads digits in pairs; `at` is the position of the first one. A last single digit is left
out, so callers check that the length is even. -/
def decodePairs (start : Nat) : List UInt8 → Except Error (List UInt8)
  | c :: d :: r =>
    match value? c, value? d with
    | none, _ => .error (.badDigit c start)
    | some _, none => .error (.badDigit d (start + 1))
    | some x, some y => (decodePairs (start + 2) r).map fun t => (x <<< 4 ||| y) :: t
  | _ => .ok []

def decode (text : String) : Except Error ByteArray :=
  let digits := text.toUTF8
  if digits.size % 2 = 1 then .error .oddLength
  else (decodePairs 0 digits.data.toList).map Bytes.ofList

/-- The escape of a code point in braces, in hexadecimal without leading zeros. -/
private def escaped (b : UInt8) : String :=
  let high := if b < 16 then [] else [digit (b >>> 4)]
  String.ofList (['\\', 'u', '{'] ++ high ++ [digit (b &&& 15), '}'])

/-- The character with the code of a byte, in single quotes. Control characters, the
no-break space and the soft hyphen are escaped. -/
def quoted (b : UInt8) : String :=
  let text :=
    if b = 0 then "\\0"
    else if b = 9 then "\\t"
    else if b = 10 then "\\n"
    else if b = 13 then "\\r"
    else if b = 39 then "\\'"
    else if b = 92 then "\\\\"
    else if b < 32 || (127 ≤ b && b ≤ 160) || b = 173 then escaped b
    else String.singleton (Char.ofUInt8 b)
  "'" ++ text ++ "'"

def Error.message : Error → String
  | .oddLength => "Odd number of digits"
  | .badDigit byte position => s!"Invalid character {quoted byte} at position {position}"

end ParticleChain.Hex
