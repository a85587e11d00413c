import ParticleChain.Hex
import ParticleChain.Keccak

/-!
# Addresses

An address is the low 20 bytes of a word. Owners and contracts share this type. As text it is
40 hexadecimal digits, with or without `0x` in front.
-/

namespace ParticleChain

/-- A 160-bit address, the least significant limb first. -/
@[ext] structure Address where
  a0 : UInt64
  a1 : UInt64
  a2 : UInt32
  deriving DecidableEq, Inhabited

namespace Address

def zero : Address := ⟨0, 0, 0⟩

def isZero (a : Address) : Bool := a == zero

/-- The number an address stands for. -/
def toNat (a : Address) : Nat := 
  a.a0.toNat + UInt64.size * (a.a1.toNat + UInt64.size * a.a2.toNat)

/-- The address in the low 20 bytes of a word. -/
def ofWord (w : Word) : Address := ⟨w.w0, w.w1, w.w2.toUInt32⟩

def toWord (a : Address) : Word := ⟨a.a0, a.a1, a.a2.toUInt64, 0⟩

/-- The 20 bytes of an address, the most significant first. -/
def toBytes (a : Address) : ByteArray := a.toWord.toBytes.extract 12 32

/-- The address of the last 20 bytes, with zeros in front if there are fewer. -/
def ofBytes (b : ByteArray) : Address := ofWord (Word.ofBytes b)

/-- The order of the numbers, which is that of the bytes. -/
def cmp (a b : Address) : Ordering := Word.cmp a.toWord b.toWord

instance : Ord Address := ⟨cmp⟩

@[simp] theorem ofWord_toWord (a : Address) : ofWord a.toWord = a := by
  cases a
  simp [ofWord, toWord]

theorem toWord_inj {a b : Address} : a.toWord = b.toWord ↔ a = b :=
  ⟨fun h => by rw [← ofWord_toWord a, h, ofWord_toWord], fun h => h ▸ rfl⟩

private theorem cmp_eq_compareOn : cmp = compareOn toWord := rfl

instance : Std.TransOrd Address := by
  change Std.TransCmp cmp
  rw [cmp_eq_compareOn]
  infer_instance

instance : Std.LawfulEqOrd Address where
  compare_self := Std.ReflOrd.compare_self (α := Word)
  eq_of_compare h := toWord_inj.1 (Std.LawfulEqOrd.eq_of_compare (α := Word) h)

/-- The digits of an address, without `0x`. -/
def digits (a : Address) : String := Hex.encode a.toBytes

/-- The written form of an address. -/
def render (a : Address) : String := "0x" ++ a.digits

inductive ParseError where
  /-- The text has `actual` bytes instead of 40, a leading `0x` not counted. -/
  | badLength (actual : Nat)
  | badDigit
  deriving DecidableEq, Repr

def ParseError.message : ParseError → String
  | .badLength actual => s!"address must be 40 hex characters, got {actual}"
  | .badDigit => "address contains non-hex characters"

/-- The text without one leading `0x` or `0X`. -/
def stripMark (text : String) : String :=
  match text.toList with
  | '0' :: 'x' :: r => String.ofList r
  | '0' :: 'X' :: r => String.ofList r
  | _ => text

def parse (text : String) : Except ParseError Address :=
  let digits := stripMark text
  if digits.utf8ByteSize ≠ 40 then .error (.badLength digits.utf8ByteSize)
  else match Hex.decode digits with
    | .ok b => .ok (ofBytes b)
    | .error _ => .error .badDigit

end Address

namespace Word

/-- The text of a word that holds a string from its first byte on, if the bytes up to the
trailing zeros are UTF-8. -/
def shortText? (a : Word) : Option String :=
  let bytes := a.toBytes.data.toList.reverse.dropWhile (· == 0)
  String.fromUTF8? (Bytes.ofList bytes.reverse)

end Word

end ParticleChain
