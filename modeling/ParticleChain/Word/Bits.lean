import ParticleChain.Word.Arithmetic

/-!
# Bits, shifts and bytes of a word

Bit `0` is the least significant one, byte `0` the most significant one. Shifts take any
natural number and are zero from 256 on; the arithmetic right shift keeps the sign.
-/

namespace ParticleChain.Word

/-- The limb with index `i`, zero from four on. -/
def limb (a : Word) : Nat → UInt64
  | 0 => a.w0
  | 1 => a.w1
  | 2 => a.w2
  | 3 => a.w3
  | _ => 0

/-- The value of bit `i`. -/
def bit (a : Word) (i : Nat) : Bool :=
  (a.limb (i / 64) >>> (i % 64).toUInt64) &&& 1 == 1

/-- The word whose only set bit is bit `i`, for `i` below 256. -/
def ofBit (i : Nat) : Word :=
  let b : UInt64 := 1 <<< (i % 64).toUInt64
  match i / 64 with
  | 0 => ⟨b, 0, 0, 0⟩
  | 1 => ⟨0, b, 0, 0⟩
  | 2 => ⟨0, 0, b, 0⟩
  | 3 => ⟨0, 0, 0, b⟩
  | _ => zero

/-- The number of significant bits. -/
def bitLength (a : Word) : Nat :=
  if a.w3 != 0 then 192 + a.w3.toNat.log2 + 1
  else if a.w2 != 0 then 128 + a.w2.toNat.log2 + 1
  else if a.w1 != 0 then 64 + a.w1.toNat.log2 + 1
  else if a.w0 != 0 then a.w0.toNat.log2 + 1
  else 0

/-- The number of significant bytes. -/
def byteLength (a : Word) : Nat := (a.bitLength + 7) / 8

/-- The upper 64 bits of `hi : lo` moved up by `k < 64` bits. -/
def funnelLeft (lo hi k : UInt64) : UInt64 :=
  if k == 0 then hi else hi <<< k ||| lo >>> (64 - k)

/-- The lower 64 bits of `hi : lo` moved down by `k < 64` bits. -/
def funnelRight (lo hi k : UInt64) : UInt64 :=
  if k == 0 then lo else lo >>> k ||| hi <<< (64 - k)

def shiftLeft (a : Word) (n : Nat) : Word :=
  let k := (n % 64).toUInt64
  match n / 64 with
  | 0 => ⟨funnelLeft 0 a.w0 k, funnelLeft a.w0 a.w1 k, funnelLeft a.w1 a.w2 k,
      funnelLeft a.w2 a.w3 k⟩
  | 1 => ⟨0, funnelLeft 0 a.w0 k, funnelLeft a.w0 a.w1 k, funnelLeft a.w1 a.w2 k⟩
  | 2 => ⟨0, 0, funnelLeft 0 a.w0 k, funnelLeft a.w0 a.w1 k⟩
  | 3 => ⟨0, 0, 0, funnelLeft 0 a.w0 k⟩
  | _ => zero

def shiftRight (a : Word) (n : Nat) : Word :=
  let k := (n % 64).toUInt64
  match n / 64 with
  | 0 => ⟨funnelRight a.w0 a.w1 k, funnelRight a.w1 a.w2 k, funnelRight a.w2 a.w3 k,
      funnelRight a.w3 0 k⟩
  | 1 => ⟨funnelRight a.w1 a.w2 k, funnelRight a.w2 a.w3 k, funnelRight a.w3 0 k, 0⟩
  | 2 => ⟨funnelRight a.w2 a.w3 k, funnelRight a.w3 0 k, 0, 0⟩
  | 3 => ⟨funnelRight a.w3 0 k, 0, 0, 0⟩
  | _ => zero

instance : HShiftLeft Word Nat Word := ⟨shiftLeft⟩

instance : HShiftRight Word Nat Word := ⟨shiftRight⟩

/-- Whether the word is negative in two's complement. -/
def isNegative (a : Word) : Bool := a.bit 255

/-- The right shift that fills up with the sign. -/
def shiftRightSigned (a : Word) (n : Nat) : Word :=
  if !a.isNegative then a >>> n
  else if 256 ≤ n then max
  else ~~~(~~~a >>> n)

/-- A shift operand: every word from 256 on moves all bits out. -/
def shiftAmount (s : Word) : Nat :=
  match s.size? with
  | some n => min n 256
  | none => 256

/-- The sign of the low `b + 1` bytes, carried on to the top; `b` from 31 on changes nothing. -/
def signExtend (a b : Word) : Word :=
  match b.size? with
  | none => a
  | some b =>
    if b < 31 then
      let sign := b * 8 + 7
      let mask := (one <<< (sign + 1)) - one
      if a.bit sign then a ||| ~~~mask else a &&& mask
    else a

/-- Byte `i` of the 32 big-endian bytes. -/
def byteAt (a : Word) (i : Nat) : UInt8 :=
  (a.limb (3 - i / 8) >>> (8 * (7 - i % 8)).toUInt64).toUInt8

/-- Byte `i` counted from the top as a word, zero from 32 on. -/
def byte (a i : Word) : Word :=
  match i.size? with
  | some i => if i < 32 then ofUInt64 (a.byteAt i).toUInt64 else zero
  | none => zero

end ParticleChain.Word
