import ParticleChain.Word.Bits

/-!
# Byte strings

Byte strings are zero-extended: reading past the end gives zeros. Words are written as 32
bytes, the most significant first.
-/

namespace ParticleChain

instance instDecidableEqBytes : DecidableEq ByteArray := ByteArray.instDecidableEq

namespace Bytes

/-- Byte `i` of the zero extension. -/
def padded (b : ByteArray) (i : Nat) : UInt8 := if h : i < b.size then b[i] else 0

def zeros (n : Nat) : ByteArray := ⟨Array.replicate n 0⟩

def ofList (l : List UInt8) : ByteArray := ⟨l.toArray⟩

/-- The number with the bytes as digits, the most significant first. -/
def toNat (b : ByteArray) : Nat := b.data.toList.foldl (fun n x => n * 256 + x.toNat) 0

/-- The eight bytes from `i` on, the most significant first. -/
def limbAt (b : ByteArray) (i : Nat) : UInt64 :=
  (padded b i).toUInt64 <<< 56 ||| (padded b (i + 1)).toUInt64 <<< 48 |||
    (padded b (i + 2)).toUInt64 <<< 40 ||| (padded b (i + 3)).toUInt64 <<< 32 |||
    (padded b (i + 4)).toUInt64 <<< 24 ||| (padded b (i + 5)).toUInt64 <<< 16 |||
    (padded b (i + 6)).toUInt64 <<< 8 ||| (padded b (i + 7)).toUInt64

/-- The word of the 32 bytes from `i` on. -/
def wordAt (b : ByteArray) (i : Nat) : Word :=
  ⟨limbAt b (i + 24), limbAt b (i + 16), limbAt b (i + 8), limbAt b i⟩

/-- The `n` bytes of the zero extension from `i` on. -/
def window (b : ByteArray) (i n : Nat) : ByteArray :=
  let seen := b.extract i (i + n)
  seen ++ zeros (n - seen.size)

/-- The number of bytes in whole words that hold `n` bytes. -/
def paddedLength (n : Nat) : Nat := (n + 31) / 32 * 32

/-- The bytes followed by zeros up to a whole number of words. -/
def padRight (b : ByteArray) : ByteArray := b ++ zeros (paddedLength b.size - b.size)

/-- The last `n` bytes, with zeros in front if there are fewer. -/
def alignRight (n : Nat) (b : ByteArray) : ByteArray :=
  zeros (n - b.size) ++ b.extract (b.size - n) b.size

/-- Bytes are those of a text just if they are read as it. -/
theorem fromUTF8?_eq_some {content : ByteArray} {text : String} :
    String.fromUTF8? content = some text ↔ content = text.toUTF8 := by
  unfold String.fromUTF8?
  constructor
  · intro h
    split at h
    · obtain rfl := Option.some.inj h
      rfl
    · cases h
  · rintro rfl
    exact dif_pos text.isValidUTF8

end Bytes

namespace Word

/-- The 32 bytes of a word, the most significant first. -/
def toBytes (a : Word) : ByteArray := ⟨Array.ofFn fun i : Fin 32 => a.byteAt i⟩

/-- The word spelled by the last 32 bytes. -/
def ofBytes (b : ByteArray) : Word := Bytes.wordAt (Bytes.alignRight 32 b) 0

end Word

end ParticleChain
