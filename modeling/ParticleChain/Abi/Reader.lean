import ParticleChain.Abi.Value

/-!
# Reading contract results

The bytes a contract returns are not trusted: each read checks its bounds first, a number has
zeros (or its sign) in front, and nothing is returned in part. Offsets are 64-bit numbers;
`fault` stands for a sum, a product or a difference that is none and for a slice that leaves the
buffer, which the bounds checks rule out.
-/

namespace ParticleChain.Abi

inductive DecodeError where
  /-- The `width` bytes at `offset` run past the `size` bytes there are. -/
  | outOfBounds (offset width size : Nat)
  /-- The word at `offset` is too large for its type. -/
  | tooLarge (offset : Nat)
  /-- The word at `offset` is no sign-extended number of 32 bits. -/
  | badInt (offset : Nat)
  | badBool (offset : Nat)
  | badUtf8 (offset : Nat)
  | fault
  deriving DecidableEq, Repr

def DecodeError.message : DecodeError → String
  | outOfBounds offset width size =>
    s!"read of {width} bytes at offset {offset} exceeds buffer of {size} bytes"
  | tooLarge offset => s!"word at offset {offset} does not fit the target type"
  | badInt offset => s!"word at offset {offset} is not a canonical int32"
  | badBool offset => s!"word at offset {offset} is not a boolean"
  | badUtf8 offset => s!"string at offset {offset} is not valid utf-8"
  | fault => "offset out of range"

/-- A sum or product of offsets, which must be a 64-bit number. -/
def position (n : Nat) : Except DecodeError Nat := if n < UInt64.size then .ok n else .error .fault

/-- A difference of offsets, which must not be below zero. -/
def distance (stop start : Nat) : Except DecodeError Nat :=
  if start ≤ stop then .ok (stop - start) else .error .fault

/-- The bytes from `start` to `stop`, which must lie in the buffer. -/
def slice (b : ByteArray) (start stop : Nat) : Except DecodeError ByteArray :=
  if start ≤ stop ∧ stop ≤ b.size then .ok (b.extract start stop) else .error .fault

/-- The `width` bytes at `offset`. -/
def readBytes (b : ByteArray) (offset width : Nat) : Except DecodeError ByteArray :=
  if offset + width ≤ b.size then slice b offset (offset + width)
  else .error (.outOfBounds offset width b.size)

def readWord (b : ByteArray) (offset : Nat) : Except DecodeError ByteArray :=
  readBytes b offset 32

/-- The number in the last `width` bytes of a word, at most 8 of them, the others being zero. -/
def readUnsigned (b : ByteArray) (offset width : Nat) : Except DecodeError Nat := do
  let word ← readWord b offset
  let front ← distance 32 width
  if (word.extract 0 front).data.any (· != 0) then throw (.tooLarge offset)
  return Bytes.toNat (word.extract front 32)

/-- A size or an offset. -/
def readSize (b : ByteArray) (offset : Nat) : Except DecodeError Nat := readUnsigned b offset 8

def readUInt32 (b : ByteArray) (offset : Nat) : Except DecodeError UInt32 :=
  (readUnsigned b offset 4).map Nat.toUInt32

def readInt32 (b : ByteArray) (offset : Nat) : Except DecodeError Int32 := do
  let word ← readWord b offset
  let sign : UInt8 := if Bytes.padded word 28 < 0x80 then 0 else 0xff
  if (word.extract 0 28).data.any (· != sign) then throw (.badInt offset)
  return (Bytes.toNat (word.extract 28 32)).toUInt32.toInt32

def readBool (b : ByteArray) (offset : Nat) : Except DecodeError Bool :=
  match readUnsigned b offset 1 with
  | .ok 0 => .ok false
  | .ok 1 => .ok true
  | .ok _ | .error (.tooLarge _) => .error (.badBool offset)
  | .error e => .error e

def readAddress (b : ByteArray) (offset : Nat) : Except DecodeError Address := do
  let word ← readWord b offset
  if (word.extract 0 12).data.any (· != 0) then throw (.tooLarge offset)
  return Address.ofBytes word

def readBytes32 (b : ByteArray) (offset : Nat) : Except DecodeError Word :=
  (readWord b offset).map Word.ofBytes

/-- The offset in the word at `offset`, counted from `base`. -/
def readOffset (b : ByteArray) (offset base : Nat) : Except DecodeError Nat := do
  let relative ← readSize b offset
  if base + relative < UInt64.size then return base + relative else throw (.tooLarge offset)

/-- The number of elements at `offset`, all of whose words are there. -/
def readCount (b : ByteArray) (offset wordsEach : Nat) : Except DecodeError Nat := do
  let count ← readSize b offset
  let each ← position (wordsEach * 32)
  let body := count * each
  unless body < UInt64.size do throw (.tooLarge offset)
  let start ← position (offset + 32)
  let _ ← readBytes b start body
  return count

def readString (b : ByteArray) (offset : Nat) : Except DecodeError String := do
  let length ← readSize b offset
  let start ← position (offset + 32)
  let bytes ← readBytes b start length
  match String.fromUTF8? bytes with
  | some s => return s
  | none => throw (.badUtf8 offset)

/-- The items of a list, each read at its offset; the offsets count from the word after the number
of items. -/
def readItems {α : Type} (read : ByteArray → Nat → Except DecodeError α) (b : ByteArray)
    (offset : Nat) : Except DecodeError (List α) := do
  let count ← readCount b offset 1
  let start ← position (offset + 32)
  (List.range count).mapM fun i => do
    let place ← position (start + i * 32)
    let item ← readOffset b place start
    read b item

def readStrings (b : ByteArray) (offset : Nat) : Except DecodeError (List String) :=
  readItems readString b offset

/-- The elements of a list, one word each. -/
def readRow {α : Type} (read : ByteArray → Nat → Except DecodeError α) (b : ByteArray)
    (offset : Nat) : Except DecodeError (List α) := do
  let count ← readCount b offset 1
  (List.range count).mapM fun i => do read b (← position (offset + 32 * (i + 1)))

def readInt32s (b : ByteArray) (offset : Nat) : Except DecodeError (List Int32) :=
  readRow readInt32 b offset

def readUInt32s (b : ByteArray) (offset : Nat) : Except DecodeError (List UInt32) :=
  readRow readUInt32 b offset

def readPairs (b : ByteArray) (offset : Nat) : Except DecodeError (List (UInt32 × UInt32)) := do
  let count ← readCount b offset 2
  (List.range count).mapM fun i => do
    let first ← position (offset + 32 * (1 + 2 * i))
    let second ← position (first + 32)
    return (← readUInt32 b first, ← readUInt32 b second)

end ParticleChain.Abi
