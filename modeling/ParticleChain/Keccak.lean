import ParticleChain.Bytes

/-!
# Keccak-256

The sponge over a state of 25 lanes of 64 bits, five rows of five. A block has 136 bytes; the
padding is the byte `1`, zeros, and the top bit of the last byte.
-/

namespace ParticleChain.Keccak

def rotateLeft (x : UInt64) (n : UInt64) : UInt64 :=
  if n = 0 then x else x <<< n ||| x >>> (64 - n)

def roundConstants : List UInt64 := [
  0x0000000000000001, 0x0000000000008082, 0x800000000000808a, 0x8000000080008000,
  0x000000000000808b, 0x0000000080000001, 0x8000000080008081, 0x8000000000008009,
  0x000000000000008a, 0x0000000000000088, 0x0000000080008009, 0x000000008000000a,
  0x000000008000808b, 0x800000000000008b, 0x8000000000008089, 0x8000000000008003,
  0x8000000000008002, 0x8000000000000080, 0x000000000000800a, 0x800000008000000a,
  0x8000000080008081, 0x8000000000008080, 0x0000000080000001, 0x8000000080008008]

/-- The lanes of a row, one for each column. -/
structure Row where
  x0 : UInt64
  x1 : UInt64
  x2 : UInt64
  x3 : UInt64
  x4 : UInt64

namespace Row

def zero : Row := ⟨0, 0, 0, 0, 0⟩

instance : XorOp Row :=
  ⟨fun a b => ⟨a.x0 ^^^ b.x0, a.x1 ^^^ b.x1, a.x2 ^^^ b.x2, a.x3 ^^^ b.x3, a.x4 ^^^ b.x4⟩⟩

/-- Every lane is mixed with the two to its right: the nonlinear step. -/
def mix (a : Row) : Row :=
  ⟨a.x0 ^^^ (~~~a.x1 &&& a.x2), a.x1 ^^^ (~~~a.x2 &&& a.x3), a.x2 ^^^ (~~~a.x3 &&& a.x4),
    a.x3 ^^^ (~~~a.x4 &&& a.x0), a.x4 ^^^ (~~~a.x0 &&& a.x1)⟩

end Row

/-- The rows of lanes. -/
structure State where
  y0 : Row
  y1 : Row
  y2 : Row
  y3 : Row
  y4 : Row

def State.zero : State := ⟨.zero, .zero, .zero, .zero, .zero⟩

/-- Every lane is mixed with the parities of two neighbouring columns. -/
def mixColumns (a : State) : State :=
  let c := a.y0 ^^^ a.y1 ^^^ a.y2 ^^^ a.y3 ^^^ a.y4
  let d : Row := ⟨c.x4 ^^^ rotateLeft c.x1 1, c.x0 ^^^ rotateLeft c.x2 1,
    c.x1 ^^^ rotateLeft c.x3 1, c.x2 ^^^ rotateLeft c.x4 1, c.x3 ^^^ rotateLeft c.x0 1⟩
  ⟨a.y0 ^^^ d, a.y1 ^^^ d, a.y2 ^^^ d, a.y3 ^^^ d, a.y4 ^^^ d⟩

/-- Every lane is rotated by an amount of its own and moved: what comes to column `x` and row
`y` was in column `x + 3 y` and row `x`, modulo 5. -/
def moveLanes (a : State) : State where
  y0 := ⟨a.y0.x0, rotateLeft a.y1.x1 44, rotateLeft a.y2.x2 43, rotateLeft a.y3.x3 21,
    rotateLeft a.y4.x4 14⟩
  y1 := ⟨rotateLeft a.y0.x3 28, rotateLeft a.y1.x4 20, rotateLeft a.y2.x0 3,
    rotateLeft a.y3.x1 45, rotateLeft a.y4.x2 61⟩
  y2 := ⟨rotateLeft a.y0.x1 1, rotateLeft a.y1.x2 6, rotateLeft a.y2.x3 25,
    rotateLeft a.y3.x4 8, rotateLeft a.y4.x0 18⟩
  y3 := ⟨rotateLeft a.y0.x4 27, rotateLeft a.y1.x0 36, rotateLeft a.y2.x1 10,
    rotateLeft a.y3.x2 15, rotateLeft a.y4.x3 56⟩
  y4 := ⟨rotateLeft a.y0.x2 62, rotateLeft a.y1.x3 55, rotateLeft a.y2.x4 39,
    rotateLeft a.y3.x0 41, rotateLeft a.y4.x1 2⟩

def mixRows (a : State) : State := ⟨a.y0.mix, a.y1.mix, a.y2.mix, a.y3.mix, a.y4.mix⟩

def round (a : State) (constant : UInt64) : State :=
  let b := mixRows (moveLanes (mixColumns a))
  { b with y0 := { b.y0 with x0 := b.y0.x0 ^^^ constant } }

def permute (a : State) : State := roundConstants.foldl round a

/-- Swaps the halves of every piece of `2 * k` bits; `mask` has the low half of each. -/
def swapHalves (mask k x : UInt64) : UInt64 := (x &&& mask) <<< k ||| (x >>> k) &&& mask

/-- The bytes of a lane in the opposite order. -/
def swapBytes (x : UInt64) : UInt64 :=
  swapHalves 0x00000000ffffffff 32 <| swapHalves 0x0000ffff0000ffff 16 <|
    swapHalves 0x00ff00ff00ff00ff 8 x

/-- The number of bytes in a block. -/
def rate : Nat := 136

/-- The message with its padding, a whole number of blocks. -/
def pad (b : ByteArray) : ByteArray :=
  let room := rate - b.size % rate
  let tail := if room = 1 then Bytes.ofList [0x81]
    else Bytes.ofList [1] ++ Bytes.zeros (room - 2) ++ Bytes.ofList [0x80]
  b ++ tail

/-- Takes in `n` blocks from byte `i` on, a lane for each eight bytes. -/
def absorb (b : ByteArray) : Nat → Nat → State → State
  | 0, _, a => a
  | n + 1, i, a =>
    let lane k := swapBytes (Bytes.limbAt b (i + 8 * k))
    let row k : Row := ⟨lane k, lane (k + 1), lane (k + 2), lane (k + 3), lane (k + 4)⟩
    absorb b n (i + rate) (permute
      ⟨a.y0 ^^^ row 0, a.y1 ^^^ row 5, a.y2 ^^^ row 10,
        a.y3 ^^^ ⟨lane 15, lane 16, 0, 0, 0⟩, a.y4⟩)

/-- The Keccak-256 hash of a byte string. -/
def hash (b : ByteArray) : Word :=
  let padded := pad b
  let r := (absorb padded (padded.size / rate) 0 .zero).y0
  ⟨swapBytes r.x3, swapBytes r.x2, swapBytes r.x1, swapBytes r.x0⟩

/-- The first four bytes of the hash of a signature. -/
def selector (signature : String) : ByteArray := (hash signature.toUTF8).toBytes.extract 0 4

end ParticleChain.Keccak
