import ParticleChain.Word.Basic
import ParticleChain.Word.Wide

/-!
# Word arithmetic

Addition, subtraction and multiplication modulo `2^256`, limb by limb: a carry or borrow
ripples upwards, and a product row gathers in a 128-bit accumulator.
-/

namespace ParticleChain.Word

/-- One limb of a sum and the carry out of it. -/
@[inline] def addLimb (x y : UInt64) (carry : Bool) : UInt64 × Bool :=
  let s := x + y
  let t := s + carry.toUInt64
  (t, s < x || t < s)

/-- One limb of a difference and the borrow out of it. -/
@[inline] def subLimb (x y : UInt64) (borrow : Bool) : UInt64 × Bool :=
  let d := x - y
  let e := d - borrow.toUInt64
  (e, x < y || d < borrow.toUInt64)

/-- The sum modulo `2^256`, and whether it wrapped. -/
@[inline] def addCarry (a b : Word) : Word × Bool :=
  let (s0, c) := addLimb a.w0 b.w0 false
  let (s1, c) := addLimb a.w1 b.w1 c
  let (s2, c) := addLimb a.w2 b.w2 c
  let (s3, c) := addLimb a.w3 b.w3 c
  (⟨s0, s1, s2, s3⟩, c)

/-- The difference modulo `2^256`, and whether it wrapped. -/
@[inline] def subBorrow (a b : Word) : Word × Bool :=
  let (d0, c) := subLimb a.w0 b.w0 false
  let (d1, c) := subLimb a.w1 b.w1 c
  let (d2, c) := subLimb a.w2 b.w2 c
  let (d3, c) := subLimb a.w3 b.w3 c
  (⟨d0, d1, d2, d3⟩, c)

/-- The product modulo `2^256`: four rows, each cut off at the fourth limb. -/
def mul (a b : Word) : Word :=
  let ⟨p0, c⟩ := Wide.accumulate 0 a.w0 b.w0 0
  let ⟨p1, c⟩ := Wide.accumulate 0 a.w0 b.w1 c
  let ⟨p2, c⟩ := Wide.accumulate 0 a.w0 b.w2 c
  let ⟨p3, _⟩ := Wide.accumulate 0 a.w0 b.w3 c
  let ⟨p1, c⟩ := Wide.accumulate p1 a.w1 b.w0 0
  let ⟨p2, c⟩ := Wide.accumulate p2 a.w1 b.w1 c
  let ⟨p3, _⟩ := Wide.accumulate p3 a.w1 b.w2 c
  let ⟨p2, c⟩ := Wide.accumulate p2 a.w2 b.w0 0
  let ⟨p3, _⟩ := Wide.accumulate p3 a.w2 b.w1 c
  let ⟨p3, _⟩ := Wide.accumulate p3 a.w3 b.w0 0
  ⟨p0, p1, p2, p3⟩

instance : Add Word := ⟨fun a b => (addCarry a b).1⟩

instance : Sub Word := ⟨fun a b => (subBorrow a b).1⟩

instance : Mul Word := ⟨mul⟩

instance : AndOp Word := ⟨fun a b => ⟨a.w0 &&& b.w0, a.w1 &&& b.w1, a.w2 &&& b.w2, a.w3 &&& b.w3⟩⟩

instance : OrOp Word := ⟨fun a b => ⟨a.w0 ||| b.w0, a.w1 ||| b.w1, a.w2 ||| b.w2, a.w3 ||| b.w3⟩⟩

instance : XorOp Word := ⟨fun a b => ⟨a.w0 ^^^ b.w0, a.w1 ^^^ b.w1, a.w2 ^^^ b.w2, a.w3 ^^^ b.w3⟩⟩

instance : Complement Word := ⟨fun a => ⟨~~~a.w0, ~~~a.w1, ~~~a.w2, ~~~a.w3⟩⟩

/-- The additive inverse modulo `2^256`. -/
instance : Neg Word := ⟨fun a => ~~~a + one⟩

end ParticleChain.Word
