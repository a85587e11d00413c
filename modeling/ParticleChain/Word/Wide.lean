/-!
# 128-bit accumulators

A product of two limbs, and limbs added to it, in two limbs. One product and two more limbs
always fit (`toNat_accumulate`).
-/

namespace ParticleChain

/-- A 128-bit number in two limbs. -/
structure Wide where
  low : UInt64
  high : UInt64

namespace Wide

def toNat (a : Wide) : Nat := a.low.toNat + UInt64.size * a.high.toNat

/-- The product of two limbs, from the products of their halves: `cross` holds one mixed
product and what the low halves carry, `middle` the other one and the low half of `cross`. -/
@[inline] def product (x y : UInt64) : Wide :=
  let x0 := x &&& 0xffffffff
  let x1 := x >>> 32
  let y0 := y &&& 0xffffffff
  let y1 := y >>> 32
  let cross := x1 * y0 + (x0 * y0) >>> 32
  let middle := x0 * y1 + (cross &&& 0xffffffff)
  ⟨x * y, x1 * y1 + cross >>> 32 + middle >>> 32⟩

/-- Adds a limb and carries. -/
@[inline] def addLimb (a : Wide) (x : UInt64) : Wide :=
  let s := a.low + x
  ⟨s, a.high + (decide (s < x)).toUInt64⟩

/-- A limb of a product row: what is there already, the product of two limbs and the carry
of the limb below. -/
@[inline] def accumulate (old x y carry : UInt64) : Wide :=
  ((product x y).addLimb old).addLimb carry

private theorem toNat_lowHalf (x : UInt64) :
    (x &&& 0xffffffff).toNat = x.toNat % 4294967296 :=
  Nat.and_two_pow_sub_one_eq_mod x.toNat 32

private theorem toNat_highHalf (x : UInt64) : (x >>> 32).toNat = x.toNat / 4294967296 :=
  Nat.shiftRight_eq_div_pow x.toNat 32

/-- Long multiplication with two digits in base `b`. -/
private theorem mul_digits (x1 x0 y1 y0 b : Nat) :
    (b * x1 + x0) * (b * y1 + y0)
      = b * (b * (x1 * y1)) + b * (x1 * y0 + x0 * y1) + x0 * y0 := by
  grind

theorem toNat_product (x y : UInt64) : (product x y).toNat = x.toNat * y.toNat := by
  have hx := Nat.div_add_mod x.toNat 4294967296
  have hy := Nat.div_add_mod y.toNat 4294967296
  have hm := mul_digits (x.toNat / 4294967296) (x.toNat % 4294967296) (y.toNat / 4294967296)
    (y.toNat % 4294967296) 4294967296
  rw [hx, hy] at hm
  have hx1 : x.toNat / 4294967296 ≤ 4294967295 := by have := x.toNat_lt; omega
  have hy1 : y.toNat / 4294967296 ≤ 4294967295 := by have := y.toNat_lt; omega
  have hx0 : x.toNat % 4294967296 ≤ 4294967295 := by omega
  have hy0 : y.toNat % 4294967296 ≤ 4294967295 := by omega
  have h11 := Nat.mul_le_mul hx1 hy1
  have h10 := Nat.mul_le_mul hx1 hy0
  have h01 := Nat.mul_le_mul hx0 hy1
  have h00 := Nat.mul_le_mul hx0 hy0
  simp only [product, toNat, UInt64.size, UInt64.toNat_add, UInt64.toNat_mul, toNat_lowHalf,
    toNat_highHalf]
  rw [hm]
  generalize x.toNat / 4294967296 * (y.toNat / 4294967296) = p11 at *
  generalize x.toNat / 4294967296 * (y.toNat % 4294967296) = p10 at *
  generalize x.toNat % 4294967296 * (y.toNat / 4294967296) = p01 at *
  generalize x.toNat % 4294967296 * (y.toNat % 4294967296) = p00 at *
  omega

private theorem toNat_carry (b : Bool) : b.toUInt64.toNat = if b then 1 else 0 := by
  cases b <;> rfl

theorem toNat_addLimb {a : Wide} {x : UInt64} (h : a.toNat + x.toNat < UInt64.size * UInt64.size) :
    (a.addLimb x).toNat = a.toNat + x.toNat := by
  have h0 := a.low.toNat_lt
  have h1 := a.high.toNat_lt
  have hx := x.toNat_lt
  simp only [toNat, UInt64.size] at h
  simp only [addLimb, toNat, UInt64.size, UInt64.toNat_add, toNat_carry, decide_eq_true_eq,
    UInt64.lt_iff_toNat_lt]
  split <;> omega

theorem toNat_accumulate (old x y carry : UInt64) :
    (accumulate old x y carry).toNat = old.toNat + x.toNat * y.toNat + carry.toNat := by
  have hx := x.toNat_lt
  have hy := y.toNat_lt
  have ho := old.toNat_lt
  have hc := carry.toNat_lt
  have h := Nat.mul_le_mul (Nat.le_of_lt_succ hx) (Nat.le_of_lt_succ hy)
  have h1 : ((product x y).addLimb old).toNat = x.toNat * y.toNat + old.toNat := by
    rw [toNat_addLimb, toNat_product]
    rw [toNat_product, UInt64.size]
    omega
  rw [accumulate, toNat_addLimb, h1, Nat.add_comm old.toNat]
  rw [h1, UInt64.size]
  omega

end Wide

end ParticleChain
