import ParticleChain.Word.Arithmetic

/-!
# Carries and borrows

A limb of a sum with its carry is the exact sum of its operands, so the four limbs of
`addCarry` with their last carry are too (`toNat_addCarry`); likewise for differences and
borrows. A sum or a difference that does not wrap is that of the numbers.
-/

namespace ParticleChain.Word

theorem toNat_toUInt64 (b : Bool) : b.toUInt64.toNat = b.toNat := by
  cases b <;> rfl

/-- The flag that either of two comparisons raises. -/
theorem toNat_or_decide (p q : Prop) [Decidable p] [Decidable q] :
    (decide p || decide q).toNat = if p ∨ q then 1 else 0 := by
  by_cases hp : p <;> by_cases hq : q <;> simp [hp, hq]

theorem toNat_addLimb (x y : UInt64) (c : Bool) :
    (addLimb x y c).1.toNat + UInt64.size * (addLimb x y c).2.toNat =
      x.toNat + y.toNat + c.toNat := by
  have hx := x.toNat_lt
  have hy := y.toNat_lt
  have hc : c.toNat ≤ 1 := Bool.toNat_le c
  simp only [addLimb, UInt64.size, UInt64.toNat_add, toNat_toUInt64, UInt64.lt_iff_toNat_lt]
  rw [toNat_or_decide]
  split <;> omega

theorem toNat_subLimb (x y : UInt64) (c : Bool) :
    (subLimb x y c).1.toNat + y.toNat + c.toNat =
      x.toNat + UInt64.size * (subLimb x y c).2.toNat := by
  have hx := x.toNat_lt
  have hy := y.toNat_lt
  have hc : c.toNat ≤ 1 := Bool.toNat_le c
  simp only [subLimb, UInt64.size, UInt64.toNat_sub, toNat_toUInt64, UInt64.lt_iff_toNat_lt]
  rw [toNat_or_decide]
  split <;> omega

/-- The sum and its carry are the exact sum. -/
theorem toNat_addCarry (a b : Word) :
    (addCarry a b).1.toNat + modulus * (addCarry a b).2.toNat = a.toNat + b.toNat := by
  have h0 := toNat_addLimb a.w0 b.w0 false
  have h1 := toNat_addLimb a.w1 b.w1 (addLimb a.w0 b.w0 false).2
  have h2 := toNat_addLimb a.w2 b.w2 (addLimb a.w1 b.w1 (addLimb a.w0 b.w0 false).2).2
  have h3 := toNat_addLimb a.w3 b.w3
    (addLimb a.w2 b.w2 (addLimb a.w1 b.w1 (addLimb a.w0 b.w0 false).2).2).2
  simp only [Bool.toNat_false, UInt64.size] at h0 h1 h2 h3
  simp only [addCarry, toNat, modulus, UInt64.size]
  omega

/-- The difference gives back what was taken away, less the borrow. -/
theorem toNat_subBorrow (a b : Word) :
    (subBorrow a b).1.toNat + b.toNat = a.toNat + modulus * (subBorrow a b).2.toNat := by
  have h0 := toNat_subLimb a.w0 b.w0 false
  have h1 := toNat_subLimb a.w1 b.w1 (subLimb a.w0 b.w0 false).2
  have h2 := toNat_subLimb a.w2 b.w2 (subLimb a.w1 b.w1 (subLimb a.w0 b.w0 false).2).2
  have h3 := toNat_subLimb a.w3 b.w3
    (subLimb a.w2 b.w2 (subLimb a.w1 b.w1 (subLimb a.w0 b.w0 false).2).2).2
  simp only [Bool.toNat_false, UInt64.size] at h0 h1 h2 h3
  simp only [subBorrow, toNat, modulus, UInt64.size]
  omega

theorem addCarry_snd_eq_false_iff {a b : Word} :
    (addCarry a b).2 = false ↔ a.toNat + b.toNat < modulus := by
  have h := toNat_addCarry a b
  have hlt := toNat_lt (addCarry a b).1
  cases hc : (addCarry a b).2 <;> simp only [hc, Bool.toNat_true, Bool.toNat_false] at h
  · simp only [true_iff]; omega
  · simp only [Bool.true_eq_false, false_iff]; omega

theorem subBorrow_snd_eq_false_iff {a b : Word} :
    (subBorrow a b).2 = false ↔ b.toNat ≤ a.toNat := by
  have h := toNat_subBorrow a b
  have hlt := toNat_lt (subBorrow a b).1
  cases hc : (subBorrow a b).2 <;> simp only [hc, Bool.toNat_true, Bool.toNat_false] at h
  · simp only [true_iff]; omega
  · simp only [Bool.true_eq_false, false_iff]; omega

theorem toNat_add_of_lt {a b : Word} (h : a.toNat + b.toNat < modulus) :
    (a + b).toNat = a.toNat + b.toNat := by
  have hs := toNat_addCarry a b
  rw [addCarry_snd_eq_false_iff.2 h, Bool.toNat_false] at hs
  exact hs

theorem toNat_sub_of_le {a b : Word} (h : b.toNat ≤ a.toNat) :
    (a - b).toNat = a.toNat - b.toNat := by
  have hs := toNat_subBorrow a b
  rw [subBorrow_snd_eq_false_iff.2 h, Bool.toNat_false] at hs
  change (subBorrow a b).1.toNat = _
  omega

theorem sub_add_cancel_of_le {a b : Word} (h : a.toNat ≤ b.toNat) : b - a + a = b := by
  have hs := toNat_sub_of_le h
  have hb := toNat_lt b
  rw [← toNat_inj, toNat_add_of_lt (by omega)]
  omega

theorem add_zero (a : Word) : a + zero = a := by
  rw [← toNat_inj, toNat_add_of_lt (by rw [toNat_zero]; exact a.toNat_lt), toNat_zero, Nat.add_zero]

theorem sub_zero (a : Word) : a - zero = a := by
  rw [← toNat_inj, toNat_sub_of_le (by rw [toNat_zero]; exact Nat.zero_le _), toNat_zero,
    Nat.sub_zero]

theorem isZero_iff_toNat {a : Word} : a.isZero = true ↔ a.toNat = 0 := by
  rw [isZero_iff, ← toNat_inj, toNat_zero]

end ParticleChain.Word
