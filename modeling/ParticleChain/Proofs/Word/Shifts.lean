import Mathlib.Algebra.Group.Nat.Defs
import ParticleChain.Word.Bits

/-!
# Shifts as numbers

A right shift divides by a power of two (`toNat_shiftRight`), a left shift multiplies by one modulo
`2 ^ 256` (`toNat_shiftLeft`). Either moves whole limbs first; what is left of the amount is less
than 64, and each limb takes the bits that it lacks from the one beside it.
-/

namespace ParticleChain.Word

theorem toUInt64_toNat_of_lt {k : Nat} (hk : k < 64) : (k.toUInt64).toNat = k := by
  rw [Nat.toUInt64, UInt64.toNat_ofNat']
  omega

theorem toUInt64_ne_zero {k : Nat} (hk : k < 64) (h0 : k ≠ 0) : (k.toUInt64 == 0) = false := by
  have hkn := toUInt64_toNat_of_lt hk
  rw [beq_eq_false_iff_ne]
  intro h
  rw [h] at hkn
  exact h0 hkn.symm

/-- The rest of a limb. -/
theorem toNat_sub_toUInt64 {k : Nat} (hk : k < 64) :
    ((64 : UInt64) - k.toUInt64).toNat = 64 - k := by
  have hkn := toUInt64_toNat_of_lt hk
  rw [UInt64.toNat_sub_of_le, hkn]
  · rfl
  · rw [UInt64.le_iff_toNat_le, hkn]
    exact Nat.le_of_lt hk

theorem toNat_funnelRight (lo hi : UInt64) {k : Nat} (hk : k < 64) :
    (funnelRight lo hi k.toUInt64).toNat = lo.toNat / 2 ^ k + hi.toNat % 2 ^ k * 2 ^ (64 - k) := by
  have hkn := toUInt64_toNat_of_lt hk
  unfold funnelRight
  by_cases h0 : k = 0
  · subst h0
    simp [Nat.mod_one]
  · have hpow : 2 ^ (64 - k) * 2 ^ k = 2 ^ 64 := by
      rw [← Nat.pow_add, Nat.sub_add_cancel (Nat.le_of_lt hk)]
    have hlo : lo.toNat / 2 ^ k < 2 ^ (64 - k) := by
      refine Nat.div_lt_of_lt_mul ?_
      rw [Nat.mul_comm, hpow]
      exact lo.toNat_lt
    have hhi : hi.toNat * 2 ^ (64 - k) % 2 ^ 64 = hi.toNat % 2 ^ k * 2 ^ (64 - k) := by
      rw [← hpow, Nat.mul_comm (2 ^ (64 - k)) (2 ^ k), Nat.mul_mod_mul_right]
    have hmod : (64 - k) % 64 = 64 - k := Nat.mod_eq_of_lt (by omega)
    rw [toUInt64_ne_zero hk h0, if_neg Bool.false_ne_true, UInt64.toNat_or,
      UInt64.toNat_shiftRight, UInt64.toNat_shiftLeft, hkn, toNat_sub_toUInt64 hk,
      Nat.mod_eq_of_lt hk, hmod, Nat.shiftRight_eq_div_pow, Nat.shiftLeft_eq, hhi,
      ← Nat.shiftLeft_eq, Nat.or_comm, ← Nat.shiftLeft_add_eq_or_of_lt hlo, Nat.add_comm]

/-- A number above a low digit, divided by a part `p` of the base. -/
theorem div_digit {p : Nat} (hp : 0 < p) (q lo rest : Nat) :
    (lo + q * p * rest) / p = lo / p + rest % p * q + q * p * (rest / p) := by
  have hrest : q * rest = rest % p * q + q * p * (rest / p) := by
    rw [Nat.mul_comm (rest % p), Nat.mul_assoc, ← Nat.mul_add, Nat.mod_add_div]
  rw [Nat.mul_comm q p, Nat.mul_assoc, Nat.add_mul_div_left _ _ hp, hrest, Nat.mul_comm q p,
    Nat.add_assoc]

theorem mod_digit (p q lo rest : Nat) : (lo + q * p * rest) % p = lo % p := by
  rw [Nat.mul_comm q p, Nat.mul_assoc, Nat.add_mul_mod_self_left]

/-- Four limbs moved down together by less than a limb. -/
theorem toNat_funnels (x0 x1 x2 x3 : UInt64) {k : Nat} (hk : k < 64) :
    (⟨funnelRight x0 x1 k.toUInt64, funnelRight x1 x2 k.toUInt64, funnelRight x2 x3 k.toUInt64,
      funnelRight x3 0 k.toUInt64⟩ : Word).toNat = (⟨x0, x1, x2, x3⟩ : Word).toNat / 2 ^ k := by
  have hp : 0 < 2 ^ k := Nat.pow_pos (by decide)
  have hbase : UInt64.size = 2 ^ (64 - k) * 2 ^ k := by
    rw [← Nat.pow_add, Nat.sub_add_cancel (Nat.le_of_lt hk)]
  simp only [toNat, toNat_funnelRight _ _ hk, hbase]
  rw [div_digit hp, mod_digit, div_digit hp, mod_digit, div_digit hp, UInt64.toNat_zero,
    Nat.zero_mod, Nat.zero_mul, Nat.add_zero]

/-- Dropping the lowest limb. -/
theorem toNat_div_size (x0 x1 x2 x3 : UInt64) :
    (⟨x0, x1, x2, x3⟩ : Word).toNat / UInt64.size = (⟨x1, x2, x3, 0⟩ : Word).toNat := by
  have h := x0.toNat_lt
  have hz : (0 : UInt64).toNat = 0 := rfl
  simp only [toNat, UInt64.size, hz]
  omega

/-- Moving by `n` bits moves by `n / 64` limbs and the rest of the bits. -/
theorem two_pow_eq_limbs {n q : Nat} (hq : n / 64 = q) :
    2 ^ n = UInt64.size ^ q * 2 ^ (n % 64) := by
  rw [show UInt64.size = 2 ^ 64 from rfl, ← Nat.pow_mul, ← Nat.pow_add, ← hq, Nat.div_add_mod]

theorem le_of_limbs {n : Nat} (h0 : n / 64 ≠ 0) (h1 : n / 64 ≠ 1) (h2 : n / 64 ≠ 2)
    (h3 : n / 64 ≠ 3) : 256 ≤ n := by
  omega

theorem toNat_shiftRight (a : Word) (n : Nat) : (a >>> n).toNat = a.toNat / 2 ^ n := by
  obtain ⟨w0, w1, w2, w3⟩ := a
  have hk : n % 64 < 64 := Nat.mod_lt _ (by decide)
  have hzero : funnelRight 0 0 (n % 64).toUInt64 = 0 := by
    unfold funnelRight
    split <;> simp
  change (shiftRight _ n).toNat = _
  unfold shiftRight
  dsimp only
  split
  · rename_i hq
    rw [toNat_funnels _ _ _ _ hk, two_pow_eq_limbs hq, Nat.pow_zero, Nat.one_mul]
  · rename_i hq
    have := toNat_funnels w1 w2 w3 0 hk
    rw [hzero] at this
    rw [this, two_pow_eq_limbs hq, Nat.pow_one, ← Nat.div_div_eq_div_mul, toNat_div_size]
  · rename_i hq
    have := toNat_funnels w2 w3 0 0 hk
    rw [hzero] at this
    rw [this, two_pow_eq_limbs hq, ← Nat.div_div_eq_div_mul, Nat.pow_two, ← Nat.div_div_eq_div_mul,
      toNat_div_size, toNat_div_size]
  · rename_i hq
    have := toNat_funnels w3 0 0 0 hk
    rw [hzero] at this
    rw [this, two_pow_eq_limbs hq, ← Nat.div_div_eq_div_mul, Nat.pow_succ, Nat.pow_two,
      ← Nat.div_div_eq_div_mul, ← Nat.div_div_eq_div_mul, toNat_div_size, toNat_div_size,
      toNat_div_size]
  · rename_i h0 h1 h2 h3
    refine (Nat.div_eq_of_lt (Nat.lt_of_lt_of_le (toNat_lt _) ?_)).symm
    rw [show modulus = 2 ^ 256 from rfl]
    exact Nat.pow_le_pow_right (by decide) (le_of_limbs h0 h1 h2 h3)

/-! ## Left shifts -/

theorem toNat_funnelLeft (lo hi : UInt64) {k : Nat} (hk : k < 64) :
    (funnelLeft lo hi k.toUInt64).toNat =
      lo.toNat / 2 ^ (64 - k) + 2 ^ k * (hi.toNat % 2 ^ (64 - k)) := by
  have hkn := toUInt64_toNat_of_lt hk
  have hpow : 2 ^ k * 2 ^ (64 - k) = 2 ^ 64 := by
    rw [← Nat.pow_add, Nat.add_sub_cancel' (Nat.le_of_lt hk)]
  unfold funnelLeft
  by_cases h0 : k = 0
  · subst h0
    have hlo : lo.toNat / 2 ^ 64 = 0 := Nat.div_eq_of_lt lo.toNat_lt
    have hhi : hi.toNat % 2 ^ 64 = hi.toNat := Nat.mod_eq_of_lt hi.toNat_lt
    rw [show (Nat.toUInt64 0 == 0) = true from rfl, if_pos rfl, Nat.sub_zero, hlo, hhi]
    omega
  · have hlo : lo.toNat / 2 ^ (64 - k) < 2 ^ k := by
      refine Nat.div_lt_of_lt_mul ?_
      rw [Nat.mul_comm, hpow]
      exact lo.toNat_lt
    have hhi : hi.toNat * 2 ^ k % 2 ^ 64 = hi.toNat % 2 ^ (64 - k) * 2 ^ k := by
      rw [← hpow, Nat.mul_comm (2 ^ k), Nat.mul_mod_mul_right]
    rw [toUInt64_ne_zero hk h0, if_neg Bool.false_ne_true, UInt64.toNat_or,
      UInt64.toNat_shiftLeft, UInt64.toNat_shiftRight, hkn, toNat_sub_toUInt64 hk,
      Nat.mod_eq_of_lt hk, Nat.mod_eq_of_lt (show 64 - k < 64 by omega), Nat.shiftLeft_eq, hhi,
      Nat.shiftRight_eq_div_pow, ← Nat.shiftLeft_eq, ← Nat.shiftLeft_add_eq_or_of_lt hlo,
      Nat.shiftLeft_eq, Nat.add_comm, Nat.mul_comm (_ % _)]

/-- A digit times a part `p` of the base `p * q`: what stays and what is carried. -/
theorem mul_digit (p q x : Nat) : p * x = p * (x % q) + p * q * (x / q) := by
  rw [Nat.mul_assoc, ← Nat.mul_add, Nat.mod_add_div]

/-- Four limbs moved up together by less than a limb. -/
theorem toNat_funnelsLeft (x0 x1 x2 x3 : UInt64) {k : Nat} (hk : k < 64) :
    (⟨funnelLeft 0 x0 k.toUInt64, funnelLeft x0 x1 k.toUInt64, funnelLeft x1 x2 k.toUInt64,
      funnelLeft x2 x3 k.toUInt64⟩ : Word).toNat =
        2 ^ k * (⟨x0, x1, x2, x3⟩ : Word).toNat % modulus := by
  have hbase : 2 ^ k * 2 ^ (64 - k) = UInt64.size := by
    rw [← Nat.pow_add, Nat.add_sub_cancel' (Nat.le_of_lt hk)]
  have h0 := mul_digit (2 ^ k) (2 ^ (64 - k)) x0.toNat
  have h1 := mul_digit (2 ^ k) (2 ^ (64 - k)) x1.toNat
  have h2 := mul_digit (2 ^ k) (2 ^ (64 - k)) x2.toNat
  have h3 := mul_digit (2 ^ k) (2 ^ (64 - k)) x3.toNat
  have hlt := toNat_lt ⟨funnelLeft 0 x0 k.toUInt64, funnelLeft x0 x1 k.toUInt64,
    funnelLeft x1 x2 k.toUInt64, funnelLeft x2 x3 k.toUInt64⟩
  have hsum : 2 ^ k * (⟨x0, x1, x2, x3⟩ : Word).toNat =
      (⟨funnelLeft 0 x0 k.toUInt64, funnelLeft x0 x1 k.toUInt64, funnelLeft x1 x2 k.toUInt64,
        funnelLeft x2 x3 k.toUInt64⟩ : Word).toNat + modulus * (x3.toNat / 2 ^ (64 - k)) := by
    simp only [toNat, toNat_funnelLeft _ _ hk, UInt64.toNat_zero, Nat.zero_div]
    simp only [Nat.mul_add, Nat.mul_left_comm _ UInt64.size, h0, h1, h2, h3, hbase]
    simp only [UInt64.size, modulus]
    omega
  rw [hsum, Nat.add_mul_mod_self_left, Nat.mod_eq_of_lt hlt]

/-- Moving up by a limb. -/
theorem size_mul_toNat_mod (x0 x1 x2 x3 : UInt64) :
    (⟨0, x0, x1, x2⟩ : Word).toNat = UInt64.size * (⟨x0, x1, x2, x3⟩ : Word).toNat % modulus := by
  have h0 := x0.toNat_lt
  have h1 := x1.toNat_lt
  have h2 := x2.toNat_lt
  simp only [toNat, UInt64.size, modulus, UInt64.toNat_zero]
  omega

theorem mul_mul_mod_mod (p b c m : Nat) : p * (b * c % m) % m = b * p * c % m := by
  rw [Nat.mul_mod_mod, ← Nat.mul_assoc, Nat.mul_comm p]

theorem toNat_shiftLeft (a : Word) (n : Nat) : (a <<< n).toNat = 2 ^ n * a.toNat % modulus := by
  obtain ⟨w0, w1, w2, w3⟩ := a
  have hk : n % 64 < 64 := Nat.mod_lt _ (by decide)
  have hzero : funnelLeft 0 0 (n % 64).toUInt64 = 0 := by
    unfold funnelLeft
    split <;> simp
  change (shiftLeft _ n).toNat = _
  unfold shiftLeft
  dsimp only
  split
  · rename_i hq
    rw [toNat_funnelsLeft _ _ _ _ hk, two_pow_eq_limbs hq, Nat.pow_zero, Nat.one_mul]
  · rename_i hq
    have := toNat_funnelsLeft 0 w0 w1 w2 hk
    rw [hzero] at this
    rw [this, two_pow_eq_limbs hq, Nat.pow_one, size_mul_toNat_mod _ _ _ w3, mul_mul_mod_mod]
  · rename_i hq
    have := toNat_funnelsLeft 0 0 w0 w1 hk
    rw [hzero] at this
    rw [this, two_pow_eq_limbs hq, Nat.pow_two, size_mul_toNat_mod _ _ _ w2,
      size_mul_toNat_mod _ _ _ w3, mul_mul_mod_mod, mul_mul_mod_mod,
      Nat.mul_assoc UInt64.size UInt64.size]
  · rename_i hq
    have := toNat_funnelsLeft 0 0 0 w0 hk
    rw [hzero] at this
    rw [this, two_pow_eq_limbs hq, Nat.pow_succ, Nat.pow_two, size_mul_toNat_mod _ _ _ w1,
      size_mul_toNat_mod _ _ _ w2, size_mul_toNat_mod _ _ _ w3, mul_mul_mod_mod, mul_mul_mod_mod,
      mul_mul_mod_mod]
    simp only [Nat.mul_assoc]
  · rename_i h0 h1 h2 h3
    obtain ⟨m, rfl⟩ := Nat.exists_eq_add_of_le (le_of_limbs h0 h1 h2 h3)
    rw [Nat.pow_add, Nat.mul_assoc, show 2 ^ 256 = modulus from rfl, Nat.mul_mod_right]
    rfl

end ParticleChain.Word
