import ParticleChain.Proofs.Word.Division
import ParticleChain.Proofs.Word.Limbs

/-!
# Words as signed numbers

`toInt` reads a word in two's complement. A word is its magnitude with its sign (`toInt_eq_abs`),
the least word included: its magnitude does not fit into a signed word, but `abs` gives it as an
unsigned one. So dividing magnitudes and putting the signs back is dividing the numbers toward zero
(`signed_operations_exact`).
-/

namespace ParticleChain.Word

theorem toNat_lt_two_pow (a : Word) : a.toNat < 2 ^ 256 := a.toNat_lt

/-- The two's complement reading. -/
def toInt (a : Word) : Int :=
  if a.toNat < 2 ^ 255 then a.toNat else a.toNat - 2 ^ 256

theorem toInt_of_lt {a : Word} (h : a.toNat < 2 ^ 255) : a.toInt = a.toNat := if_pos h

theorem toInt_of_le {a : Word} (h : 2 ^ 255 ≤ a.toNat) : a.toInt = a.toNat - 2 ^ 256 :=
  if_neg (Nat.not_lt.2 h)

theorem toInt_range (a : Word) : -2 ^ 255 ≤ a.toInt ∧ a.toInt < 2 ^ 255 := by
  have h := a.toNat_lt_two_pow
  unfold toInt
  split <;> omega

/-- A signed number that a word agrees with is its reading. -/
theorem toInt_eq_of_emod {a : Word} {z : Int} (h : (a.toNat : Int) = z % 2 ^ 256)
    (hlo : -2 ^ 255 ≤ z) (hhi : z < 2 ^ 255) : a.toInt = z := by
  have ha := a.toNat_lt_two_pow
  unfold toInt
  split <;> omega

theorem toInt_eq_zero_iff {a : Word} : a.toInt = 0 ↔ a = zero := by
  have h := a.toNat_lt_two_pow
  rw [← toNat_inj, toNat_zero]
  unfold toInt
  split <;> omega

theorem isNegative_iff_le {a : Word} : a.isNegative = true ↔ 2 ^ 255 ≤ a.toNat := by
  have h := a.toNat_lt_two_pow
  have hbit := Nat.toNat_testBit a.toNat 255
  rw [isNegative, bit_eq_testBit, ← Bool.toNat_eq_one, hbit]
  omega

theorem isNegative_iff {a : Word} : a.isNegative = true ↔ a.toInt < 0 := by
  have h := a.toNat_lt_two_pow
  rw [isNegative_iff_le]
  unfold toInt
  split <;> omega

/-! ## Magnitude and sign -/

/-- A number with a sign in front. -/
def withSign (negative : Bool) (n : Nat) : Int := if negative then -n else n

/-- What becomes of a sign modulo `2 ^ 256`. -/
theorem toNat_ite_neg (negative : Bool) (m : Word) :
    ((if negative then -m else m).toNat : Int) = withSign negative m.toNat % 2 ^ 256 := by
  have h := m.toNat_lt_two_pow
  have hneg := toNat_neg m
  simp only [modulus] at hneg
  unfold withSign
  split <;> omega

/-- The magnitude of the least word is right, as an unsigned number. -/
theorem toInt_eq_abs (a : Word) : a.toInt = withSign a.isNegative a.abs.toNat := by
  have h := a.toNat_lt_two_pow
  have hneg := toNat_neg a
  simp only [modulus] at hneg
  unfold abs withSign
  by_cases hs : a.isNegative = true
  · have hle := isNegative_iff_le.1 hs
    rw [if_pos hs, if_pos hs, toInt_of_le hle]
    omega
  · have hlt := Nat.not_le.1 (mt isNegative_iff_le.2 hs)
    rw [if_neg hs, if_neg hs, toInt_of_lt hlt]

theorem natAbs_withSign (negative : Bool) (n : Nat) : (withSign negative n).natAbs = n := by
  unfold withSign
  split <;> omega

theorem toNat_abs (a : Word) : a.abs.toNat = a.toInt.natAbs := by
  rw [toInt_eq_abs, natAbs_withSign]

/-- Truncated division divides the magnitudes; the quotient is negative if just one operand is. -/
theorem tdiv_withSign (s t : Bool) (n m : Nat) :
    (withSign s n).tdiv (withSign t m) = withSign (s != t) (n / m) := by
  cases s <;> cases t <;> simp [withSign, Int.neg_tdiv, Int.tdiv_neg]

/-- The remainder has the sign of the dividend. -/
theorem tmod_withSign (s t : Bool) (n m : Nat) :
    (withSign s n).tmod (withSign t m) = withSign s (n % m) := by
  cases s <;> cases t <;>
    simp only [withSign, Int.neg_tmod, Int.tmod_neg, Int.ofNat_tmod, if_true, if_false,
      Bool.false_eq_true]

section

variable {a b : Word}

theorem abs_pos (hb : b ≠ zero) : 0 < b.abs.toNat := by
  rw [toNat_abs, Int.natAbs_pos]
  exact mt toInt_eq_zero_iff.1 hb

theorem signedDiv_zero (a : Word) : a.signedDiv zero = zero := rfl

theorem signedMod_zero (a : Word) : a.signedMod zero = zero := rfl

theorem toNat_signedDiv (hb : b ≠ zero) :
    ((a.signedDiv b).toNat : Int) = a.toInt.tdiv b.toInt % 2 ^ 256 := by
  unfold signedDiv
  dsimp only
  rw [if_neg (mt isZero_iff.1 hb), toNat_ite_neg, toNat_div (abs_pos hb), toInt_eq_abs a,
    toInt_eq_abs b, tdiv_withSign]

theorem toInt_signedMod (hb : b ≠ zero) : (a.signedMod b).toInt = a.toInt.tmod b.toInt := by
  have hword : ((a.signedMod b).toNat : Int) = a.toInt.tmod b.toInt % 2 ^ 256 := by
    unfold signedMod
    dsimp only
    rw [if_neg (mt isZero_iff.1 hb), toNat_ite_neg, toNat_mod (abs_pos hb), toInt_eq_abs a,
      toInt_eq_abs b, tmod_withSign]
  -- A remainder is smaller than the divisor, so it is in the range of signed numbers.
  have habs := Int.natAbs_tmod a.toInt b.toInt
  have hlt := Nat.mod_lt a.toInt.natAbs (Int.natAbs_pos.2 (mt toInt_eq_zero_iff.1 hb))
  have hb := b.toInt_range
  exact toInt_eq_of_emod hword (by omega) (by omega)

/-- A remainder that is not zero has the sign of the dividend. -/
theorem sign_tmod {x y : Int} (h : x.tmod y ≠ 0) : (x.tmod y).sign = x.sign := by
  obtain hx | rfl | hx := Int.lt_trichotomy x 0
  · have hle := Int.tmod_nonneg y (Int.neg_nonneg_of_nonpos (Int.le_of_lt hx))
    rw [Int.neg_tmod] at hle
    rw [Int.sign_eq_neg_one_of_neg hx, Int.sign_eq_neg_one_of_neg (by omega)]
  · exact absurd (Int.zero_tmod y) h
  · have hle := Int.tmod_nonneg y (Int.le_of_lt hx)
    rw [Int.sign_eq_one_of_pos hx, Int.sign_eq_one_of_pos (by omega)]

/-- Words of one sign are ordered as their unsigned numbers are. -/
theorem cmp_eq_compare_toInt (h : a.isNegative = b.isNegative) :
    cmp a b = compare a.toInt b.toInt := by
  have hsame : a.toInt - b.toInt = a.toNat - b.toNat := by
    rw [Bool.eq_iff_iff, isNegative_iff_le, isNegative_iff_le] at h
    unfold toInt
    split <;> split <;> omega
  rw [cmp_eq_compare_toNat, Nat.compare_eq_ite_lt, Int.compare_eq_ite_lt]
  have hlt : a.toNat < b.toNat ↔ a.toInt < b.toInt := by omega
  have hgt : b.toNat < a.toNat ↔ b.toInt < a.toInt := by omega
  simp only [hlt, hgt]

theorem signedCmp_eq_compare (a b : Word) : a.signedCmp b = compare a.toInt b.toInt := by
  have ha := isNegative_iff (a := a)
  have hb := isNegative_iff (a := b)
  unfold signedCmp
  split
  · rename_i hsa hsb
    rw [hsb, Bool.false_eq_true, false_iff] at hb
    exact (Int.compare_eq_lt.2 (Int.lt_of_lt_of_le (ha.1 hsa) (Int.not_lt.1 hb))).symm
  · rename_i hsa hsb
    rw [hsa, Bool.false_eq_true, false_iff] at ha
    exact (Int.compare_eq_gt.2 (Int.lt_of_lt_of_le (hb.1 hsb) (Int.not_lt.1 ha))).symm
  · rename_i hlt hgt
    refine cmp_eq_compare_toInt ?_
    cases hsa : a.isNegative <;> cases hsb : b.isNegative
    · rfl
    · exact absurd hsb (hgt hsa)
    · exact absurd hsb (hlt hsa)
    · rfl

end

/-- Division, remainder and order of the two's complement readings: the quotient is truncated toward
zero, so the remainder has the sign of the dividend and is smaller than the divisor. The one
quotient out of range, of the least number by minus one, wraps to the least number. -/
theorem signed_operations_exact (a b : Word) :
    (b.toInt = 0 → a.signedDiv b = zero ∧ a.signedMod b = zero) ∧
    (b.toInt ≠ 0 →
      ((a.signedDiv b).toNat : Int) = a.toInt.tdiv b.toInt % 2 ^ 256 ∧
      (a.signedMod b).toInt = a.toInt - b.toInt * a.toInt.tdiv b.toInt ∧
      ((a.signedMod b).toInt ≠ 0 → (a.signedMod b).toInt.sign = a.toInt.sign) ∧
      (a.signedMod b).toInt.natAbs < b.toInt.natAbs) ∧
    (a.toInt = -2 ^ 255 → b.toInt = -1 → (a.signedDiv b).toInt = -2 ^ 255) ∧
    a.signedCmp b = compare a.toInt b.toInt := by
  refine ⟨fun hb => ?_, fun hb => ?_, fun ha hb => ?_, signedCmp_eq_compare a b⟩
  · rw [toInt_eq_zero_iff.1 hb]
    exact ⟨signedDiv_zero a, signedMod_zero a⟩
  · have hmod := toInt_signedMod (a := a) (mt toInt_eq_zero_iff.2 hb)
    rw [hmod]
    refine ⟨toNat_signedDiv (mt toInt_eq_zero_iff.2 hb), Int.tmod_def _ _, sign_tmod, ?_⟩
    rw [Int.natAbs_tmod]
    exact Nat.mod_lt _ (Int.natAbs_pos.2 hb)
  · have hne : b ≠ zero := mt toInt_eq_zero_iff.2 (by omega)
    have hdiv := toNat_signedDiv (a := a) hne
    rw [ha, hb] at hdiv
    exact toInt_eq_of_emod (hdiv.trans (by decide)) (by decide) (by decide)

/-- The least number by zero, by three and by minus one. -/
theorem signed_operations_exact_least :
    zero.toInt = 0 ∧ (ofBit 255).signedDiv zero = zero ∧ (ofBit 255).signedMod zero = zero ∧
    (ofNat 3).toInt ≠ 0 ∧ ((ofBit 255).signedMod (ofNat 3)).toInt = -2 ∧
    ((ofBit 255).signedMod (ofNat 3)).toInt.sign = (ofBit 255).toInt.sign ∧
    (ofBit 255).toInt = -2 ^ 255 ∧ max.toInt = -1 ∧
    ((ofBit 255).signedDiv max).toInt = -2 ^ 255 := by
  have hzero : zero.toInt = 0 := by decide
  have hthree : (ofNat 3).toInt ≠ 0 := by decide
  have hleast : (ofBit 255).toInt = -2 ^ 255 := by decide
  have hmax : max.toInt = -1 := by decide
  obtain ⟨hdivZero, hmodZero⟩ := (signed_operations_exact (ofBit 255) zero).1 hzero
  obtain ⟨-, hrem, hsign, -⟩ := (signed_operations_exact (ofBit 255) (ofNat 3)).2.1 hthree
  have hwrap := (signed_operations_exact (ofBit 255) max).2.2.1 hleast hmax
  have htwo := hrem.trans (show _ = (-2 : Int) by decide)
  exact ⟨hzero, hdivZero, hmodZero, hthree, htwo, hsign (by rw [htwo]; decide), hleast, hmax, hwrap⟩

end ParticleChain.Word
