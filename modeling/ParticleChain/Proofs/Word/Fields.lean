import ParticleChain.Proofs.Word.Bytes
import ParticleChain.Proofs.Word.Signed

/-!
# Shift amounts, signs and bytes as numbers

A shift by 256 or more is a shift by 256, so a shift by the operand of an instruction is one by its
number, however large (`shiftLeft_shiftAmount` and its like). The right shift that keeps the sign
divides toward minus infinity (`toNat_shiftRightSigned`). Extending the sign of the low bytes leaves
their two's complement reading (`toInt_signExtend`), and a byte is a digit in base 256
(`toNat_byte`).
-/

namespace ParticleChain.Word

theorem size?_of_lt {a : Word} (h : a.toNat < UInt64.size) : a.size? = some a.toNat :=
  size?_eq_some_iff.2 ⟨rfl, h⟩

/-! ## Shifts by a word -/

theorem shiftAmount_eq (s : Word) : s.shiftAmount = min s.toNat 256 := by
  unfold shiftAmount
  cases h : s.size? with
  | some n =>
    obtain ⟨rfl, -⟩ := size?_eq_some_iff.1 h
    rfl
  | none =>
    have hlarge : ¬ s.toNat < UInt64.size := fun hlt => Option.some_ne_none _
      ((size?_of_lt hlt).symm.trans h)
    exact (Nat.min_eq_right (Nat.le_trans (by decide) (Nat.not_lt.1 hlarge))).symm

section

variable {a : Word} {n : Nat}

theorem shiftLeft_of_le (h : 256 ≤ n) : a <<< n = zero := by
  obtain ⟨m, rfl⟩ := Nat.exists_eq_add_of_le h
  rw [← toNat_inj, toNat_shiftLeft, Nat.pow_add, Nat.mul_assoc]
  exact Nat.mul_mod_right _ _

theorem shiftRight_of_le (h : 256 ≤ n) : a >>> n = zero := by
  have hpow : 2 ^ 256 ≤ 2 ^ n := Nat.pow_le_pow_right (by decide) h
  rw [← toNat_inj, toNat_shiftRight]
  exact Nat.div_eq_of_lt (Nat.lt_of_lt_of_le a.toNat_lt hpow)

/-- The fill is what remains of the complement of a negative word. -/
theorem shiftRightSigned_of_isNegative (h : a.isNegative = true) (n : Nat) :
    a.shiftRightSigned n = ~~~(~~~a >>> n) := by
  unfold shiftRightSigned
  rw [h, Bool.not_true, if_neg Bool.false_ne_true]
  split
  · rename_i hn
    rw [shiftRight_of_le hn]
    rfl
  · rfl

theorem shiftRightSigned_of_not_isNegative (h : ¬ a.isNegative = true) (n : Nat) :
    a.shiftRightSigned n = a >>> n := by
  unfold shiftRightSigned
  rw [if_pos (by simpa using h)]

/-- The signed right shift is the quotient rounded down. -/
theorem toNat_shiftRightSigned (a : Word) (n : Nat) :
    ((a.shiftRightSigned n).toNat : Int) = a.toInt / 2 ^ n % 2 ^ 256 := by
  have hpow : (0 : Int) < 2 ^ n := Int.pow_pos (by decide)
  by_cases h : a.isNegative = true
  · -- The reading is `-(k + 1)` for the number `k` of the complement.
    have hk := toNat_not a
    have hr := toNat_not (~~~a >>> n)
    have hreading : a.toInt = Int.negSucc (~~~a).toNat := by
      rw [toInt_of_le (isNegative_iff_le.1 h)]
      simp only [modulus] at hk
      omega
    have hfloor : a.toInt / 2 ^ n = -(((~~~a).toNat / 2 ^ n : Nat) + 1) := by
      rw [hreading, Int.negSucc_ediv _ hpow, Int.natCast_div, Int.natCast_pow]
      rfl
    have hlt := toNat_lt (~~~a >>> n)
    rw [toNat_shiftRight] at hr hlt
    rw [shiftRightSigned_of_isNegative h, hfloor]
    generalize (~~~a).toNat / 2 ^ n = q at *
    simp only [modulus] at hr hlt
    omega
  · have hlt := toNat_lt (a >>> n)
    rw [shiftRightSigned_of_not_isNegative h,
      toInt_of_lt (Nat.not_le.1 (mt isNegative_iff_le.2 h))]
    rw [toNat_shiftRight] at hlt ⊢
    rw [Int.natCast_div, Int.natCast_pow]
    refine (Int.emod_eq_of_lt ?_ ?_).symm
    · exact Int.ediv_nonneg (Int.natCast_nonneg _) (Int.le_of_lt hpow)
    · exact_mod_cast hlt

/-- Once nothing is left from 256 on, the number of an operand can stand for the amount. -/
theorem at_shiftAmount (shifted : Nat → Word) (h : ∀ n, 256 ≤ n → shifted n = zero) (s : Word) :
    shifted s.shiftAmount = shifted s.toNat := by
  rw [shiftAmount_eq]
  obtain hs | hs := Nat.le_total s.toNat 256
  · rw [Nat.min_eq_left hs]
  · rw [Nat.min_eq_right hs, h 256 (Nat.le_refl 256), h s.toNat hs]

theorem shiftLeft_shiftAmount (a s : Word) : a <<< s.shiftAmount = a <<< s.toNat :=
  at_shiftAmount (a <<< ·) (fun _ => shiftLeft_of_le) s

theorem shiftRight_shiftAmount (a s : Word) : a >>> s.shiftAmount = a >>> s.toNat :=
  at_shiftAmount (a >>> ·) (fun _ => shiftRight_of_le) s

theorem shiftRightSigned_shiftAmount (a s : Word) :
    a.shiftRightSigned s.shiftAmount = a.shiftRightSigned s.toNat := by
  by_cases h : a.isNegative = true
  · rw [shiftRightSigned_of_isNegative h, shiftRightSigned_of_isNegative h, shiftRight_shiftAmount]
  · rw [shiftRightSigned_of_not_isNegative h, shiftRightSigned_of_not_isNegative h,
      shiftRight_shiftAmount]

end

/-! ## Sign extension -/

/-- The word of ones in the low `w` bits. -/
theorem toNat_lowMask {w : Nat} (hw : w < 256) : ((one <<< w) - one).toNat = 2 ^ w - 1 := by
  have hshift : (one <<< w).toNat = 2 ^ w := by
    rw [toNat_shiftLeft, toNat_one, Nat.mul_one]
    exact Nat.mod_eq_of_lt (Nat.pow_lt_pow_right (by decide) hw)
  have hpos := Nat.two_pow_pos w
  rw [toNat_sub_of_le (by rw [hshift, toNat_one]; exact hpos), hshift, toNat_one]

/-- Filling up with ones from bit `w` on. -/
theorem or_highMask {n w k : Nat} (hw : w ≤ k) (hn : n < 2 ^ k) :
    n ||| (2 ^ k - 2 ^ w) = 2 ^ k - 2 ^ w + n % 2 ^ w := by
  have hmask : 2 ^ k - 2 ^ w = 2 ^ w * (2 ^ (k - w) - 1) := by
    rw [Nat.mul_sub_one, ← Nat.pow_add, Nat.add_sub_cancel' hw]
  rw [hmask]
  refine Nat.eq_of_testBit_eq fun i => ?_
  rw [Nat.testBit_or, Nat.testBit_two_pow_mul,
    Nat.testBit_two_pow_mul_add _ (Nat.mod_lt n (Nat.two_pow_pos w)), Nat.testBit_two_pow_sub_one,
    Nat.testBit_mod_two_pow]
  by_cases hi : i < w
  · simp [hi]
  · by_cases hik : i < k
    · simp [hi, show w ≤ i by omega, show i - w < k - w by omega]
    · have hbit : n.testBit i = false :=
        Nat.testBit_lt_two_pow (Nat.lt_of_lt_of_le hn (Nat.pow_le_pow_right (by decide) (by omega)))
      simp [hi, hbit, show ¬ i - w < k - w by omega]

/-- The low `w` bits of a word in two's complement. -/
theorem toInt_extended (a : Word) {s : Nat} (hs : s < 255) :
    let mask := (one <<< (s + 1)) - one
    (if a.bit s then a ||| ~~~mask else a &&& mask).toInt = (a.toNat : Int).bmod (2 ^ (s + 1)) := by
  have hmask := toNat_lowMask (w := s + 1) (by omega)
  have hnot := toNat_not ((one <<< (s + 1)) - one)
  have hpow : 2 ^ (s + 1) ≤ 2 ^ 255 := Nat.pow_le_pow_right (by decide) hs
  have hdouble : 2 ^ (s + 1) = 2 * 2 ^ s := Nat.pow_succ'
  have hbit := mod_two_pow_succ a s
  have hlow := Nat.mod_lt a.toNat (Nat.two_pow_pos s)
  have ha := a.toNat_lt
  dsimp only
  rw [Int.bmod_def]
  have hcast : (a.toNat : Int) % (2 ^ (s + 1) : Nat) = (a.toNat % 2 ^ (s + 1) : Nat) :=
    (Int.natCast_emod _ _).symm
  rw [hcast]
  split
  · rename_i hsign
    rw [hsign, Bool.toNat_true] at hbit
    have hword : (a ||| ~~~((one <<< (s + 1)) - one)).toNat =
        2 ^ 256 - 2 ^ (s + 1) + a.toNat % 2 ^ (s + 1) := by
      have hhigh : (~~~((one <<< (s + 1)) - one)).toNat = 2 ^ 256 - 2 ^ (s + 1) := by
        simp only [modulus] at hnot
        omega
      rw [toNat_or, hhigh, or_highMask (by omega) ha]
    rw [toInt_of_le (by omega), hword]
    omega
  · rename_i hsign
    rw [Bool.not_eq_true] at hsign
    rw [hsign, Bool.toNat_false] at hbit
    have hword : (a &&& ((one <<< (s + 1)) - one)).toNat = a.toNat % 2 ^ (s + 1) := by
      rw [toNat_and, hmask, Nat.and_two_pow_sub_one_eq_mod]
    rw [toInt_of_lt (by omega), hword]
    omega

theorem toInt_signExtend (a : Word) {b : Word} (hb : b.toNat < 31) :
    (a.signExtend b).toInt = (a.toNat : Int).bmod (2 ^ (8 * (b.toNat + 1))) := by
  unfold signExtend
  rw [size?_of_lt (Nat.lt_trans hb (by decide))]
  dsimp only
  rw [if_pos hb, toInt_extended a (by omega), show b.toNat * 8 + 7 + 1 = 8 * (b.toNat + 1) by omega]

theorem signExtend_of_le (a : Word) {b : Word} (hb : 31 ≤ b.toNat) : a.signExtend b = a := by
  unfold signExtend
  split
  · rfl
  · rename_i n hn
    obtain ⟨rfl, -⟩ := size?_eq_some_iff.1 hn
    exact if_neg (Nat.not_lt.2 hb)

/-! ## Bytes -/

/-- A limb is a digit in base `2 ^ 64`. -/
theorem toNat_limb (a : Word) {q : Nat} (hq : q < 4) :
    (a.limb q).toNat = a.toNat / UInt64.size ^ q % UInt64.size := by
  have h0 := a.w0.toNat_lt
  have h1 := a.w1.toNat_lt
  have h2 := a.w2.toNat_lt
  have h3 := a.w3.toNat_lt
  interval_cases q <;> simp only [limb, toNat, UInt64.size, Nat.reducePow] <;> omega

/-- A byte is a digit in base 256. -/
theorem toNat_byteAt_digit (a : Word) {i : Nat} (hi : i < 32) :
    (a.byteAt i).toNat = a.toNat / 2 ^ (8 * (31 - i)) % 256 := by
  have hsize : UInt64.size = 256 ^ (7 - i % 8) * 256 ^ (1 + i % 8) := by
    rw [← Nat.pow_add, show 7 - i % 8 + (1 + i % 8) = 8 by omega]
  have hplace : UInt64.size ^ (3 - i / 8) * 256 ^ (7 - i % 8) = 2 ^ (8 * (31 - i)) := by
    rw [show UInt64.size = 2 ^ 64 from rfl, show 256 = 2 ^ 8 from rfl, ← Nat.pow_mul,
      ← Nat.pow_mul, ← Nat.pow_add]
    congr 1
    omega
  rw [toNat_byteAt, toNat_limb a (by omega), hsize, Nat.mod_mul_right_div_self, ← hsize,
    Nat.div_div_eq_div_mul, hplace]
  exact Nat.mod_mod_of_dvd _ (Dvd.intro _ (Nat.pow_add 256 1 _).symm)

theorem toNat_byte (a : Word) {i : Word} (hi : i.toNat < 32) :
    (a.byte i).toNat = a.toNat / 2 ^ (8 * (31 - i.toNat)) % 256 := by
  unfold byte
  rw [size?_of_lt (Nat.lt_trans hi (by decide))]
  dsimp only
  rw [if_pos hi, toNat_ofUInt64, UInt8.toNat_toUInt64, toNat_byteAt_digit a hi]

theorem byte_of_le (a : Word) {i : Word} (hi : 32 ≤ i.toNat) : a.byte i = zero := by
  unfold byte
  split
  · rename_i n hn
    obtain ⟨rfl, -⟩ := size?_eq_some_iff.1 hn
    exact if_neg (Nat.not_lt.2 hi)
  · rfl

end ParticleChain.Word
