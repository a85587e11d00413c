import ParticleChain.Proofs.Word.Carry
import ParticleChain.Proofs.Word.Shifts

/-!
# Bits of words and of their numbers

Limb `i / 64` of a word holds bit `i` of its number (`testBit_toNat`). So a bit of a word is that
bit of the number (`bit_eq_testBit`), words are joined bit by bit as their numbers are
(`toNat_or`), and the significant bits of a word are those of the number (`bitLength_le_iff`).
-/

namespace ParticleChain.Word

/-- Bits of a number of which the lowest limb is split off. -/
theorem testBit_digit (x : UInt64) (high i : Nat) :
    (x.toNat + UInt64.size * high).testBit i =
      if i < 64 then x.toNat.testBit i else high.testBit (i - 64) := by
  rw [Nat.add_comm]
  exact Nat.testBit_two_pow_mul_add high x.toNat_lt i

theorem testBit_toNat (a : Word) (i : Nat) :
    a.toNat.testBit i = (a.limb (i / 64)).toNat.testBit (i % 64) := by
  have hlast (x : UInt64) : x.toNat = x.toNat + UInt64.size * 0 := rfl
  rw [toNat, hlast a.w3]
  simp only [testBit_digit, Nat.zero_testBit]
  obtain hq | hq | hq | hq | hq :
    i / 64 = 0 ∨ i / 64 = 1 ∨ i / 64 = 2 ∨ i / 64 = 3 ∨ 4 ≤ i / 64 := by omega
  · rw [hq, if_pos (by omega), show i % 64 = i by omega]
    rfl
  · rw [hq, if_neg (by omega), if_pos (by omega), show i % 64 = i - 64 by omega]
    rfl
  · rw [hq, if_neg (by omega), if_neg (by omega), if_pos (by omega),
      show i % 64 = i - 64 - 64 by omega]
    rfl
  · rw [hq, if_neg (by omega), if_neg (by omega), if_neg (by omega), if_pos (by omega),
      show i % 64 = i - 64 - 64 - 64 by omega]
    rfl
  · obtain ⟨q, hq⟩ : ∃ q, i / 64 = q + 4 := ⟨i / 64 - 4, by omega⟩
    rw [hq, if_neg (by omega), if_neg (by omega), if_neg (by omega), if_neg (by omega)]
    exact (Nat.zero_testBit _).symm

theorem bit_eq_testBit (a : Word) (i : Nat) : a.bit i = a.toNat.testBit i := by
  have hk : i % 64 < 64 := Nat.mod_lt _ (by decide)
  have hbit (x : UInt64) :
      (x >>> (i % 64).toUInt64 &&& 1).toNat = (x.toNat.testBit (i % 64)).toNat := by
    rw [UInt64.toNat_and, UInt64.toNat_shiftRight, toUInt64_toNat_of_lt hk, Nat.mod_eq_of_lt hk,
      Nat.shiftRight_eq_div_pow, Nat.toNat_testBit]
    exact Nat.and_one_is_mod _
  rw [bit, testBit_toNat, Bool.eq_iff_iff, beq_iff_eq, ← UInt64.toNat_inj, hbit]
  exact Bool.toNat_eq_one

theorem limb_or (a b : Word) (k : Nat) : (a ||| b).limb k = a.limb k ||| b.limb k := by
  match k with
  | 0 | 1 | 2 | 3 => rfl
  | k + 4 => exact (UInt64.or_self (a := 0)).symm

theorem toNat_or (a b : Word) : (a ||| b).toNat = a.toNat ||| b.toNat := by
  refine Nat.eq_of_testBit_eq fun i => ?_
  rw [Nat.testBit_or, testBit_toNat, testBit_toNat, testBit_toNat, limb_or, UInt64.toNat_or,
    Nat.testBit_or]

theorem limb_and (a b : Word) (k : Nat) : (a &&& b).limb k = a.limb k &&& b.limb k := by
  match k with
  | 0 | 1 | 2 | 3 => rfl
  | k + 4 => exact (UInt64.and_self (a := 0)).symm

theorem toNat_and (a b : Word) : (a &&& b).toNat = a.toNat &&& b.toNat := by
  refine Nat.eq_of_testBit_eq fun i => ?_
  rw [Nat.testBit_and, testBit_toNat, testBit_toNat, testBit_toNat, limb_and, UInt64.toNat_and,
    Nat.testBit_and]

theorem toNat_ofBit {i : Nat} (h : i < 256) : (ofBit i).toNat = 2 ^ i := by
  have hk : i % 64 < 64 := Nat.mod_lt _ (by decide)
  have hone : ((1 : UInt64) <<< (i % 64).toUInt64).toNat = 2 ^ (i % 64) := by
    rw [UInt64.toNat_shiftLeft, toUInt64_toNat_of_lt hk, Nat.mod_eq_of_lt hk, UInt64.toNat_one,
      Nat.one_shiftLeft]
    exact Nat.mod_eq_of_lt (Nat.pow_lt_pow_right (by decide) hk)
  have hpow : 2 ^ i = UInt64.size ^ (i / 64) * 2 ^ (i % 64) := by
    rw [show UInt64.size = 2 ^ 64 from rfl, ← Nat.pow_mul, ← Nat.pow_add, Nat.div_add_mod]
  rw [hpow]
  unfold ofBit
  obtain hq | hq | hq | hq : i / 64 = 0 ∨ i / 64 = 1 ∨ i / 64 = 2 ∨ i / 64 = 3 := by omega
  all_goals
    rw [hq]
    simp only [toNat, hone, UInt64.toNat_zero]
    generalize 2 ^ (i % 64) = p
    simp only [UInt64.size]
    omega

/-- Setting a bit that the number does not have, nor any lower one, adds the power of two. -/
theorem toNat_or_ofBit {q : Word} {i : Nat} (h : i < 256) (hq : 2 ^ (i + 1) ∣ q.toNat) :
    (q ||| ofBit i).toNat = q.toNat + 2 ^ i := by
  obtain ⟨k, hk⟩ := hq
  rw [toNat_or, toNat_ofBit h, hk]
  exact (Nat.two_pow_add_eq_or_of_lt (Nat.pow_lt_pow_succ (by decide)) k).symm

theorem toNat_or_one {a : Word} (h : 2 ∣ a.toNat) : (a ||| one).toNat = a.toNat + 1 :=
  toNat_or_ofBit (i := 0) (by decide) h

/-- Adding a word to itself moves it up by one bit, and the carry is the bit that gets lost. -/
theorem addCarry_self (a : Word) : addCarry a a = (a <<< 1, a.bit 255) := by
  have hsum := toNat_addCarry a a
  have hlt := toNat_lt (addCarry a a).1
  have hcarry := Bool.toNat_le (addCarry a a).2
  have hshift := toNat_shiftLeft a 1
  have hbit := Nat.toNat_testBit a.toNat 255
  have ha := a.toNat_lt
  rw [← bit_eq_testBit] at hbit
  simp only [modulus, Nat.reducePow] at hsum hlt hshift hbit ha
  refine Prod.ext (toNat_inj.1 ?_) ?_ <;> dsimp only
  · omega
  · rw [Bool.eq_iff_iff, ← Bool.toNat_eq_one, ← Bool.toNat_eq_one]
    omega

/-! ## Significant bits -/

/-- The highest bit of a number is that of its upper digit. -/
theorem log2_digit {low x s : Nat} (hlow : low < 2 ^ s) (hx : x ≠ 0) :
    (low + 2 ^ s * x).log2 = s + x.log2 := by
  obtain ⟨hle, hlt⟩ := (Nat.log2_eq_iff hx).1 rfl
  have hn : low + 2 ^ s * x ≠ 0 := by
    have := Nat.mul_pos (Nat.two_pow_pos s) (Nat.pos_of_ne_zero hx)
    omega
  rw [Nat.log2_eq_iff hn]
  constructor
  · calc 2 ^ (s + x.log2) = 2 ^ s * 2 ^ x.log2 := Nat.pow_add ..
      _ ≤ 2 ^ s * x := Nat.mul_le_mul_left _ hle
      _ ≤ low + 2 ^ s * x := Nat.le_add_left ..
  · calc low + 2 ^ s * x < 2 ^ s * (x + 1) := by
          rw [Nat.mul_succ]
          omega
      _ ≤ 2 ^ s * 2 ^ (x.log2 + 1) := Nat.mul_le_mul_left _ hlt
      _ = 2 ^ (s + x.log2 + 1) := (Nat.pow_add 2 s _).symm

theorem log2_digit_lt_iff {low x s n k : Nat} (hlow : low < 2 ^ s) (hx : x ≠ 0)
    (hn : n = low + 2 ^ s * x) : s + x.log2 + 1 ≤ k ↔ n < 2 ^ k := by
  have hpos : n ≠ 0 := by
    have := Nat.mul_pos (Nat.two_pow_pos s) (Nat.pos_of_ne_zero hx)
    omega
  rw [← Nat.log2_lt hpos, hn, log2_digit hlow hx]
  exact Iff.rfl

theorem bitLength_le_iff {a : Word} {k : Nat} : a.bitLength ≤ k ↔ a.toNat < 2 ^ k := by
  have hne : ∀ x : UInt64, (x != 0) = true → x.toNat ≠ 0 := fun x hx h =>
    bne_iff_ne.1 hx (UInt64.toNat_inj.1 h)
  have hz : ∀ x : UInt64, ¬ (x != 0) = true → x.toNat = 0 := fun x hx => by
    rw [Decidable.byContradiction fun h => hx (bne_iff_ne.2 h)]
    rfl
  have h0 := a.w0.toNat_lt
  have h1 := a.w1.toNat_lt
  have h2 := a.w2.toNat_lt
  have hn : a.toNat = a.w0.toNat + 2 ^ 64 * a.w1.toNat + 2 ^ 128 * a.w2.toNat +
      2 ^ 192 * a.w3.toNat := by
    simp only [toNat, UInt64.size]
    omega
  -- The highest limb that is not zero has the highest bit; the limbs below are the lower digit.
  unfold bitLength
  split
  · rename_i h3
    exact log2_digit_lt_iff (by omega) (hne _ h3) hn
  rename_i h3
  rw [hz _ h3, Nat.mul_zero, Nat.add_zero] at hn
  split
  · rename_i h2
    exact log2_digit_lt_iff (by omega) (hne _ h2) hn
  rename_i h2
  rw [hz _ h2, Nat.mul_zero, Nat.add_zero] at hn
  split
  · rename_i h1
    exact log2_digit_lt_iff h0 (hne _ h1) hn
  rename_i h1
  rw [hz _ h1, Nat.mul_zero, Nat.add_zero] at hn
  rw [hn]
  split
  · rename_i h0
    exact Nat.log2_lt (hne _ h0)
  · rename_i h0
    rw [hz _ h0]
    exact iff_of_true (Nat.zero_le k) (Nat.two_pow_pos k)

theorem toNat_lt_two_pow_bitLength (a : Word) : a.toNat < 2 ^ a.bitLength :=
  bitLength_le_iff.1 (Nat.le_refl _)

theorem bitLength_le (a : Word) : a.bitLength ≤ 256 := bitLength_le_iff.2 a.toNat_lt

end ParticleChain.Word
