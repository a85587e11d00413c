import Mathlib.Data.Nat.ModEq
import Mathlib.Tactic.Ring
import ParticleChain.Proofs.Word.Carry

/-!
# Limb by limb is modulo `2 ^ 256`

A product is made in rows: each limb of one factor is multiplied by the other factor and added to
what the rows before have left, one limb further up each time, and limbs beyond the fourth are cut
off. A row and all rows are exact modulo the limbs that they have room for
(`numeral_accumulateRow`, `numeral_accumulateRows`), for no accumulator on the way overflows
(`Wide.toNat_accumulate`). With the carries and borrows of sums and differences that gives
`limb_arithmetic_exact`.
-/

namespace ParticleChain

theorem Wide.toNat_lt (a : Wide) : a.toNat < 2 ^ 128 := by
  have hlow := a.low.toNat_lt
  have hhigh := a.high.toNat_lt
  simp only [toNat, UInt64.size]
  omega

namespace Word

/-! ## Products -/

/-- The number that limbs spell, the lowest one first. -/
def numeral : List UInt64 → Nat
  | [] => 0
  | x :: xs => x.toNat + UInt64.size * numeral xs

/-- One row of a product: the limbs `ys` times `x` on top of those that are there already, as far as
these go. -/
def accumulateRow (x : UInt64) : List UInt64 → List UInt64 → UInt64 → List UInt64
  | old :: olds, y :: ys, carry =>
    let w := Wide.accumulate old x y carry
    w.low :: accumulateRow x olds ys w.high
  | _, _, _ => []

/-- The rows of a product, each one limb above the one before. -/
def accumulateRows : List UInt64 → List UInt64 → List UInt64 → List UInt64
  | [], _, olds => olds
  | x :: xs, ys, olds =>
    match accumulateRow x olds ys 0 with
    | [] => []
    | p :: ps => p :: accumulateRows xs ys ps

theorem length_accumulateRow (x : UInt64) {olds ys : List UInt64} (h : olds.length ≤ ys.length)
    (carry : UInt64) : (accumulateRow x olds ys carry).length = olds.length := by
  induction olds generalizing ys carry with
  | nil => rfl
  | cons old olds ih =>
    cases ys with
    | nil => cases h
    | cons y ys => exact congrArg Nat.succ (ih (Nat.le_of_succ_le_succ h) _)

/-- A limb that is kept and a number that is exact above it. -/
theorem numeral_cons_modEq (x : UInt64) {xs : List UInt64} {n k : Nat}
    (h : numeral xs ≡ n [MOD UInt64.size ^ k]) :
    numeral (x :: xs) ≡ x.toNat + UInt64.size * n [MOD UInt64.size ^ (k + 1)] := by
  rw [Nat.pow_succ']
  exact (h.mul_left' UInt64.size).add_left x.toNat

theorem numeral_accumulateRow (x : UInt64) {olds ys : List UInt64}
    (h : olds.length ≤ ys.length) (carry : UInt64) :
    numeral (accumulateRow x olds ys carry) ≡
      numeral olds + x.toNat * numeral ys + carry.toNat [MOD UInt64.size ^ olds.length] := by
  induction olds generalizing ys carry with
  | nil => exact Nat.modEq_one
  | cons old olds ih =>
    cases ys with
    | nil => cases h
    | cons y ys =>
      have hw : (Wide.accumulate old x y carry).low.toNat +
          UInt64.size * (Wide.accumulate old x y carry).high.toNat =
            old.toNat + x.toNat * y.toNat + carry.toNat := Wide.toNat_accumulate old x y carry
      have hsum : numeral (old :: olds) + x.toNat * numeral (y :: ys) + carry.toNat =
          (Wide.accumulate old x y carry).low.toNat + UInt64.size *
            (numeral olds + x.toNat * numeral ys + (Wide.accumulate old x y carry).high.toNat) := by
        calc _ = old.toNat + x.toNat * y.toNat + carry.toNat +
                UInt64.size * (numeral olds + x.toNat * numeral ys) := by
              rw [numeral, numeral]
              ring
          _ = _ := by
              rw [← hw]
              ring
      rw [hsum]
      exact numeral_cons_modEq _ (ih (Nat.le_of_succ_le_succ h) _)

theorem numeral_accumulateRows (xs : List UInt64) {olds ys : List UInt64}
    (h : olds.length ≤ ys.length) :
    numeral (accumulateRows xs ys olds) ≡
      numeral olds + numeral xs * numeral ys [MOD UInt64.size ^ olds.length] := by
  induction xs generalizing olds with
  | nil =>
    rw [numeral, Nat.zero_mul]
    rfl
  | cons x xs ih =>
    have hrow := numeral_accumulateRow x h 0
    have hlen := length_accumulateRow x h 0
    unfold accumulateRows
    cases hr : accumulateRow x olds ys 0 with
    | nil =>
      rw [hr] at hlen
      rw [← hlen]
      exact Nat.modEq_one
    | cons p ps =>
      rw [hr] at hrow hlen
      rw [← hlen] at hrow h ⊢
      refine (numeral_cons_modEq p (ih (Nat.le_of_succ_le h))).trans ?_
      calc p.toNat + UInt64.size * (numeral ps + numeral xs * numeral ys)
          = numeral (p :: ps) + UInt64.size * numeral xs * numeral ys := by
            rw [numeral]
            ring
        _ ≡ numeral olds + x.toNat * numeral ys + (0 : UInt64).toNat +
              UInt64.size * numeral xs * numeral ys [MOD UInt64.size ^ (p :: ps).length] :=
            hrow.add_right _
        _ = numeral olds + numeral (x :: xs) * numeral ys := by
            rw [numeral, UInt64.toNat_zero]
            ring

/-- The limbs of a word, the lowest one first. -/
def limbs (a : Word) : List UInt64 := [a.w0, a.w1, a.w2, a.w3]

theorem numeral_limbs (a : Word) : numeral a.limbs = a.toNat := rfl

theorem limbs_mul (a b : Word) : (a * b).limbs = accumulateRows a.limbs b.limbs zero.limbs := rfl

theorem toNat_mul (a b : Word) : (a * b).toNat = a.toNat * b.toNat % modulus := by
  have h : numeral (accumulateRows a.limbs b.limbs zero.limbs) ≡
      numeral zero.limbs + numeral a.limbs * numeral b.limbs [MOD UInt64.size ^ 4] :=
    numeral_accumulateRows a.limbs (Nat.le_refl 4)
  rw [← limbs_mul, numeral_limbs, numeral_limbs, numeral_limbs, numeral_limbs, toNat_zero,
    Nat.zero_add] at h
  rw [← Nat.mod_eq_of_lt (a * b).toNat_lt]
  exact h

/-! ## Sums, differences and complements -/

theorem toNat_add (a b : Word) : (a + b).toNat = (a.toNat + b.toNat) % modulus := by
  rw [← toNat_addCarry, Nat.add_mul_mod_self_left, Nat.mod_eq_of_lt (toNat_lt _)]
  rfl

/-- The difference of the numbers may be negative. -/
theorem toNat_sub (a b : Word) : ((a - b).toNat : Int) = (a.toNat - b.toNat) % modulus := by
  have h := toNat_subBorrow a b
  have hlt := toNat_lt (a - b)
  change (a - b).toNat + b.toNat = _ at h
  have hdiff : (a.toNat - b.toNat : Int) = (a - b).toNat - modulus * (subBorrow a b).2.toNat := by
    omega
  rw [hdiff, Int.sub_mul_emod_self_left]
  exact (Int.emod_eq_of_lt (Int.natCast_nonneg _) (Int.ofNat_lt.2 hlt)).symm

theorem toNat_not (a : Word) : (~~~a).toNat + a.toNat + 1 = modulus := by
  have h0 := a.w0.toNat_lt
  have h1 := a.w1.toNat_lt
  have h2 := a.w2.toNat_lt
  have h3 := a.w3.toNat_lt
  change (⟨~~~a.w0, ~~~a.w1, ~~~a.w2, ~~~a.w3⟩ : Word).toNat + a.toNat + 1 = _
  simp only [toNat, UInt64.toNat_not, UInt64.size, modulus]
  omega

theorem toNat_neg (a : Word) : (-a).toNat = (modulus - a.toNat) % modulus := by
  have h := toNat_not a
  rw [show -a = ~~~a + one from rfl, toNat_add, toNat_one]
  congr 1
  omega

/-- Sums, differences, products, negatives and the order of words are those of their numbers modulo
`2 ^ 256`; the flags of a sum and of a difference say whether it has wrapped, and what is gathered
in an accumulator is below `2 ^ 128`. -/
theorem limb_arithmetic_exact (a b : Word) :
    ((addCarry a b).1.toNat = (a.toNat + b.toNat) % 2 ^ 256 ∧
      ((addCarry a b).2 = true ↔ 2 ^ 256 ≤ a.toNat + b.toNat)) ∧
    (((subBorrow a b).1.toNat : Int) = (a.toNat - b.toNat) % 2 ^ 256 ∧
      ((subBorrow a b).2 = true ↔ a.toNat < b.toNat)) ∧
    ((a * b).toNat = a.toNat * b.toNat % 2 ^ 256 ∧
      ∀ old x y carry : UInt64, (Wide.accumulate old x y carry).toNat =
        old.toNat + x.toNat * y.toNat + carry.toNat ∧
        old.toNat + x.toNat * y.toNat + carry.toNat < 2 ^ 128) ∧
    (-a).toNat = (2 ^ 256 - a.toNat) % 2 ^ 256 ∧
    cmp a b = compare a.toNat b.toNat := by
  refine ⟨⟨toNat_add a b, ?_⟩, ⟨toNat_sub a b, ?_⟩, ⟨toNat_mul a b, ?_⟩, toNat_neg a,
    cmp_eq_compare_toNat a b⟩
  · rw [← Bool.not_eq_false, addCarry_snd_eq_false_iff, Nat.not_lt]
    rfl
  · rw [← Bool.not_eq_false, subBorrow_snd_eq_false_iff, Nat.not_le]
  · intro old x y carry
    have h := Wide.toNat_accumulate old x y carry
    exact ⟨h, h ▸ Wide.toNat_lt _⟩

end Word

end ParticleChain
