import Mathlib.Logic.Function.Iterate
import Mathlib.Order.Bounds.Basic
import ParticleChain.Proofs.Word.Division
import ParticleChain.Proofs.Word.Limbs

/-!
# Powers

A power takes one turn for each significant bit of the exponent (`pow_eq_turns`). After `i` turns
the base stands at `a ^ 2 ^ i` and the product at `a` to the bits of the exponent below `i`, both
modulo `2 ^ 256` (`PowState.Reached`), so the product is exact once no significant bit is left
(`toNat_pow`). The significant bits and bytes are as few as can hold the number
(`isLeast_bitLength`, `isLeast_byteLength`).
-/

namespace ParticleChain.Word

/-! ## Square and multiply -/

/-- What is at hand between two turns: the place of the next bit of the exponent, the base squared
as often, and the product so far. -/
structure PowState where
  index : Nat
  base : Word
  acc : Word

/-- One turn of square and multiply. -/
def powTurn (e : Word) (s : PowState) : PowState :=
  ⟨s.index + 1, s.base * s.base, if e.bit s.index then s.acc * s.base else s.acc⟩

theorem powBits_eq_turns (e : Word) (i n : Nat) (base acc : Word) :
    powBits e i n base acc = ((powTurn e)^[n] ⟨i, base, acc⟩).acc := by
  induction n generalizing i base acc with
  | zero => rfl
  | succ n ih => rw [powBits, ih, Function.iterate_succ_apply, powTurn]

theorem pow_eq_turns (a e : Word) : a.pow e = ((powTurn e)^[e.bitLength] ⟨0, a, one⟩).acc :=
  powBits_eq_turns e 0 e.bitLength a one

/-- The turns for the bits below the index are done. -/
structure PowState.Reached (a e : Word) (s : PowState) : Prop where
  base : s.base.toNat = a.toNat ^ 2 ^ s.index % modulus
  acc : s.acc.toNat = a.toNat ^ (e.toNat % 2 ^ s.index) % modulus

namespace PowState

variable {a e : Word} {s : PowState}

theorem reached_start (a e : Word) : Reached a e ⟨0, a, one⟩ where
  base := by
    rw [Nat.pow_zero, Nat.pow_one]
    exact (Nat.mod_eq_of_lt a.toNat_lt).symm
  acc := by
    rw [Nat.pow_zero, Nat.mod_one, Nat.pow_zero]
    rfl

theorem Reached.turn (h : s.Reached a e) : (powTurn e s).Reached a e where
  base := by
    show (s.base * s.base).toNat = a.toNat ^ 2 ^ (s.index + 1) % modulus
    rw [toNat_mul, h.base, ← Nat.mul_mod, ← Nat.pow_add, ← Nat.two_mul, ← Nat.pow_succ']
  acc := by
    show (if e.bit s.index then s.acc * s.base else s.acc).toNat =
      a.toNat ^ (e.toNat % 2 ^ (s.index + 1)) % modulus
    rw [mod_two_pow_succ]
    cases e.bit s.index with
    | false => rw [if_neg Bool.false_ne_true, h.acc, Bool.toNat_false, Nat.mul_zero, Nat.zero_add]
    | true =>
      rw [if_pos rfl, toNat_mul, h.acc, h.base, ← Nat.mul_mod, ← Nat.pow_add, Bool.toNat_true,
        Nat.mul_one, Nat.add_comm]

theorem Reached.turns (h : s.Reached a e) (n : Nat) : ((powTurn e)^[n] s).Reached a e := by
  induction n generalizing s with
  | zero => exact h
  | succ n ih => exact ih h.turn

theorem index_turns (e : Word) (s : PowState) (n : Nat) :
    ((powTurn e)^[n] s).index = s.index + n := by
  induction n generalizing s with
  | zero => rfl
  | succ n ih =>
    rw [Function.iterate_succ_apply, ih]
    exact Nat.succ_add_eq_add_succ s.index n

end PowState

theorem toNat_pow (a e : Word) : (a.pow e).toNat = a.toNat ^ e.toNat % modulus := by
  have h := ((PowState.reached_start a e).turns e.bitLength).acc
  rw [PowState.index_turns, Nat.zero_add, Nat.mod_eq_of_lt e.toNat_lt_two_pow_bitLength] at h
  rw [pow_eq_turns, h]

/-! ## Significant bits and bytes -/

theorem isLeast_bitLength (a : Word) : IsLeast {n | a.toNat < 2 ^ n} a.bitLength :=
  ⟨a.toNat_lt_two_pow_bitLength, fun _ h => bitLength_le_iff.2 h⟩

theorem byteLength_le_iff {a : Word} {n : Nat} : a.byteLength ≤ n ↔ a.toNat < 256 ^ n := by
  rw [show 256 = 2 ^ 8 from rfl, ← Nat.pow_mul, ← bitLength_le_iff, byteLength]
  omega

theorem isLeast_byteLength (a : Word) : IsLeast {n | a.toNat < 256 ^ n} a.byteLength :=
  ⟨byteLength_le_iff.1 (Nat.le_refl _), fun _ h => byteLength_le_iff.2 h⟩

theorem byteLength_le (a : Word) : a.byteLength ≤ 32 := byteLength_le_iff.2 a.toNat_lt

end ParticleChain.Word
