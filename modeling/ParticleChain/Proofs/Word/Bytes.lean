import Mathlib.Tactic.IntervalCases
import ParticleChain.Address
import ParticleChain.Proofs.Evm.MemoryBytes

/-!
# Words and their bytes

A limb read from eight bytes is the number they spell (`toNat_limbAt`), so each byte is found again
in it, and 32 bytes are those of the word that they spell (`toBytes_ofBytes`).
-/

namespace ParticleChain

namespace Bytes

/-- Eight more bits below a number. -/
theorem or_shiftLeft {p : Nat} (h : p < 256) (a s : Nat) :
    a <<< (s + 8) ||| p <<< s = (a * 256 + p) <<< s := by
  rw [Nat.add_comm s 8, Nat.shiftLeft_add, ← Nat.shiftLeft_or_distrib,
    ← Nat.shiftLeft_add_eq_or_of_lt h, Nat.shiftLeft_eq a 8]

theorem toNat_shifted (x : UInt8) {s : Nat} (h : s ≤ 56) :
    (x.toUInt64 <<< s.toUInt64).toNat = x.toNat <<< s := by
  have hx := x.toNat_lt
  have hs : s % 2 ^ 64 % 64 = s := by omega
  rw [UInt64.toNat_shiftLeft, UInt8.toNat_toUInt64, Nat.toUInt64, UInt64.toNat_ofNat', hs]
  refine Nat.mod_eq_of_lt ?_
  rw [Nat.shiftLeft_eq]
  calc x.toNat * 2 ^ s < 2 ^ 8 * 2 ^ 56 :=
        Nat.mul_lt_mul_of_lt_of_le hx (Nat.pow_le_pow_right (by decide) h) (by decide)
    _ = 2 ^ 64 := by decide

theorem toNat_limbAt (b : ByteArray) (i : Nat) : (limbAt b i).toNat =
    ((((((((padded b i).toNat * 256 + (padded b (i + 1)).toNat) * 256 +
      (padded b (i + 2)).toNat) * 256 + (padded b (i + 3)).toNat) * 256 +
      (padded b (i + 4)).toNat) * 256 + (padded b (i + 5)).toNat) * 256 +
      (padded b (i + 6)).toNat) * 256 + (padded b (i + 7)).toNat) := by
  have h : ∀ j, (padded b j).toNat < 256 := fun j => UInt8.toNat_lt _
  have h56 (x : UInt8) : (x.toUInt64 <<< 56).toNat = x.toNat <<< 56 := toNat_shifted x (by decide)
  have h48 (x : UInt8) : (x.toUInt64 <<< 48).toNat = x.toNat <<< 48 := toNat_shifted x (by decide)
  have h40 (x : UInt8) : (x.toUInt64 <<< 40).toNat = x.toNat <<< 40 := toNat_shifted x (by decide)
  have h32 (x : UInt8) : (x.toUInt64 <<< 32).toNat = x.toNat <<< 32 := toNat_shifted x (by decide)
  have h24 (x : UInt8) : (x.toUInt64 <<< 24).toNat = x.toNat <<< 24 := toNat_shifted x (by decide)
  have h16 (x : UInt8) : (x.toUInt64 <<< 16).toNat = x.toNat <<< 16 := toNat_shifted x (by decide)
  have h8 (x : UInt8) : (x.toUInt64 <<< 8).toNat = x.toNat <<< 8 := toNat_shifted x (by decide)
  unfold limbAt
  simp only [UInt64.toNat_or, h56, h48, h40, h32, h24, h16, h8, UInt8.toNat_toUInt64]
  rw [or_shiftLeft (h _) _ 48, or_shiftLeft (h _) _ 40, or_shiftLeft (h _) _ 32,
    or_shiftLeft (h _) _ 24, or_shiftLeft (h _) _ 16, or_shiftLeft (h _) _ 8]
  exact or_shiftLeft (h _) _ 0

/-- The bytes of a limb. -/
theorem toUInt8_limbAt (b : ByteArray) (i : Nat) {j : Nat} (hj : j < 8) :
    (limbAt b i >>> (8 * (7 - j)).toUInt64).toUInt8 = padded b (i + j) := by
  have h : ∀ j, (padded b j).toNat < 256 := fun j => UInt8.toNat_lt _
  have hs : (8 * (7 - j)) % 2 ^ 64 % 64 = 8 * (7 - j) := by omega
  apply UInt8.toNat_inj.1
  rw [UInt64.toNat_toUInt8, UInt64.toNat_shiftRight, Nat.toUInt64, UInt64.toNat_ofNat', hs,
    toNat_limbAt, Nat.shiftRight_eq_div_pow]
  have h0 := h i
  have h1 := h (i + 1)
  have h2 := h (i + 2)
  have h3 := h (i + 3)
  have h4 := h (i + 4)
  have h5 := h (i + 5)
  have h6 := h (i + 6)
  have h7 := h (i + 7)
  interval_cases j <;> simp only [Nat.reduceSub, Nat.reduceMul, Nat.add_zero] <;> omega

end Bytes

namespace Word

open Bytes (padded wordAt)

theorem size_toBytes (a : Word) : a.toBytes.size = 32 := by
  simp [toBytes, ByteArray.size]

theorem padded_toBytes (a : Word) {i : Nat} (h : i < 32) : padded a.toBytes i = a.byteAt i := by
  rw [Bytes.padded_eq_getD]
  simp [toBytes, Array.getD, h]

theorem byteAt_wordAt (b : ByteArray) {i : Nat} (h : i < 32) :
    (wordAt b 0).byteAt i = padded b i := by
  have hj : i % 8 < 8 := Nat.mod_lt _ (by decide)
  have hlimb : (wordAt b 0).limb (3 - i / 8) = Bytes.limbAt b (8 * (i / 8)) := by
    have hq : i / 8 < 4 := by omega
    interval_cases i / 8 <;> rfl
  rw [byteAt, hlimb, Bytes.toUInt8_limbAt _ _ hj, Nat.div_add_mod]

/-- Byte strings of one size that agree in every byte. -/
theorem bytes_ext {a b : ByteArray} (hs : a.size = b.size)
    (h : ∀ i < a.size, padded a i = padded b i) : a = b := by
  refine ByteArray.ext (Array.ext hs fun i ha hb => ?_)
  have hi := h i ha
  rw [padded, padded, dif_pos (show i < a.size from ha), dif_pos (show i < b.size from hb)] at hi
  exact hi

theorem toBytes_wordAt {b : ByteArray} (h : b.size = 32) : (wordAt b 0).toBytes = b := by
  refine bytes_ext ((size_toBytes _).trans h.symm) fun i hi => ?_
  rw [size_toBytes] at hi
  rw [padded_toBytes _ hi, byteAt_wordAt _ hi]

/-- As many bytes as a word has are those of the word that they spell. -/
theorem toBytes_ofBytes {b : ByteArray} (h : b.size = 32) : (ofBytes b).toBytes = b := by
  have halign : Bytes.alignRight 32 b = b := by
    rw [Bytes.alignRight, h, show Bytes.zeros (32 - 32) = .empty from rfl, ByteArray.empty_append,
      Nat.sub_self, ← h, ByteArray.extract_zero_size]
  rw [ofBytes, halign, toBytes_wordAt h]

/-- A number with zeros in its last bytes. -/
theorem mod_eq_zero_of_bytes {n k : Nat} (h : ∀ j < k, n / 256 ^ j % 256 = 0) :
    n % 256 ^ k = 0 := by
  induction k with
  | zero => exact Nat.mod_one n
  | succ k ih =>
    rw [Nat.mod_pow_succ, ih fun j hj => h j (Nat.lt_succ_of_lt hj), h k (Nat.lt_succ_self k)]
    rfl

/-- Byte `j` of a limb, counted from the lowest. -/
theorem toNat_byteAt (a : Word) (i : Nat) :
    (a.byteAt i).toNat = (a.limb (3 - i / 8)).toNat / 256 ^ (7 - i % 8) % 256 := by
  have hs : (8 * (7 - i % 8)) % 2 ^ 64 % 64 = 8 * (7 - i % 8) := by omega
  rw [byteAt, UInt64.toNat_toUInt8, UInt64.toNat_shiftRight, Nat.toUInt64, UInt64.toNat_ofNat', hs,
    Nat.shiftRight_eq_div_pow, Nat.pow_mul]

end Word

namespace Address

/-- A word with zeros in the twelve bytes above is that of the address in it. -/
theorem toWord_ofWord {w : Word} (h : ∀ i < 12, w.byteAt i = 0) : (ofWord w).toWord = w := by
  have hbyte : ∀ i < 12, (w.limb (3 - i / 8)).toNat / 256 ^ (7 - i % 8) % 256 = 0 := by
    intro i hi
    rw [← Word.toNat_byteAt, h i hi]
    rfl
  have hw3 : w.w3.toNat % 256 ^ 8 = 0 := Word.mod_eq_zero_of_bytes fun j hj => by
    have := hbyte (7 - j) (by omega)
    rw [show (7 - j) / 8 = 0 by omega, show 7 - (7 - j) % 8 = j by omega] at this
    exact this
  have hw2 : w.w2.toNat / 256 ^ 4 % 256 ^ 4 = 0 := Word.mod_eq_zero_of_bytes fun j hj => by
    have := hbyte (11 - j) (by omega)
    rw [show (11 - j) / 8 = 1 by omega, show 7 - (11 - j) % 8 = 4 + j by omega, Nat.pow_add,
      ← Nat.div_div_eq_div_mul] at this
    exact this
  have h3 := w.w3.toNat_lt
  have h2 := w.w2.toNat_lt
  refine Word.ext rfl rfl (UInt64.toNat_inj.1 ?_) (UInt64.toNat_inj.1 ?_)
  · rw [toWord, ofWord, UInt32.toNat_toUInt64, UInt64.toNat_toUInt32]
    omega
  · change 0 = w.w3.toNat
    omega

theorem size_toBytes (a : Address) : a.toBytes.size = 20 := by
  rw [toBytes, ByteArray.size_extract, Word.size_toBytes]
  rfl

/-- The word of an address has zeros in front. -/
theorem toBytes_toWord (a : Address) : a.toWord.toBytes = Bytes.zeros 12 ++ a.toBytes := by
  refine Word.bytes_ext ?_ fun i hi => ?_
  · rw [Word.size_toBytes, ByteArray.size_append, Bytes.size_zeros, size_toBytes]
  · rw [Word.size_toBytes] at hi
    rw [Bytes.padded_append, Bytes.size_zeros, Bytes.padded_zeros, toBytes, Bytes.padded_extract]
    split
    · have h2 := a.a2.toNat_lt
      rw [Word.padded_toBytes _ hi]
      apply UInt8.toNat_inj.1
      rw [Word.toNat_byteAt]
      obtain h | h : i / 8 = 0 ∨ i / 8 = 1 ∧ i % 8 < 4 := by omega
      · rw [h]
        change 0 / _ % 256 = 0
        rw [Nat.zero_div]
      · have hlimb : (a.toWord.limb (3 - i / 8)).toNat < 256 ^ (7 - i % 8) := by
          rw [h.1]
          calc a.a2.toUInt64.toNat < 256 ^ 4 := by rwa [UInt32.toNat_toUInt64]
            _ ≤ 256 ^ (7 - i % 8) := Nat.pow_le_pow_right (by decide) (by omega)
        rw [Nat.div_eq_of_lt hlimb]
        rfl
    · rw [if_pos (by omega), Nat.add_sub_cancel' (by omega)]

end Address

end ParticleChain
