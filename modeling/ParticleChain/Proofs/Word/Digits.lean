import Mathlib.Tactic.Ring
import ParticleChain.Proofs.Word.Bytes

/-!
# Numbers spelled by bytes

`Bytes.toNat` reads a byte string as a number, the most significant byte first. Byte strings of one
size spell different numbers (`toNat_inj`), and the bytes of a word spell its number
(`toNat_toBytes`), so 32 bytes are those of a word just if they spell its number
(`eq_toBytes_iff`).
-/

namespace ParticleChain

namespace Bytes

/-- The number with some bytes as digits. -/
def spelled (l : List UInt8) : Nat := l.foldl (fun n x => n * 256 + x.toNat) 0

theorem toNat_eq_spelled (b : ByteArray) : toNat b = spelled b.data.toList := rfl

theorem foldl_digits (l : List UInt8) (n : Nat) :
    l.foldl (fun n x => n * 256 + x.toNat) n = n * 256 ^ l.length + spelled l := by
  induction l generalizing n with
  | nil => simp [spelled]
  | cons x l ih =>
    have hx : spelled (x :: l) = x.toNat * 256 ^ l.length + spelled l := by
      rw [spelled, List.foldl_cons, ih, Nat.zero_mul, Nat.zero_add]
    rw [List.foldl_cons, ih, hx, List.length_cons, Nat.pow_succ]
    ring

theorem spelled_cons (x : UInt8) (l : List UInt8) :
    spelled (x :: l) = x.toNat * 256 ^ l.length + spelled l := by
  rw [spelled, List.foldl_cons, foldl_digits, Nat.zero_mul, Nat.zero_add]

theorem spelled_lt (l : List UInt8) : spelled l < 256 ^ l.length := by
  induction l with
  | nil => exact Nat.one_pos
  | cons x l ih =>
    have hx : x.toNat + 1 ≤ 256 := x.toNat_lt
    rw [spelled_cons, List.length_cons, Nat.pow_succ, Nat.mul_comm (256 ^ l.length)]
    calc x.toNat * 256 ^ l.length + spelled l < (x.toNat + 1) * 256 ^ l.length := by
          rw [Nat.succ_mul]
          omega
      _ ≤ 256 * 256 ^ l.length := Nat.mul_le_mul_right _ hx

theorem spelled_inj {l l' : List UInt8} (hl : l.length = l'.length)
    (h : spelled l = spelled l') : l = l' := by
  induction l generalizing l' with
  | nil => exact (List.length_eq_zero_iff.1 hl.symm).symm
  | cons x l ih =>
    cases l' with
    | nil => cases hl
    | cons y l' =>
      have hlen : l.length = l'.length := Nat.succ.inj hl
      have hs := spelled_lt l
      have hs' := spelled_lt l'
      have hpos : 0 < 256 ^ l.length := Nat.pow_pos (by decide)
      rw [spelled_cons, spelled_cons, ← hlen] at h
      rw [← hlen] at hs'
      -- The first digit is the quotient by the weight of the others, which are the remainder.
      have hq : x.toNat = y.toNat := by
        have := congrArg (· / 256 ^ l.length) h
        simpa only [Nat.mul_comm _ (256 ^ l.length), Nat.mul_add_div hpos, Nat.div_eq_of_lt hs,
          Nat.div_eq_of_lt hs', Nat.add_zero] using this
      rw [hq] at h
      rw [UInt8.toNat_inj.1 hq, ih hlen (Nat.add_left_cancel h)]

theorem toNat_lt (b : ByteArray) : toNat b < 256 ^ b.size := spelled_lt b.data.toList

theorem toNat_append (a b : ByteArray) : toNat (a ++ b) = toNat a * 256 ^ b.size + toNat b := by
  rw [toNat, ByteArray.data_append, Array.toList_append, List.foldl_append, foldl_digits]
  rfl

theorem toNat_inj {a b : ByteArray} (hs : a.size = b.size) (h : toNat a = toNat b) : a = b :=
  ByteArray.ext (Array.toList_inj.1 (spelled_inj hs h))

/-- One byte over and over. -/
def fill (c : UInt8) (n : Nat) : ByteArray := ⟨Array.replicate n c⟩

theorem size_fill (c : UInt8) (n : Nat) : (fill c n).size = n := Array.size_replicate

/-- The digits `c` make up `c` times the number of ones, which is `(256 ^ n - 1) / 255`. -/
theorem toNat_fill (c : UInt8) (n : Nat) :
    255 * toNat (fill c n) + c.toNat = c.toNat * 256 ^ n := by
  rw [toNat_eq_spelled, fill, Array.toList_replicate]
  induction n with
  | zero => simp [spelled]
  | succ n ih =>
    rw [List.replicate_succ, spelled_cons, List.length_replicate, Nat.mul_add, Nat.add_assoc, ih,
      Nat.pow_succ]
    ring

theorem toNat_fill_zero (n : Nat) : toNat (fill 0 n) = 0 := by
  have h : 255 * toNat (fill 0 n) + 0 = 0 * 256 ^ n := toNat_fill 0 n
  omega

theorem toNat_fill_ones (n : Nat) : toNat (fill 0xff n) + 1 = 256 ^ n := by
  have h : 255 * toNat (fill 0xff n) + 255 = 255 * 256 ^ n := toNat_fill 0xff n
  omega

/-- No byte differs from `c`. -/
theorem any_ne_iff {b : ByteArray} {c : UInt8} :
    b.data.any (· != c) = false ↔ b = fill c b.size := by
  rw [Array.any_eq_false]
  constructor
  · intro h
    refine ByteArray.ext (Array.eq_replicate_iff.2 ⟨rfl, fun x hx => ?_⟩)
    obtain ⟨i, hi, rfl⟩ := Array.getElem_of_mem hx
    exact Decidable.byContradiction fun hne => h i hi (bne_iff_ne.2 hne)
  · intro h i hi hne
    have hx := (Array.eq_replicate_iff.1 (congrArg ByteArray.data h)).2 _ (Array.getElem_mem hi)
    exact bne_iff_ne.1 hne hx

theorem toNat_singleton (x : UInt8) : toNat [x].toByteArray = x.toNat := by
  rw [toNat_eq_spelled, List.data_toByteArray, spelled_cons]
  exact Nat.mul_one x.toNat

/-- One more digit. -/
theorem toNat_extract_succ {b : ByteArray} {i j : Nat} (h : i ≤ j) (hj : j < b.size) :
    toNat (b.extract i (j + 1)) = toNat (b.extract i j) * 256 + (padded b j).toNat := by
  rw [ByteArray.extract_eq_extract_append_extract j h (Nat.le_succ j), toNat_append,
    ByteArray.extract_add_one hj, toNat_singleton, padded, dif_pos hj]
  rfl

theorem toNat_extract_self (b : ByteArray) (i : Nat) : toNat (b.extract i i) = 0 := by
  rw [ByteArray.extract_same]
  rfl

/-- Eight bytes spell the limb that is read from them. -/
theorem toNat_extract_eight {b : ByteArray} {i : Nat} (h : i + 8 ≤ b.size) :
    toNat (b.extract i (i + 8)) = (limbAt b i).toNat := by
  rw [toNat_limbAt, toNat_extract_succ (by omega) (by omega),
    toNat_extract_succ (by omega) (by omega), toNat_extract_succ (by omega) (by omega),
    toNat_extract_succ (by omega) (by omega), toNat_extract_succ (by omega) (by omega),
    toNat_extract_succ (by omega) (by omega), toNat_extract_succ (by omega) (by omega),
    toNat_extract_succ (by omega) (by omega)]
  rw [Nat.add_zero, toNat_extract_self, Nat.zero_mul, Nat.zero_add]

end Bytes

namespace Word

open Bytes (padded limbAt wordAt)

theorem toNat_wordAt {b : ByteArray} (h : b.size = 32) : (wordAt b 0).toNat = Bytes.toNat b := by
  have h0 := Bytes.toNat_extract_eight (b := b) (i := 0) (by omega)
  have h1 := Bytes.toNat_extract_eight (b := b) (i := 8) (by omega)
  have h2 := Bytes.toNat_extract_eight (b := b) (i := 16) (by omega)
  have h3 := Bytes.toNat_extract_eight (b := b) (i := 24) (by omega)
  have hb : b = b.extract 0 8 ++ b.extract 8 16 ++ b.extract 16 24 ++ b.extract 24 32 := by
    rw [← ByteArray.extract_eq_extract_append_extract 8 (by decide) (by decide),
      ← ByteArray.extract_eq_extract_append_extract 16 (by decide) (by decide),
      ← ByteArray.extract_eq_extract_append_extract 24 (by decide) (by decide), ← h,
      ByteArray.extract_zero_size]
  have hsize : ∀ i, i + 8 ≤ 32 → (b.extract i (i + 8)).size = 8 := fun i hi => by
    rw [ByteArray.size_extract]
    omega
  rw [hb, Bytes.toNat_append, Bytes.toNat_append, Bytes.toNat_append, ← hb]
  simp only [Nat.zero_add, Nat.reduceAdd] at h0 h1 h2 h3
  rw [hsize 8 (by decide), hsize 16 (by decide), hsize 24 (by decide), h0, h1, h2, h3]
  simp only [toNat, wordAt, UInt64.size, Nat.zero_add]
  omega

/-- The bytes of limb `3 - q` stand from `8 * q` on. -/
theorem limbAt_toBytes (a : Word) {q : Nat} (hq : q < 4) :
    limbAt a.toBytes (8 * q) = a.limb (3 - q) := by
  have hbyte : ∀ j < 8, (padded a.toBytes (8 * q + j)).toNat =
      (a.limb (3 - q)).toNat / 256 ^ (7 - j) % 256 := fun j hj => by
    rw [padded_toBytes a (by omega), toNat_byteAt, show (8 * q + j) / 8 = q by omega,
      show (8 * q + j) % 8 = j by omega]
  have hlt := (a.limb (3 - q)).toNat_lt
  apply UInt64.toNat_inj.1
  rw [Bytes.toNat_limbAt, ← Nat.add_zero (8 * q), hbyte 0 (by decide), Nat.add_zero,
    hbyte 1 (by decide), hbyte 2 (by decide), hbyte 3 (by decide), hbyte 4 (by decide),
    hbyte 5 (by decide), hbyte 6 (by decide), hbyte 7 (by decide)]
  simp only [Nat.reduceSub, Nat.reducePow]
  omega

theorem wordAt_toBytes (a : Word) : wordAt a.toBytes 0 = a :=
  Word.ext (limbAt_toBytes a (q := 3) (by decide)) (limbAt_toBytes a (q := 2) (by decide))
    (limbAt_toBytes a (q := 1) (by decide)) (limbAt_toBytes a (q := 0) (by decide))

/-- The bytes of a word spell its number. -/
theorem toNat_toBytes (a : Word) : Bytes.toNat a.toBytes = a.toNat := by
  rw [← toNat_wordAt (size_toBytes a), wordAt_toBytes]

theorem eq_toBytes_iff {b : ByteArray} {a : Word} :
    b = a.toBytes ↔ b.size = 32 ∧ Bytes.toNat b = a.toNat := by
  constructor
  · rintro rfl
    exact ⟨size_toBytes a, toNat_toBytes a⟩
  · rintro ⟨hs, hn⟩
    exact Bytes.toNat_inj (hs.trans (size_toBytes a).symm) (hn.trans (toNat_toBytes a).symm)

theorem ofBytes_toBytes (a : Word) : ofBytes a.toBytes = a := by
  rw [← toNat_inj, ← toNat_toBytes, toBytes_ofBytes (size_toBytes a), toNat_toBytes]

end Word

end ParticleChain
