import Mathlib.Tactic.Ring
import ParticleChain.Proofs.Word.Bits
import ParticleChain.Word.Division

/-!
# Long division and arithmetic modulo a word

The loops behind division and multiplication modulo a word take one bit after another, from the
top. The remainder of a division loses its highest bit when it is shifted (`divideBits_succ`), a sum
below a modulus may wrap. But before each comparison the whole number of up to 257 bits stands in a
word and a carry (`carry_or_le_iff`, `toNat_sub_of_carry`), so nothing is lost however large the
divisor is. The main results are `divMod_exact` and `modular_exact`.
-/

namespace ParticleChain.Word

/-! ## Numbers with a carry -/

section

variable {s d : Word} {carry : Bool} {t : Nat}

/-- With the carry at hand, comparing words is comparing the numbers. -/
theorem carry_or_le_iff (h : s.toNat + modulus * carry.toNat = t) :
    (carry || d.le s) = true ↔ d.toNat ≤ t := by
  have hd := d.toNat_lt
  cases carry with
  | false =>
    rw [Bool.false_or, le_iff, ← h, Bool.toNat_false, Nat.mul_zero, Nat.add_zero]
  | true =>
    rw [Bool.toNat_true] at h
    exact iff_of_true (Bool.true_or _) (by omega)

/-- The borrow of the difference makes up for the carry. -/
theorem toNat_sub_of_carry (h : s.toNat + modulus * carry.toNat = t) (hle : d.toNat ≤ t)
    (hlt : t < d.toNat + modulus) : (s - d).toNat = t - d.toNat := by
  have hs := toNat_subBorrow s d
  have hdiff := toNat_lt (subBorrow s d).1
  change (subBorrow s d).1.toNat = _
  have hcarry := Bool.toNat_le carry
  have hborrow := Bool.toNat_le (subBorrow s d).2
  simp only [modulus] at *
  omega

end

/-! ## Division -/

/-- One turn of the loop: the remainder is shifted by one bit, and the bit that it loses counts in
the comparison. -/
theorem divideBits_succ (n d : Word) (i : Nat) (q r : Word) :
    divideBits n d (i + 1) q r =
      let s := if n.bit i then r <<< 1 ||| one else r <<< 1
      if r.bit 255 || d.le s then divideBits n d i (q ||| ofBit i) (s - d)
      else divideBits n d i q s := by
  rw [divideBits, addCarry_self]

/-- Twice a remainder with the next bit of the dividend below. -/
theorem toNat_shiftIn (r : Word) (b : Bool) :
    (if b then r <<< 1 ||| one else r <<< 1).toNat + modulus * (r.bit 255).toNat =
      2 * r.toNat + b.toNat := by
  have hsum := toNat_addCarry r r
  rw [addCarry_self] at hsum
  dsimp only at hsum
  cases b with
  | false =>
    rw [if_neg Bool.false_ne_true, hsum, Bool.toNat_false]
    omega
  | true =>
    have heven : 2 ∣ (r <<< 1).toNat := by
      simp only [modulus] at hsum
      omega
    rw [if_pos rfl, toNat_or_one heven, Bool.toNat_true]
    omega

/-- The bits below `i + 1`: bit `i` and those below it. -/
theorem mod_two_pow_succ (n : Word) (i : Nat) :
    n.toNat % 2 ^ (i + 1) = 2 ^ i * (n.bit i).toNat + n.toNat % 2 ^ i := by
  rw [bit_eq_testBit, Nat.toNat_testBit, Nat.mod_pow_succ, Nat.add_comm]

/-- What the loop comes to from a quotient whose bits below `i` are free and a remainder below the
divisor: the bits of the dividend that are still to come are brought in. -/
theorem divideBits_exact {n d : Word} {i : Nat} (hi : i ≤ 256) {q r : Word} (hq : 2 ^ i ∣ q.toNat)
    (hr : r.toNat < d.toNat) :
    (divideBits n d i q r).1.toNat * d.toNat + (divideBits n d i q r).2.toNat =
        q.toNat * d.toNat + 2 ^ i * r.toNat + n.toNat % 2 ^ i ∧
      (divideBits n d i q r).2.toNat < d.toNat := by
  induction i generalizing q r with
  | zero =>
    rw [divideBits, Nat.pow_zero, Nat.one_mul, Nat.mod_one]
    exact ⟨rfl, hr⟩
  | succ i ih =>
    have ht := toNat_shiftIn r (n.bit i)
    have hd := d.toNat_lt
    have hbit := Bool.toNat_le (n.bit i)
    have hlow : 2 ^ i ∣ 2 ^ (i + 1) := Nat.pow_dvd_pow 2 (Nat.le_succ i)
    rw [mod_two_pow_succ, divideBits_succ]
    dsimp only
    generalize (if n.bit i then r <<< 1 ||| one else r <<< 1) = s at ht ⊢
    split
    · rename_i hc
      have hle := (carry_or_le_iff ht).1 hc
      have hsub := toNat_sub_of_carry ht hle (by omega)
      have hset := toNat_or_ofBit hi hq
      obtain ⟨hexact, hbelow⟩ := ih (Nat.le_of_lt hi) (q := q ||| ofBit i)
        (by rw [hset]; exact Nat.dvd_add (hlow.trans hq) (Nat.dvd_refl _)) (by rw [hsub]; omega)
      refine ⟨hexact.trans ?_, hbelow⟩
      obtain ⟨k, hk⟩ := Nat.exists_eq_add_of_le hle
      rw [hset, hsub, hk, Nat.add_sub_cancel_left]
      calc (q.toNat + 2 ^ i) * d.toNat + 2 ^ i * k + n.toNat % 2 ^ i
          = q.toNat * d.toNat + 2 ^ i * (d.toNat + k) + n.toNat % 2 ^ i := by ring
        _ = q.toNat * d.toNat + 2 ^ i * (2 * r.toNat + (n.bit i).toNat) + n.toNat % 2 ^ i := by
            rw [hk]
        _ = _ := by ring
    · rename_i hc
      have hlt := Nat.not_le.1 (mt (carry_or_le_iff ht).2 hc)
      have hword : s.toNat = 2 * r.toNat + (n.bit i).toNat := by
        simp only [modulus] at ht hd
        omega
      obtain ⟨hexact, hbelow⟩ := ih (Nat.le_of_lt hi) (hlow.trans hq) (by rw [hword]; exact hlt)
      refine ⟨hexact.trans ?_, hbelow⟩
      rw [hword]
      ring

theorem pos_iff {a : Word} : 0 < a.toNat ↔ a ≠ zero := by
  rw [Nat.pos_iff_ne_zero, ne_eq, ne_eq, ← toNat_inj, toNat_zero]

theorem divMod_of_pos {d : Word} (hd : 0 < d.toNat) (n : Word) :
    (divMod n d).1.toNat * d.toNat + (divMod n d).2.toNat = n.toNat ∧
      (divMod n d).2.toNat < d.toNat := by
  unfold divMod
  rw [if_neg fun hz => pos_iff.1 hd (isZero_iff.1 hz)]
  split
  · rename_i hlt
    rw [toNat_zero, Nat.zero_mul, Nat.zero_add]
    exact ⟨rfl, lt_iff.1 hlt⟩
  · have h := divideBits_exact (n := n) (q := zero) (r := zero) n.bitLength_le (Nat.dvd_zero _) hd
    rwa [toNat_zero, Nat.zero_mul, Nat.mul_zero, Nat.zero_add,
      Nat.mod_eq_of_lt n.toNat_lt_two_pow_bitLength] at h

/-- Long division is exact, for divisors of `2 ^ 255` and above too; both results are zero for a
zero divisor. -/
theorem divMod_exact (n d : Word) :
    (d = zero → divMod n d = (zero, zero)) ∧
    (d ≠ zero → (divMod n d).1.toNat * d.toNat + (divMod n d).2.toNat = n.toNat ∧
      (divMod n d).2.toNat < d.toNat) :=
  ⟨fun hd => if_pos (isZero_iff.2 hd), fun hd => divMod_of_pos (pos_iff.2 hd) n⟩

/-- The divisor is all but the largest word, so the remainder outgrows 256 bits on the way. -/
theorem divMod_exact_max :
    divMod max zero = (zero, zero) ∧ max - one ≠ zero ∧
    (divMod max (max - one)).1.toNat = 1 ∧ (divMod max (max - one)).2.toNat = 1 := by
  have hne : max - one ≠ zero := by decide
  obtain ⟨hexact, hlt⟩ := (divMod_exact max (max - one)).2 hne
  have hd : (max - one).toNat = modulus - 2 := by decide
  have hn : max.toNat = modulus - 1 := by decide
  rw [hd] at hexact hlt
  rw [hn] at hexact
  generalize divMod max (max - one) = qr at hexact hlt ⊢
  simp only [modulus, Nat.reduceSub] at hexact hlt
  refine ⟨(divMod_exact max zero).1 rfl, hne, ?_, ?_⟩ <;> omega

theorem toNat_mod {n d : Word} (hd : 0 < d.toNat) : (n % d).toNat = n.toNat % d.toNat := by
  obtain ⟨hexact, hlt⟩ := divMod_of_pos hd n
  rw [← hexact, Nat.add_comm, Nat.mul_comm, Nat.add_mul_mod_self_left]
  exact (Nat.mod_eq_of_lt hlt).symm

theorem toNat_div {n d : Word} (hd : 0 < d.toNat) : (n / d).toNat = n.toNat / d.toNat := by
  obtain ⟨hexact, hlt⟩ := divMod_of_pos hd n
  rw [← hexact, Nat.mul_comm, Nat.mul_add_div hd, Nat.div_eq_of_lt hlt]
  rfl

theorem mod_lt (n : Word) {d : Word} (hd : 0 < d.toNat) : (n % d).toNat < d.toNat :=
  (divMod_of_pos hd n).2

/-! ## Sums and products modulo a word -/

theorem toNat_addBelow {a b m : Word} (ha : a.toNat < m.toNat) (hb : b.toNat < m.toNat) :
    (addBelow a b m).toNat = (a.toNat + b.toNat) % m.toNat := by
  have ht := toNat_addCarry a b
  have hm := m.toNat_lt
  unfold addBelow
  dsimp only
  split
  · rename_i hc
    have hle := (carry_or_le_iff ht).1 hc
    rw [toNat_sub_of_carry ht hle (by omega), Nat.mod_eq_sub_mod hle]
    exact (Nat.mod_eq_of_lt (by omega)).symm
  · rename_i hc
    have hlt := Nat.not_le.1 (mt (carry_or_le_iff ht).2 hc)
    have hcarry : (addCarry a b).2 = false := addCarry_snd_eq_false_iff.2 (Nat.lt_trans hlt hm)
    rw [Nat.mod_eq_of_lt hlt, ← ht, hcarry]
    rfl

/-- Horner's scheme: the bits of `b` that are still to come are brought in. -/
theorem toNat_mulModBits {a b m : Word} (ha : a.toNat < m.toNat) {i : Nat} {acc : Word}
    (hacc : acc.toNat < m.toNat) :
    (mulModBits a b m i acc).toNat =
      (2 ^ i * acc.toNat + a.toNat * (b.toNat % 2 ^ i)) % m.toNat := by
  have hm : 0 < m.toNat := Nat.zero_lt_of_lt ha
  induction i generalizing acc with
  | zero =>
    rw [mulModBits, Nat.pow_zero, Nat.one_mul, Nat.mod_one, Nat.mul_zero, Nat.add_zero]
    exact (Nat.mod_eq_of_lt hacc).symm
  | succ i ih =>
    have htwice := toNat_addBelow hacc hacc
    have hnext : (if b.bit i then addBelow (addBelow acc acc m) a m else addBelow acc acc m).toNat =
        (2 * acc.toNat + a.toNat * (b.bit i).toNat) % m.toNat := by
      cases b.bit i with
      | false =>
        rw [if_neg Bool.false_ne_true, htwice, Bool.toNat_false, Nat.mul_zero, Nat.add_zero,
          Nat.two_mul]
      | true =>
        rw [if_pos rfl, toNat_addBelow (by rw [htwice]; exact Nat.mod_lt _ hm) ha, htwice,
          Bool.toNat_true, Nat.mul_one, Nat.mod_add_mod, Nat.two_mul]
    rw [mulModBits, ih (by rw [hnext]; exact Nat.mod_lt _ hm), hnext, mod_two_pow_succ]
    calc (2 ^ i * ((2 * acc.toNat + a.toNat * (b.bit i).toNat) % m.toNat) +
            a.toNat * (b.toNat % 2 ^ i)) % m.toNat
        = (2 ^ i * (2 * acc.toNat + a.toNat * (b.bit i).toNat) +
            a.toNat * (b.toNat % 2 ^ i)) % m.toNat := by
          rw [Nat.add_mod, Nat.mul_mod_mod, ← Nat.add_mod]
      _ = (2 ^ (i + 1) * acc.toNat +
            a.toNat * (2 ^ i * (b.bit i).toNat + b.toNat % 2 ^ i)) % m.toNat := by
          congr 1
          ring

theorem toNat_addMod {a b m : Word} (hm : 0 < m.toNat) :
    (addMod a b m).toNat = (a.toNat + b.toNat) % m.toNat := by
  unfold addMod
  rw [if_neg fun hz => pos_iff.1 hm (isZero_iff.1 hz), toNat_addBelow (mod_lt a hm) (mod_lt b hm),
    toNat_mod hm, toNat_mod hm]
  exact (Nat.add_mod a.toNat b.toNat m.toNat).symm

theorem toNat_mulMod {a b m : Word} (hm : 0 < m.toNat) :
    (mulMod a b m).toNat = a.toNat * b.toNat % m.toNat := by
  have hzero : zero.toNat < m.toNat := hm
  unfold mulMod
  rw [if_neg fun hz => pos_iff.1 hm (isZero_iff.1 hz), toNat_mulModBits (mod_lt a hm) hzero,
    toNat_mod hm, toNat_zero, Nat.mul_zero, Nat.zero_add,
    Nat.mod_eq_of_lt b.toNat_lt_two_pow_bitLength]
  exact Nat.mod_mul_mod a.toNat b.toNat m.toNat

/-- Sums and products modulo a word are those of the numbers, however large the sum or product is;
they are zero for a zero modulus. -/
theorem modular_exact (a b m : Word) :
    (m = zero → addMod a b m = zero ∧ mulMod a b m = zero) ∧
    (m ≠ zero → (addMod a b m).toNat = (a.toNat + b.toNat) % m.toNat ∧
      (mulMod a b m).toNat = a.toNat * b.toNat % m.toNat) := by
  constructor
  · intro hm
    have hz : m.isZero = true := isZero_iff.2 hm
    exact ⟨if_pos hz, if_pos hz⟩
  · intro hm
    exact ⟨toNat_addMod (pos_iff.2 hm), toNat_mulMod (pos_iff.2 hm)⟩

/-- Twice the largest word and its square, modulo all but the largest one. -/
theorem modular_exact_max :
    addMod max max zero = zero ∧ mulMod max max zero = zero ∧ max - one ≠ zero ∧
    (addMod max max (max - one)).toNat = 2 ∧ (mulMod max max (max - one)).toNat = 1 := by
  obtain ⟨hadd, hmul⟩ := (modular_exact max max zero).1 rfl
  have hne : max - one ≠ zero := by decide
  obtain ⟨hadd', hmul'⟩ := (modular_exact max max (max - one)).2 hne
  exact ⟨hadd, hmul, hne, hadd'.trans (by decide), hmul'.trans (by decide)⟩

end ParticleChain.Word
