import ParticleChain.Proofs.Abi.Safety

/-!
# What a word is read as

A word is read as a value just if it is the one that the value is written as. Numbers are what the
bytes of a word spell, with nothing in front (`readUnsigned_eq_ok`) or with the sign carried on
there (`toNat_int32Word`), so each reader comes down to an equation between numbers.
-/

namespace ParticleChain.Abi

open Bytes (Holds fill)

variable {b w : ByteArray} {offset width n : Nat}

/-! ## Numbers in a word -/

/-- The front and the back of a word. -/
theorem toNat_split (hs : w.size = 32) (hw : width ≤ 32) : Bytes.toNat w =
    Bytes.toNat (w.extract 0 (32 - width)) * 256 ^ width +
      Bytes.toNat (w.extract (32 - width) 32) := by
  have hback : (w.extract (32 - width) 32).size = width := by
    rw [ByteArray.size_extract]
    omega
  conv => lhs; rw [← ByteArray.extract_zero_size (b := w), hs,
    ByteArray.extract_eq_extract_append_extract (32 - width) (Nat.zero_le _) (Nat.sub_le _ _)]
  rw [Bytes.toNat_append, hback]

theorem toNat_back_lt (hs : w.size = 32) (hw : width ≤ 32) :
    Bytes.toNat (w.extract (32 - width) 32) < 256 ^ width := by
  have h := Bytes.toNat_lt (w.extract (32 - width) 32)
  rwa [ByteArray.size_extract, hs, show min 32 32 - (32 - width) = width by omega] at h

/-- A word spells a number just if its front and its back spell the two parts of the number. -/
theorem toNat_eq_iff (hs : w.size = 32) (hw : width ≤ 32) {m : Nat} (hn : n < 256 ^ width) :
    Bytes.toNat w = m * 256 ^ width + n ↔ Bytes.toNat (w.extract 0 (32 - width)) = m ∧
      Bytes.toNat (w.extract (32 - width) 32) = n := by
  have hback := toNat_back_lt hs hw
  have hpos : 0 < 256 ^ width := Nat.pow_pos (by decide)
  rw [toNat_split hs hw]
  constructor
  · intro h
    have hrest : Bytes.toNat (w.extract (32 - width) 32) = n := by
      have hmod := congrArg (· % 256 ^ width) h
      simpa only [Nat.mul_add_mod_self_right, Nat.mod_eq_of_lt hback, Nat.mod_eq_of_lt hn] using hmod
    rw [hrest] at h
    exact ⟨Nat.eq_of_mul_eq_mul_right hpos (Nat.add_right_cancel h), hrest⟩
  · rintro ⟨rfl, rfl⟩
    rfl

/-- The front of a word is made up of one byte just if it spells what those bytes spell. -/
theorem front_iff {c : UInt8} (hs : w.size = 32) (hw : width ≤ 32) :
    (w.extract 0 (32 - width)).data.any (· != c) = false ↔
      Bytes.toNat (w.extract 0 (32 - width)) = Bytes.toNat (fill c (32 - width)) := by
  have hsize : (w.extract 0 (32 - width)).size = 32 - width := by
    rw [ByteArray.size_extract]
    omega
  rw [Bytes.any_ne_iff, hsize]
  exact ⟨congrArg Bytes.toNat,
    Bytes.toNat_inj (hsize.trans (Bytes.size_fill c (32 - width)).symm)⟩

theorem readWord_eq_ok : readWord b offset = .ok w ↔ w.size = 32 ∧ Holds b offset w :=
  readBytes_eq_ok

/-- A word of the bytes that stand in a place. -/
theorem holds_toBytes_iff {a : Word} : Holds b offset a.toBytes ↔
    ∃ w, readWord b offset = .ok w ∧ Bytes.toNat w = a.toNat := by
  constructor
  · intro h
    exact ⟨a.toBytes, readWord_eq_ok.2 ⟨Word.size_toBytes a, h⟩, Word.toNat_toBytes a⟩
  · rintro ⟨w, hw, hn⟩
    obtain ⟨hs, hw⟩ := readWord_eq_ok.1 hw
    rwa [← Word.eq_toBytes_iff.2 ⟨hs, hn⟩]

theorem readUnsigned_eq_ok (hwidth : width ≤ 8) : readUnsigned b offset width = .ok n ↔
    n < 256 ^ width ∧ Holds b offset (Word.ofNat n).toBytes := by
  have hw : width ≤ 32 := Nat.le_trans hwidth (by decide)
  have hzero : Bytes.toNat (fill 0 (32 - width)) = 0 := Bytes.toNat_fill_zero _
  have hpow : 256 ^ width ≤ Word.modulus :=
    Nat.le_trans (Nat.pow_le_pow_right (by decide) hw) (by decide)
  -- A number of so many bytes is spelled by the back of a word behind zeros.
  have hspelled : ∀ {w : ByteArray} {n : Nat}, w.size = 32 → n < 256 ^ width →
      (Bytes.toNat w = n % Word.modulus ↔ Bytes.toNat (w.extract 0 (32 - width)) = 0 ∧
        Bytes.toNat (w.extract (32 - width) 32) = n) := fun hs hn => by
    rw [← toNat_eq_iff hs hw hn, Nat.zero_mul, Nat.zero_add,
      Nat.mod_eq_of_lt (Nat.lt_of_lt_of_le hn hpow)]
  rw [holds_toBytes_iff, Word.toNat_ofNat, readUnsigned, bind_eq_ok, distance_of_le hw]
  constructor
  · rintro ⟨w, hword, h⟩
    obtain ⟨hs, -⟩ := readWord_eq_ok.1 hword
    have hlt := toNat_back_lt hs hw
    obtain ⟨_, hsplit, h⟩ := bind_eq_ok.1 h
    cases hsplit
    dsimp only at h
    split at h
    · cases h
    · rename_i hfront
      have hfront := (front_iff hs hw).1 (Bool.eq_false_iff.2 hfront)
      cases h
      exact ⟨hlt, w, hword, (hspelled hs hlt).2 ⟨hfront.trans hzero, rfl⟩⟩
  · rintro ⟨hlt, w, hword, hn⟩
    obtain ⟨hs, -⟩ := readWord_eq_ok.1 hword
    obtain ⟨hfront, hback⟩ := (hspelled hs hlt).1 hn
    refine ⟨w, hword, bind_eq_ok.2 ⟨_, rfl, ?_⟩⟩
    dsimp only
    rw [if_neg (Bool.eq_false_iff.1 ((front_iff hs hw).2 (hfront.trans hzero.symm)))]
    exact congrArg Except.ok hback

theorem sizeWord_eq (hn : n < UInt64.size) : sizeWord n = (Word.ofNat n).toBytes := by
  refine congrArg Word.toBytes (Word.toNat_inj.1 ?_)
  have hm : n < Word.modulus := Nat.lt_trans hn (by decide)
  rw [Word.toNat_ofUInt64, Word.toNat_ofNat, Nat.mod_eq_of_lt hm, Nat.toUInt64, UInt64.toNat_ofNat',
    Nat.mod_eq_of_lt hn]

theorem readSize_eq_ok :
    readSize b offset = .ok n ↔ n < UInt64.size ∧ Holds b offset (sizeWord n) := by
  rw [readSize, readUnsigned_eq_ok (by decide)]
  exact and_congr_right fun h => by rw [sizeWord_eq h]

theorem uint32Word_eq (v : UInt32) : uint32Word v = (Word.ofNat v.toNat).toBytes := by
  refine congrArg Word.toBytes (Word.toNat_inj.1 ?_)
  have hm : v.toNat < Word.modulus := Nat.lt_trans v.toNat_lt (by decide)
  rw [Word.toNat_ofUInt64, Word.toNat_ofNat, Nat.mod_eq_of_lt hm, UInt32.toNat_toUInt64]

theorem readUInt32_eq_ok {v : UInt32} :
    readUInt32 b offset = .ok v ↔ Holds b offset (uint32Word v) := by
  rw [readUInt32, map_eq_ok, uint32Word_eq]
  constructor
  · rintro ⟨n, hn, rfl⟩
    obtain ⟨hlt, hn⟩ := (readUnsigned_eq_ok (by decide)).1 hn
    have hlt : n < 2 ^ 32 := hlt
    rwa [Nat.toUInt32, UInt32.toNat_ofNat', Nat.mod_eq_of_lt hlt]
  · intro h
    exact ⟨v.toNat, (readUnsigned_eq_ok (by decide)).2 ⟨v.toNat_lt, h⟩, UInt32.ofNat_toNat⟩

theorem readBool_iff {v : Bool} :
    readBool b offset = .ok v ↔ Holds b offset (Word.ofBool v).toBytes := by
  have hword : Word.ofBool v = Word.ofNat v.toNat := by cases v <;> rfl
  rw [readBool_eq_ok, readUnsigned_eq_ok (by decide), hword]
  exact and_iff_right (Nat.lt_of_le_of_lt (Bool.toNat_le v) (by decide))

theorem readBytes32_eq_ok {a : Word} : readBytes32 b offset = .ok a ↔ Holds b offset a.toBytes := by
  rw [readBytes32, map_eq_ok]
  constructor
  · rintro ⟨w, hw, rfl⟩
    obtain ⟨hs, hw⟩ := readWord_eq_ok.1 hw
    rwa [Word.toBytes_ofBytes hs]
  · intro h
    exact ⟨a.toBytes, readWord_eq_ok.2 ⟨Word.size_toBytes a, h⟩, Word.ofBytes_toBytes a⟩

/-- Bytes among which none is other than zero. -/
theorem padded_eq_zero {b : ByteArray} {n i : Nat}
    (h : ¬ (b.extract 0 n).data.any (· != 0)) (hi : i < n) : Bytes.padded b i = 0 := by
  by_cases hb : i < b.size
  · have hall := mt Array.any_eq_true.2 h
    push Not at hall
    have hn : i < (b.extract 0 n).size := by
      rw [ByteArray.size_extract]
      omega
    have hbyte : Bytes.padded (b.extract 0 n) i = 0 := by
      rw [Bytes.padded, dif_pos hn]
      exact Decidable.byContradiction fun hne => hall i hn (bne_iff_ne.2 hne)
    rwa [Bytes.padded_extract, if_pos (by omega), Nat.zero_add] at hbyte
  · rw [Bytes.padded, dif_neg hb]

theorem readAddress_iff {a : Address} :
    readAddress b offset = .ok a ↔ Holds b offset a.toWord.toBytes := by
  rw [readAddress, bind_eq_ok]
  constructor
  · rintro ⟨w, hword, h⟩
    obtain ⟨hs, hw⟩ := readWord_eq_ok.1 hword
    dsimp only at h
    split at h
    · cases h
    · rename_i hfront
      cases h
      have hzero : ∀ i < 12, (Word.ofBytes w).byteAt i = 0 := fun i hi => by
        rw [← Word.padded_toBytes _ (Nat.lt_trans hi (by decide)), Word.toBytes_ofBytes hs]
        exact padded_eq_zero hfront hi
      rwa [Address.ofBytes, Address.toWord_ofWord hzero, Word.toBytes_ofBytes hs]
  · intro h
    have hfront : a.toWord.toBytes.extract 0 12 = fill 0 12 := by
      rw [Address.toBytes_toWord]
      exact ByteArray.extract_append_eq_left (Bytes.size_zeros 12).symm
    refine ⟨a.toWord.toBytes, readWord_eq_ok.2 ⟨Word.size_toBytes _, h⟩, ?_⟩
    dsimp only
    rw [if_neg (Bool.eq_false_iff.1 (Bytes.any_ne_iff.2 (by rw [hfront, Bytes.size_fill])))]
    rw [Address.ofBytes, Word.ofBytes_toBytes, Address.ofWord_toWord]
    rfl

/-- What an address is read from: a whole word of it, zeros in front. -/
theorem readAddress_eq_ok {a : Address} (h : readAddress b 0 = .ok a) :
    32 ≤ b.size ∧ b.extract 0 32 = Bytes.zeros 12 ++ a.toBytes := by
  obtain ⟨hle, hword⟩ := readAddress_iff.1 h
  rw [Word.size_toBytes, Nat.zero_add] at hle hword
  exact ⟨hle, hword.trans (Address.toBytes_toWord a)⟩

/-! ## Signed numbers -/

theorem int32_neg_iff (v : Int32) : v < 0 ↔ 2 ^ 31 ≤ v.toUInt32.toNat := by
  rw [Int32.lt_iff_toBitVec_slt]
  change v.toBitVec.slt 0#32 = true ↔ 2 ^ 31 ≤ v.toBitVec.toNat
  rw [BitVec.slt_zero_eq_msb, BitVec.msb_eq_decide, decide_eq_true_iff]

theorem toNat_int64 (v : Int32) : v.toInt64.toUInt64.toNat =
    v.toUInt32.toNat + if v < 0 then 2 ^ 64 - 2 ^ 32 else 0 := by
  have h : v.toInt64.toUInt64.toNat = (v.toBitVec.signExtend 64).toNat := rfl
  have hlt : v.toBitVec.toNat < 2 ^ 64 := Nat.lt_trans v.toBitVec.isLt (by decide)
  simp only [int32_neg_iff]
  rw [h, BitVec.toNat_signExtend, BitVec.toNat_setWidth, Nat.mod_eq_of_lt hlt,
    BitVec.msb_eq_decide]
  simp only [decide_eq_true_eq]
  rfl

/-- The byte that carries on the sign of a number of 32 bits. -/
def signByte (n : Nat) : UInt8 := if n < 2 ^ 31 then 0 else 0xff

theorem toNat_signFill (v : Int32) : Bytes.toNat (fill (signByte v.toUInt32.toNat) 28) =
    if v < 0 then 256 ^ 28 - 1 else 0 := by
  rw [signByte]
  by_cases h : v < 0
  · rw [if_pos h, if_neg (Nat.not_lt.2 ((int32_neg_iff v).1 h))]
    exact Nat.eq_sub_of_add_eq (Bytes.toNat_fill_ones 28)
  · rw [if_neg h, if_pos (Nat.not_le.1 fun hle => h ((int32_neg_iff v).2 hle))]
    exact Bytes.toNat_fill_zero 28

/-- The word of a signed number: its sign, and then its 32 bits. -/
theorem toNat_int32Word (v : Int32) : Bytes.toNat (int32Word v) =
    Bytes.toNat (fill (signByte v.toUInt32.toNat) 28) * 256 ^ 4 + v.toUInt32.toNat := by
  rw [toNat_signFill, int32Word, Word.toNat_toBytes, Word.toNat, toNat_int64]
  by_cases h : v < 0
  · have hones : (-1 : UInt64).toNat = 2 ^ 64 - 1 := rfl
    simp only [if_pos h, hones, UInt64.size]
    omega
  · simp only [if_neg h, UInt64.toNat_zero, UInt64.size]
    omega

theorem size_int32Word (v : Int32) : (int32Word v).size = 32 := Word.size_toBytes _

/-- Byte 28 is the highest of the last four. -/
theorem sign_of_byte (hs : w.size = 32) : (if Bytes.padded w 28 < 0x80 then (0 : UInt8) else 0xff) =
    signByte (Bytes.toNat (w.extract 28 32)) := by
  have hback : Bytes.toNat (w.extract 28 32) =
      (Bytes.padded w 28).toNat * 256 ^ 3 + Bytes.toNat (w.extract 29 32) := by
    have hrest : (w.extract 29 32).size = 3 := by
      rw [ByteArray.size_extract, hs]
      rfl
    rw [ByteArray.extract_eq_extract_append_extract 29 (by decide) (by decide), Bytes.toNat_append,
      hrest, Bytes.toNat_extract_succ (Nat.le_refl 28) (by omega), Bytes.toNat_extract_self,
      Nat.zero_mul, Nat.zero_add]
  have hlt := Bytes.toNat_lt (w.extract 29 32)
  rw [ByteArray.size_extract, hs] at hlt
  have hiff : Bytes.padded w 28 < 0x80 ↔ Bytes.toNat (w.extract 28 32) < 2 ^ 31 := by
    rw [UInt8.lt_iff_toNat_lt, hback]
    change (Bytes.padded w 28).toNat < 128 ↔ _
    simp only [Nat.reducePow, Nat.reduceSub, Nat.min_self] at *
    omega
  simp only [signByte, hiff]

theorem readInt32_eq_ok {v : Int32} :
    readInt32 b offset = .ok v ↔ Holds b offset (int32Word v) := by
  have hw : 4 ≤ 32 := by decide
  rw [readInt32, bind_eq_ok]
  constructor
  · rintro ⟨w, hword, h⟩
    obtain ⟨hs, hholds⟩ := readWord_eq_ok.1 hword
    have hlt := toNat_back_lt hs hw
    dsimp only at h
    rw [sign_of_byte hs] at h
    split at h
    · cases h
    · rename_i hfront
      cases h
      have hfront := (front_iff hs hw).1 (Bool.eq_false_iff.2 hfront)
      have hbits : (Bytes.toNat (w.extract 28 32)).toUInt32.toNat =
          Bytes.toNat (w.extract 28 32) := by
        rw [Nat.toUInt32, UInt32.toNat_ofNat']
        exact Nat.mod_eq_of_lt hlt
      have hsame : w = int32Word (Bytes.toNat (w.extract 28 32)).toUInt32.toInt32 := by
        refine Bytes.toNat_inj (hs.trans (size_int32Word _).symm) ?_
        rw [toNat_int32Word, UInt32.toUInt32_toInt32, hbits]
        exact (toNat_eq_iff hs hw hlt).2 ⟨hfront, rfl⟩
      rwa [← hsame]
  · intro h
    have hs := size_int32Word v
    obtain ⟨hfront, hbits⟩ := (toNat_eq_iff hs hw v.toUInt32.toNat_lt).1 (toNat_int32Word v)
    refine ⟨int32Word v, readWord_eq_ok.2 ⟨hs, h⟩, ?_⟩
    dsimp only
    rw [sign_of_byte hs, hbits, if_neg (Bool.eq_false_iff.1 ((front_iff hs hw).2 hfront)),
      show v.toUInt32.toNat.toUInt32 = v.toUInt32 from UInt32.ofNat_toNat, Int32.toInt32_toUInt32]
    rfl

end ParticleChain.Abi
