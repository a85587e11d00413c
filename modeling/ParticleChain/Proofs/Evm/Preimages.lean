import ParticleChain.Proofs.Evm.Checked
import ParticleChain.Proofs.Evm.Rlp

/-!
# Preimages of addresses

A created contract gets its address from the hash of the list of its creator and the creator's
nonce (`createPreimage_eq_encode`), or, with a salt, from the hash of four parts of fixed lengths.
The bytes that are hashed tell what they were made from, and no preimage of the one kind is one of
the other (`preimages_unambiguous`).
-/

namespace ParticleChain

theorem Word.toBytes_inj {a b : Word} : a.toBytes = b.toBytes ↔ a = b :=
  ⟨fun h => toNat_inj.1 (by rw [← toNat_toBytes, h, toNat_toBytes]), fun h => h ▸ rfl⟩

theorem Address.toBytes_inj {a b : Address} : a.toBytes = b.toBytes ↔ a = b :=
  ⟨fun h => toWord_inj.1 (Word.toBytes_inj.1 (by rw [toBytes_toWord, h, toBytes_toWord])),
    fun h => h ▸ rfl⟩

/-- Byte strings that are put together from parts of the same sizes have the same parts. -/
theorem Bytes.append_inj {a b c d : ByteArray} (hs : a.size = c.size) (h : a ++ b = c ++ d) :
    a = c ∧ b = d := by
  have hlists : a.data.toList ++ b.data.toList = c.data.toList ++ d.data.toList := by
    rw [← Array.toList_append, ← Array.toList_append, ← ByteArray.data_append,
      ← ByteArray.data_append, h]
  obtain ⟨hac, hbd⟩ := List.append_inj hlists hs
  exact ⟨ByteArray.ext (Array.toList_inj.1 hac), ByteArray.ext (Array.toList_inj.1 hbd)⟩

namespace Evm

theorem lowBytes_succ (k n : Nat) : lowBytes (k + 1) n = lowBytes k (n / 256) ++ [n.toUInt8] := by
  induction k with
  | zero => rfl
  | succ k ih =>
    have hshift : n >>> (8 * (k + 1)) = (n / 256) >>> (8 * k) := by
      rw [Nat.shiftRight_eq_div_pow, Nat.shiftRight_eq_div_pow, Nat.div_div_eq_div_mul, Nat.mul_add,
        Nat.pow_add, Nat.mul_comm (2 ^ (8 * k))]
    rw [lowBytes, ih, hshift, lowBytes, List.cons_append]

/-- The bytes of a number are its digits, with zeros in front. -/
theorem lowBytes_eq {k n : Nat} (h : n < 256 ^ k) :
    lowBytes k n = List.replicate (k - (Rlp.bigEndian n).length) 0 ++ Rlp.bigEndian n := by
  induction k generalizing n with
  | zero =>
    obtain rfl : n = 0 := Nat.lt_one_iff.1 h
    rfl
  | succ k ih =>
    have hrest : n / 256 < 256 ^ k :=
      Nat.div_lt_of_lt_mul (by rwa [Nat.pow_succ, Nat.mul_comm] at h)
    rw [lowBytes_succ, ih hrest]
    rcases Nat.eq_zero_or_pos n with rfl | hpos
    · show List.replicate k 0 ++ [] ++ [0] = List.replicate (k + 1) 0 ++ []
      rw [List.append_nil, List.append_nil, List.replicate_succ']
    · rw [Rlp.bigEndian_of_pos hpos, List.append_assoc, List.length_append, List.length_singleton,
        Nat.add_sub_add_right]

/-- What stands before the first bit is as many zero bytes as there is room for. -/
theorem length_bigEndian {n : Nat} (h : n < 256 ^ 8) :
    (Rlp.bigEndian n).length = 8 - leadingZeros n / 8 := by
  rcases Nat.eq_zero_or_pos n with rfl | hpos
  · rfl
  · have hne : n ≠ 0 := Nat.ne_of_gt hpos
    have hlog : n.log2 < 64 := (Nat.log2_lt hne).2 h
    have hlen : ∀ k, (Rlp.bigEndian n).length ≤ k ↔ n.log2 < 8 * k := by
      intro k
      rw [Rlp.length_bigEndian_le, Nat.log2_lt hne, Nat.pow_mul]
    unfold leadingZeros
    rw [if_neg hne]
    have hle := (hlen (8 - (63 - n.log2) / 8)).2 (by omega)
    have hge := (hlen (7 - (63 - n.log2) / 8)).not.2 (by omega)
    omega

/-- The shortest bytes of a number are its digits. -/
theorem minimalBytes_eq {n : Nat} (h : n < 256 ^ 8) : minimalBytes n = Rlp.bigEndian n := by
  have hlen := length_bigEndian h
  have hzeros := leadingZeros_le n
  rw [minimalBytes, lowBytes_eq h, List.drop_left' ?_]
  rw [List.length_replicate]
  omega

theorem nonceItem_eq {n : Nat} (h : n < 256 ^ 8) :
    nonceItem n = (Rlp.Item.string (Rlp.bigEndian n)).encode := by
  have hlen : (Rlp.bigEndian n).length ≤ 8 := Rlp.length_bigEndian_le.2 h
  unfold nonceItem
  rw [minimalBytes_eq h, Rlp.Item.encode]
  rcases hd : Rlp.bigEndian n with _ | ⟨x, _ | ⟨y, bytes⟩⟩
  · rfl
  · rfl
  · -- Eight bytes at most, so the header is a single byte.
    have hshort : (x :: y :: bytes).length < 56 := by
      rw [hd] at hlen
      omega
    unfold Rlp.encodeString Rlp.Kind.header Rlp.Kind.front
    dsimp only
    rw [if_pos hshort, if_pos hshort]
    rfl

/-- The item of a creator and its nonce. -/
def creation (sender : Address) (nonce : Nat) : Rlp.Item :=
  .list [.string sender.toBytes.data.toList, .string (Rlp.bigEndian nonce)]

theorem creation_inj {sender sender' : Address} {n n' : Nat} :
    creation sender n = creation sender' n' ↔ sender = sender' ∧ n = n' := by
  simp only [creation, Rlp.Item.list.injEq, List.cons.injEq, Rlp.Item.string.injEq, and_true,
    Array.toList_inj, ← ByteArray.ext_iff, Address.toBytes_inj, Rlp.bigEndian_inj]

theorem length_nonceItem {n : Nat} (h : n < 256 ^ 8) : (nonceItem n).length ≤ 9 :=
  (nonceItem?_eq (Nat.le_of_lt_succ h)).2

theorem encode_sender (a : Address) :
    (Rlp.Item.string a.toBytes.data.toList).encode = 0x94 :: a.toBytes.data.toList := by
  have hlen : a.toBytes.data.toList.length = 20 := a.size_toBytes
  rw [Rlp.Item.encode]
  obtain ⟨x, -, hx, -⟩ | h := Rlp.encodeString_cases a.toBytes.data.toList
  · rw [hx] at hlen
    cases hlen
  · rw [h, hlen]
    rfl

theorem createPreimage_eq_encode (sender : Address) {nonce : Nat} (h : nonce < 256 ^ 8) :
    (createPreimage sender nonce).data.toList = (creation sender nonce).encode := by
  have hlen := length_nonceItem h
  have hsender : sender.toBytes.data.toList.length = 20 := sender.size_toBytes
  rw [creation, Rlp.Item.encode, Rlp.encodeAll, Rlp.encodeAll, Rlp.encodeAll, encode_sender,
    ← nonceItem_eq h, List.append_nil]
  have hall : (0x94 :: sender.toBytes.data.toList ++ nonceItem nonce).length =
      21 + (nonceItem nonce).length := by
    rw [List.length_append, List.length_cons, hsender]
  have hshort : 21 + (nonceItem nonce).length < 56 := by omega
  unfold Rlp.Kind.header Rlp.Kind.front
  rw [hall, if_pos hshort, if_pos hshort]
  unfold createPreimage Bytes.ofList
  simp only [ByteArray.data_append, Array.toList_append, Rlp.Kind.base,
    List.cons_append, List.nil_append]

theorem length_creation_lt (sender : Address) {nonce : Nat} (h : nonce < 256 ^ 8) :
    (creation sender nonce).encode.length < 256 ^ 8 := by
  have hlen := length_nonceItem h
  have hsize : (createPreimage sender nonce).size = 22 + (nonceItem nonce).length := by
    unfold createPreimage
    simp only [ByteArray.size_append, sender.size_toBytes]
    rfl
  rw [← createPreimage_eq_encode sender h]
  show (createPreimage sender nonce).size < 256 ^ 8
  omega

/-- Creators and nonces are told apart by what is hashed. -/
theorem createPreimage_inj {sender sender' : Address} {n n' : Nat} (hn : n < 256 ^ 8)
    (hn' : n' < 256 ^ 8) :
    createPreimage sender n = createPreimage sender' n' ↔ sender = sender' ∧ n = n' := by
  constructor
  · intro h
    have hencode : (creation sender n).encode ++ [] = (creation sender' n').encode ++ [] := by
      rw [← createPreimage_eq_encode sender hn, ← createPreimage_eq_encode sender' hn', h]
    exact creation_inj.1 (Rlp.Item.encode_inj _ _ (length_creation_lt sender hn)
      (length_creation_lt sender' hn') hencode).1
  · rintro ⟨rfl, rfl⟩
    rfl

theorem create2Preimage_inj {sender sender' : Address} {salt salt' hash hash' : Word} :
    create2Preimage sender salt hash = create2Preimage sender' salt' hash' ↔
      sender = sender' ∧ salt = salt' ∧ hash = hash' := by
  constructor
  · intro h
    obtain ⟨h, hhash⟩ := Bytes.append_inj (by
      simp only [ByteArray.size_append, Address.size_toBytes, Word.size_toBytes]) h
    obtain ⟨h, hsalt⟩ := Bytes.append_inj (by
      simp only [ByteArray.size_append, Address.size_toBytes]) h
    obtain ⟨-, hsender⟩ := Bytes.append_inj rfl h
    exact ⟨Address.toBytes_inj.1 hsender, Word.toBytes_inj.1 hsalt, Word.toBytes_inj.1 hhash⟩
  · rintro ⟨rfl, rfl, rfl⟩
    rfl

/-- The first byte of the one kind is below that of the other. -/
theorem createPreimage_ne_create2Preimage {sender sender' : Address} {n : Nat} {salt hash : Word}
    (hn : n < 256 ^ 8) : createPreimage sender n ≠ create2Preimage sender' salt hash := by
  intro h
  have hlen := length_nonceItem hn
  have hfirst : (0xc0 + (21 + (nonceItem n).length)).toUInt8 = 0xff := by
    have hheads := congrArg (fun b : ByteArray => b.data.toList.head?) h
    simpa only [createPreimage, create2Preimage, Bytes.ofList, ByteArray.data_append,
      Array.toList_append, List.cons_append, List.head?_cons, Option.some.injEq] using hheads
  have hmod : (0xc0 + (21 + (nonceItem n).length)) % 256 = 255 := congrArg UInt8.toNat hfirst
  omega

/-- The address of a contract is taken from the hash of bytes that tell what they were made from:
the encoded list of the creator and its nonce, or, with a salt, four parts of fixed lengths. The two
kinds have no bytes in common. -/
theorem preimages_unambiguous (sender sender' : Address) (nonce nonce' : UInt64)
    (salt salt' hash hash' : Word) :
    createAddress sender nonce.toNat =
      .ofWord (Keccak.hash (createPreimage sender nonce.toNat)) ∧
    (createPreimage sender nonce.toNat).data.toList = Rlp.Item.encode
      (.list [.string sender.toBytes.data.toList, .string (Rlp.bigEndian nonce.toNat)]) ∧
    sender.toBytes.size = 20 ∧
    Bytes.spelled (Rlp.bigEndian nonce.toNat) = nonce.toNat ∧
    (Rlp.bigEndian nonce.toNat).head? ≠ some 0 ∧
    (createPreimage sender nonce.toNat = createPreimage sender' nonce'.toNat ↔
      sender = sender' ∧ nonce = nonce') ∧
    createPreimage sender nonce.toNat ≠ create2Preimage sender' salt hash ∧
    (create2Preimage sender salt hash = create2Preimage sender' salt' hash' ↔
      sender = sender' ∧ salt = salt' ∧ hash = hash') ∧
    ∀ init, create2Address sender salt init =
      .ofWord (Keccak.hash (create2Preimage sender salt (Keccak.hash init))) := by
  have hnonce : nonce.toNat < 256 ^ 8 := nonce.toNat_lt
  have hnonce' : nonce'.toNat < 256 ^ 8 := nonce'.toNat_lt
  refine ⟨rfl, createPreimage_eq_encode sender hnonce, sender.size_toBytes,
    Rlp.spelled_bigEndian _, Rlp.head?_bigEndian _, ?_, createPreimage_ne_create2Preimage hnonce,
    create2Preimage_inj, fun _ => rfl⟩
  rw [createPreimage_inj hnonce hnonce', UInt64.toNat_inj]

end Evm

end ParticleChain
