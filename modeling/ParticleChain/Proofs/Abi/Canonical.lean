import ParticleChain.Proofs.Abi.Words

/-!
# What the readers accept

A list is read as some values just if its length stands in the place and then the words of each
value (`readList_eq_ok`), and a text just if its length stands there and then its bytes
(`readString_eq_ok`). Where nothing of the kind stands, the answer is an error and no part of a value
(`Decides`). `readers_accept_canonical` says so of all readers of a value.
-/

namespace ParticleChain.Abi

open Bytes (Holds concat)

variable {α : Type} {b : ByteArray} {offset wordsEach : Nat}

/-! ## Written lists -/

/-- A list as it is written: its length, and then its elements. -/
def listBytes (write : α → ByteArray) (l : List α) : ByteArray :=
  sizeWord l.length ++ concat (l.map write)

/-- A pair as it is written. -/
def pairBytes (p : UInt32 × UInt32) : ByteArray := uint32Word p.1 ++ uint32Word p.2

theorem foldl_append (write : α → ByteArray) (l : List α) (start : ByteArray) :
    l.foldl (fun b v => b ++ write v) start = start ++ concat (l.map write) := by
  induction l generalizing start with
  | nil => exact ByteArray.append_empty.symm
  | cons v l ih =>
    rw [List.foldl_cons, ih, List.map_cons, Bytes.concat_cons, ByteArray.append_assoc]

theorem encode_uint32List (ns : List UInt32) :
    (Value.uint32List ns).encode = listBytes uint32Word ns := foldl_append uint32Word ns _

theorem encode_pairList (ps : List (UInt32 × UInt32)) :
    (Value.pairList ps).encode = listBytes pairBytes ps := by
  rw [listBytes, ← foldl_append, Value.encode]
  simp only [pairBytes, ByteArray.append_assoc]

theorem size_sizeWord (n : Nat) : (sizeWord n).size = 32 := Word.size_toBytes _

theorem size_uint32Word (v : UInt32) : (uint32Word v).size = 32 := Word.size_toBytes _

theorem size_pairBytes (p : UInt32 × UInt32) : (pairBytes p).size = 2 * 32 := by
  rw [pairBytes, ByteArray.size_append, size_uint32Word, size_uint32Word]

theorem size_listBytes {write : α → ByteArray} {width : Nat} (hsize : ∀ v, (write v).size = width)
    (l : List α) : (listBytes write l).size = 32 + l.length * width := by
  have hw : ∀ x ∈ l.map write, x.size = width := fun x hx => by
    obtain ⟨v, -, rfl⟩ := List.mem_map.1 hx
    exact hsize v
  rw [listBytes, ByteArray.size_append, size_sizeWord, Bytes.size_concat_of_width hw,
    List.length_map]

/-! ## Lists and texts that are read -/

/-- A list is read just if it is written there; `read i` reads element `i`. -/
theorem readList_eq_ok (hb : b.size < UInt64.size) {read : Nat → Except DecodeError α}
    {write : α → ByteArray} {vs : List α} (hpos : 0 < wordsEach)
    (hmax : wordsEach * 32 < UInt64.size)
    (hsize : ∀ v, (write v).size = wordsEach * 32)
    (hread : ∀ n, readCount b offset wordsEach = .ok n → ∀ i < n, ∀ v,
      read i = .ok v ↔ Holds b (offset + 32 + wordsEach * 32 * i) (write v)) :
    (readCount b offset wordsEach >>= fun n => (List.range n).mapM read) = .ok vs ↔
      Holds b offset (listBytes write vs) := by
  have hw : ∀ x ∈ vs.map write, x.size = wordsEach * 32 := fun x hx => by
    obtain ⟨v, -, rfl⟩ := List.mem_map.1 hx
    exact hsize v
  rw [bind_eq_ok, listBytes, Bytes.holds_append_iff, size_sizeWord]
  constructor
  · rintro ⟨n, hn, h⟩
    obtain ⟨rfl, hvs⟩ := mapM_range_eq_ok.1 h
    obtain ⟨hlen, hle⟩ := (readCount_eq_ok hb hmax).1 hn
    refine ⟨(readSize_eq_ok.1 hlen).2, (Bytes.holds_concat_iff hw).2 ⟨by omega, fun i hi => ?_⟩⟩
    rw [List.length_map] at hi
    rw [List.getElem_map]
    exact (hread _ hn i hi _).1 (hvs i hi)
  · rintro ⟨hlen, h⟩
    have hle := h.1
    rw [Bytes.size_concat_of_width hw, List.length_map] at hle
    have hlt : vs.length ≤ vs.length * (wordsEach * 32) :=
      Nat.le_mul_of_pos_right _ (Nat.mul_pos hpos (by decide))
    have hn : readCount b offset wordsEach = .ok vs.length :=
      (readCount_eq_ok hb hmax).2 ⟨readSize_eq_ok.2 ⟨by omega, hlen⟩, hle⟩
    refine ⟨vs.length, hn, mapM_range_eq_ok.2 ⟨rfl, fun i hi => ?_⟩⟩
    have hi' := ((Bytes.holds_concat_iff hw).1 h).2 i (by rwa [List.length_map])
    rw [List.getElem_map] at hi'
    exact (hread _ hn i hi _).2 hi'

section

variable (hb : b.size < UInt64.size)
include hb

theorem readRow_eq_ok {read : ByteArray → Nat → Except DecodeError α} {write : α → ByteArray}
    {vs : List α} (hsize : ∀ v, (write v).size = 32)
    (hread : ∀ place v, read b place = .ok v ↔ Holds b place (write v)) :
    readRow read b offset = .ok vs ↔ Holds b offset (listBytes write vs) := by
  refine readList_eq_ok hb Nat.one_pos (by decide) hsize fun n hn i hi v => ?_
  have hle := le_size_of_readCount hb (by decide) hn
  have hplace : offset + 32 * (i + 1) = offset + 32 + 1 * 32 * i := by omega
  rw [position_of_lt (by omega), hplace]
  exact hread _ v

theorem readInt32s_eq_ok {vs : List Int32} :
    readInt32s b offset = .ok vs ↔ Holds b offset (listBytes int32Word vs) :=
  readRow_eq_ok hb size_int32Word fun _ _ => readInt32_eq_ok

theorem readUInt32s_eq_ok {vs : List UInt32} :
    readUInt32s b offset = .ok vs ↔ Holds b offset (listBytes uint32Word vs) :=
  readRow_eq_ok hb size_uint32Word fun _ _ => readUInt32_eq_ok

theorem readPairs_eq_ok {vs : List (UInt32 × UInt32)} :
    readPairs b offset = .ok vs ↔ Holds b offset (listBytes pairBytes vs) := by
  refine readList_eq_ok hb Nat.two_pos (by decide) size_pairBytes fun n hn i hi v => ?_
  have hle := le_size_of_readCount hb (by decide) hn
  have hplace : offset + 32 * (1 + 2 * i) = offset + 32 + 2 * 32 * i := by omega
  rw [position_of_lt (by omega), hplace, bind_eq_ok, pairBytes, Bytes.holds_append_iff,
    size_uint32Word, ← readUInt32_eq_ok, ← readUInt32_eq_ok]
  constructor
  · rintro ⟨first, hfirst, h⟩
    cases hfirst
    obtain ⟨second, hsecond, h⟩ := bind_eq_ok.1 h
    obtain ⟨-, rfl⟩ := position_eq_ok.1 hsecond
    obtain ⟨x, hx, h⟩ := bind_eq_ok.1 h
    obtain ⟨y, hy, h⟩ := bind_eq_ok.1 h
    cases h
    exact ⟨hx, hy⟩
  · rintro ⟨hx, hy⟩
    exact ⟨_, rfl, bind_eq_ok.2 ⟨_, position_of_lt (by omega), bind_eq_ok.2 ⟨v.1, hx,
      bind_eq_ok.2 ⟨v.2, hy, rfl⟩⟩⟩⟩

theorem readString_eq_ok {s : String} :
    readString b offset = .ok s ↔ Holds b offset (sizeWord s.utf8ByteSize ++ s.toUTF8) := by
  rw [readString, bind_eq_ok, Bytes.holds_append_iff, size_sizeWord]
  constructor
  · rintro ⟨n, hn, h⟩
    obtain ⟨start, hstart, h⟩ := bind_eq_ok.1 h
    obtain ⟨-, rfl⟩ := position_eq_ok.1 hstart
    obtain ⟨bytes, hbytes, h⟩ := bind_eq_ok.1 h
    obtain ⟨hs, hbytes⟩ := readBytes_eq_ok.1 hbytes
    split at h
    · rename_i hutf8
      cases h
      obtain rfl := Bytes.fromUTF8?_eq_some.1 hutf8
      have hn := (readSize_eq_ok.1 hn).2
      rw [← hs] at hn
      exact ⟨hn, hbytes⟩
    · cases h
  · rintro ⟨hlen, hbytes⟩
    have hle := hbytes.1
    have hsize : s.toUTF8.size = s.utf8ByteSize := rfl
    refine ⟨s.utf8ByteSize, readSize_eq_ok.2 ⟨by omega, hlen⟩, bind_eq_ok.2 ⟨_,
      position_of_lt (by omega), bind_eq_ok.2 ⟨_, readBytes_eq_ok.2 ⟨hsize, hbytes⟩, ?_⟩⟩⟩
    rw [Bytes.fromUTF8?_eq_some.2 rfl]
    rfl

/-- A text is read however it is filled up. -/
theorem readString_of_holds {s : String} (h : Holds b offset (Value.string s).encode) :
    readString b offset = .ok s := by
  obtain ⟨hlen, hbytes⟩ := Bytes.holds_append_iff.1 h
  exact (readString_eq_ok hb).2
    (Bytes.holds_append_iff.2 ⟨hlen, (Bytes.holds_append_iff.1 hbytes).1⟩)

end

/-! ## Acceptance -/

/-- An answer is a value just if the value is the right one, and where none is it is an error that
is no fault. -/
structure Decides (answer : Except DecodeError α) (Right : α → Prop) : Prop where
  accepts (v : α) : answer = .ok v ↔ Right v
  rejects : (∀ v, ¬ Right v) → ∃ e, e ≠ .fault ∧ answer = .error e

theorem Safe.decides {read : ByteArray → Except DecodeError α} {Right : α → Prop} (h : Safe b read)
    (haccepts : ∀ v, read b = .ok v ↔ Right v) : Decides (read b) Right where
  accepts := haccepts
  rejects hnone := by
    cases hr : read b with
    | ok v => exact absurd ((haccepts v).1 hr) (hnone v)
    | error e => exact ⟨e, fun he => h.no_fault (he ▸ hr), rfl⟩

/-- Readers accept just what is written for a value, in every place of all bytes that fit in a
memory of 64-bit addresses. -/
theorem readers_accept_canonical (b : ByteArray) (hb : b.size < UInt64.size) (offset : Nat) :
    Decides (readUInt32 b offset) (fun v => Holds b offset (Value.uint32 v).encode) ∧
    Decides (readInt32 b offset) (fun v => Holds b offset (Value.int32 v).encode) ∧
    Decides (readBool b offset) (fun v => Holds b offset (Value.bool v).encode) ∧
    Decides (readAddress b offset) (fun a => Holds b offset (Value.address a).encode) ∧
    Decides (readBytes32 b offset) (fun w => Holds b offset (Value.bytes32 w).encode) ∧
    Decides (readSize b offset) (fun n => n < UInt64.size ∧ Holds b offset (sizeWord n)) ∧
    Decides (readUInt32s b offset) (fun vs => Holds b offset (Value.uint32List vs).encode) ∧
    Decides (readInt32s b offset) (fun vs => Holds b offset (listBytes int32Word vs)) ∧
    Decides (readPairs b offset) (fun vs => Holds b offset (Value.pairList vs).encode) ∧
    Decides (readString b offset)
      (fun s => Holds b offset (sizeWord s.utf8ByteSize ++ s.toUTF8)) := by
  simp only [encode_uint32List, encode_pairList]
  exact ⟨(safe_readUInt32 b offset).decides fun _ => readUInt32_eq_ok,
    (safe_readInt32 b offset).decides fun _ => readInt32_eq_ok,
    (safe_readBool b offset).decides fun _ => readBool_iff,
    (safe_readAddress b offset).decides fun _ => readAddress_iff,
    (safe_readBytes32 b offset).decides fun _ => readBytes32_eq_ok,
    (safe_readSize b offset).decides fun _ => readSize_eq_ok,
    (safe_readUInt32s hb offset).decides fun _ => readUInt32s_eq_ok hb,
    (safe_readInt32s hb offset).decides fun _ => readInt32s_eq_ok hb,
    (safe_readPairs hb offset).decides fun _ => readPairs_eq_ok hb,
    (safe_readString hb offset).decides fun _ => readString_eq_ok hb⟩

theorem readers_accept_canonical_row :
    readSize (listBytes int32Word [-1, 77]) 0 = .ok 2 ∧
    readInt32s (listBytes int32Word [-1, 77]) 0 = .ok [-1, 77] := by
  have hsize : (listBytes int32Word [-1, 77]).size = 96 := size_listBytes size_int32Word _
  obtain ⟨-, -, -, -, -, hlength, -, hrow, -⟩ :=
    readers_accept_canonical (listBytes int32Word [-1, 77]) (by rw [hsize]; decide) 0
  have hholds := Bytes.holds_self (listBytes int32Word [-1, 77])
  exact ⟨(hlength.accepts 2).2 ⟨by decide, (Bytes.holds_append_iff.1 hholds).1⟩,
    (hrow.accepts [-1, 77]).2 hholds⟩

end ParticleChain.Abi
