import ParticleChain.Proofs.Abi.Items

/-!
# Samples that are read again

Samples are written as a contract returns them: each as a tuple of its path and its data, and the
tuples as the items of a list. The data comes last in a tuple and the last tuple at the end, so no
front part of the bytes is read as a list of samples (`samples_read_back`).
-/

namespace ParticleChain.Sampling

open Abi (DecodeError ReadsBack ReadsWhole Slot Value bind_eq_ok)

/-- The bytes of a `(string path, uint32[] data)`. -/
def Samples.bytes (s : Samples) : ByteArray :=
  Slot.joinBodies [(Value.string s.path).encode, (Value.uint32List s.data).encode]

/-- The bytes of a `(string path, uint32[] data)[]` that is returned. -/
def samplesBytes (l : List Samples) : ByteArray :=
  Slot.joinBodies [Abi.itemsBytes (l.map Samples.bytes)]

/-- The bytes of a `string[]`. -/
def stringsBytes (l : List String) : ByteArray :=
  Abi.itemsBytes (l.map fun s => (Value.string s).encode)

theorem size_bytes (s : Samples) : s.bytes.size =
    128 + Bytes.paddedLength s.path.utf8ByteSize + 32 * s.data.length := by
  have hpath : (Value.string s.path).encode.size = 32 + Bytes.paddedLength s.path.utf8ByteSize :=
    Value.size_encode_string s.path
  have hdata : (Value.uint32List s.data).encode.size = 32 + s.data.length * 32 := by
    rw [Abi.encode_uint32List, Abi.size_listBytes Abi.size_uint32Word]
  have hsize : s.bytes.size = 64 + ((Value.string s.path).encode.size +
      ((Value.uint32List s.data).encode.size + 0)) := Slot.size_joinBodies _
  omega

theorem size_samplesBytes (l : List Samples) :
    (samplesBytes l).size = 64 + (l.map fun s => 32 + s.bytes.size).sum := by
  have hitems : 32 * l.length + Slot.tailLength ((l.map Samples.bytes).map .dynamic) =
      (l.map fun s => 32 + s.bytes.size).sum := by
    induction l with
    | nil => rfl
    | cons s l ih =>
      rw [List.map_cons, List.map_cons, Slot.tailLength_cons, List.map_cons, List.sum_cons, ← ih,
        List.length_cons, Slot.tailSize]
      omega
  have hsize : (samplesBytes l).size = 32 + ((Abi.itemsBytes (l.map Samples.bytes)).size + 0) :=
    Slot.size_joinBodies _
  rw [Abi.size_itemsBytes, List.length_map] at hsize
  omega

theorem readTuple_readsBack (s : Samples) : ReadsBack readTuple s.bytes s := by
  intro b place hb h
  obtain ⟨path, hpath, hbody, -⟩ := Abi.readOffset_body hb h (i := 0) Nat.two_pos
  obtain ⟨data, hdata, hbody', -⟩ := Abi.readOffset_body hb h (i := 1) (Nat.lt_succ_self 1)
  have hle := Abi.le_size_of_readOffset hdata
  exact bind_eq_ok.2 ⟨path, hpath, bind_eq_ok.2 ⟨_, Abi.position_of_lt (by omega),
    bind_eq_ok.2 ⟨data, hdata, bind_eq_ok.2 ⟨_, Abi.readString_readsBack s.path b path hb hbody,
      bind_eq_ok.2 ⟨_, Abi.readUInt32s_readsBack s.data b data hb hbody', rfl⟩⟩⟩⟩⟩

theorem readTuple_readsWhole (s : Samples) : ReadsWhole readTuple s.bytes := by
  intro p rest place v hsize h hv
  obtain ⟨path, -, hv⟩ := bind_eq_ok.1 hv
  obtain ⟨second, hsecond, hv⟩ := bind_eq_ok.1 hv
  obtain ⟨-, rfl⟩ := Abi.position_eq_ok.1 hsecond
  obtain ⟨data, hdata, hv⟩ := bind_eq_ok.1 hv
  obtain ⟨text, -, hv⟩ := bind_eq_ok.1 hv
  obtain ⟨values, hvalues, -⟩ := bind_eq_ok.1 hv
  exact ReadsWhole.last hsize h (i := 1) (Nat.lt_succ_self 1) rfl
    (Abi.readUInt32s_readsWhole s.data) hdata hvalues

theorem readSamples_bytes {l : List Samples} (hl : (samplesBytes l).size < UInt64.size) :
    readSamples (samplesBytes l) = .ok l := by
  obtain ⟨list, hlist, hbody, -⟩ :=
    Abi.readOffset_body hl (Bytes.holds_self (samplesBytes l)) (i := 0) Nat.one_pos
  exact bind_eq_ok.2 ⟨list, hlist,
    ReadsBack.items readTuple_readsBack l (samplesBytes l) list hl hbody⟩

theorem readItems_readsWhole (l : List Samples) :
    ReadsWhole (Abi.readItems readTuple) (Abi.itemsBytes (l.map Samples.bytes)) :=
  .items fun x hx => by
    obtain ⟨s, -, rfl⟩ := List.mem_map.1 hx
    exact readTuple_readsWhole s

/-- Samples are only read where all their bytes are. -/
theorem size_le_of_readSamples {l l' : List Samples} {p rest : ByteArray}
    (hp : p ++ rest = samplesBytes l) (hl : (samplesBytes l).size < UInt64.size)
    (h : readSamples p = .ok l') : (samplesBytes l).size ≤ p.size := by
  obtain ⟨list, hlist, hitems⟩ := bind_eq_ok.1 h
  have hholds : Bytes.Holds (p ++ rest) 0
      (Slot.joinBodies [Abi.itemsBytes (l.map Samples.bytes)]) := by
    rw [hp]
    exact Bytes.holds_self (samplesBytes l)
  have hle := ReadsWhole.last (hp ▸ hl) hholds (i := 0) Nat.one_pos rfl (readItems_readsWhole l)
    hlist hitems
  rwa [Nat.zero_add] at hle

/-- Samples that a contract returns are read as they were written, from the whole of their bytes and
from no part in front of their end; and so are texts, wherever their list stands. -/
theorem samples_read_back (l : List Samples) (hl : (samplesBytes l).size < UInt64.size) :
    readSamples (samplesBytes l) = .ok l ∧
    (∀ k < (samplesBytes l).size, ∃ e, e ≠ DecodeError.fault ∧
      readSamples ((samplesBytes l).extract 0 k) = .error e) ∧
    ∀ (texts : List String) (before behind : ByteArray),
      (before ++ stringsBytes texts ++ behind).size < UInt64.size →
      Abi.readStrings (before ++ stringsBytes texts ++ behind) before.size = .ok texts := by
  refine ⟨readSamples_bytes hl, fun k hk => ?_, fun texts before behind hb => ?_⟩
  · have hp : ((samplesBytes l).extract 0 k).size = k := by
      rw [ByteArray.size_extract]
      omega
    have hsplit : (samplesBytes l).extract 0 k ++ (samplesBytes l).extract k (samplesBytes l).size =
        samplesBytes l := by
      rw [← ByteArray.extract_eq_extract_append_extract k (Nat.zero_le k) (Nat.le_of_lt hk)]
      exact ByteArray.extract_zero_size
    cases hread : readSamples ((samplesBytes l).extract 0 k) with
    | ok l' =>
      have hle := size_le_of_readSamples hsplit hl hread
      omega
    | error e =>
      have hsafe := Abi.safe_readSamples (b := (samplesBytes l).extract 0 k) (by omega)
      exact ⟨e, fun he => hsafe.no_fault (he ▸ hread), rfl⟩
  · exact ReadsBack.items Abi.readString_readsBack texts _ _ hb
      ((Bytes.holds_append_right before (stringsBytes texts)).extend behind)

theorem samples_read_back_wave :
    readSamples (samplesBytes [⟨"Wave", [1, 2, 3]⟩, ⟨"Wave/Inner", []⟩]) =
      .ok [⟨"Wave", [1, 2, 3]⟩, ⟨"Wave/Inner", []⟩] ∧
    (∃ e, e ≠ DecodeError.fault ∧ readSamples ((samplesBytes
      [⟨"Wave", [1, 2, 3]⟩, ⟨"Wave/Inner", []⟩]).extract 0 543) = .error e) ∧
    Abi.readStrings (.empty ++ stringsBytes ["Wave"] ++ .empty) 0 = .ok ["Wave"] := by
  have hsize : (samplesBytes [⟨"Wave", [1, 2, 3]⟩, ⟨"Wave/Inner", []⟩]).size = 544 := by
    rw [size_samplesBytes]
    simp only [List.map_cons, List.map_nil, size_bytes]
    decide
  have htexts : (.empty ++ stringsBytes ["Wave"] ++ .empty : ByteArray).size < UInt64.size := by
    rw [ByteArray.append_empty, ByteArray.empty_append, stringsBytes, Abi.size_itemsBytes]
    change 32 + (32 * 1 + ((Value.string "Wave").encode.size + 0)) < UInt64.size
    rw [Value.size_encode_string]
    decide
  obtain ⟨hread, hfront, hstrings⟩ := samples_read_back
    [⟨"Wave", [1, 2, 3]⟩, ⟨"Wave/Inner", []⟩] (by rw [hsize]; decide)
  exact ⟨hread, hfront 543 (by rw [hsize]; decide), hstrings ["Wave"] .empty .empty htexts⟩

end ParticleChain.Sampling
