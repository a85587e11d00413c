import ParticleChain.Proofs.Abi.Layout

/-!
# Items behind their offsets

The items of a list whose sizes differ stand behind a row of offsets, one for each
(`Slot.joinBodies`), and each stands at its offset (`readOffset_body`). A reading of such a list is
taken apart in the same way. If each item is read again wherever it stands, so is the list
(`ReadsBack.items`); and if no item is read in front of its end, neither is the list
(`ReadsWhole.items`), since its last item ends where it ends.
-/

namespace ParticleChain.Abi

open Bytes (Holds)

variable {α : Type} {b p rest : ByteArray} {offset base i n : Nat} {bodies : List ByteArray}

/-! ## Written items -/

namespace Slot

/-- Bodies behind their offsets, which count from the first offset. -/
def joinBodies (bodies : List ByteArray) : ByteArray := join (bodies.map dynamic)

theorem headSize_bodies (bodies : List ByteArray) :
    ∀ s ∈ bodies.map dynamic, s.headSize = 32 := by
  intro s hs
  obtain ⟨body, -, rfl⟩ := List.mem_map.1 hs
  rfl

theorem size_joinBodies (bodies : List ByteArray) : (joinBodies bodies).size =
    32 * bodies.length + tailLength (bodies.map dynamic) := by
  rw [joinBodies, size_join, headLength_of_words (headSize_bodies bodies), List.length_map]

/-- Each body stands at its offset, and the last one ends where all ends. -/
theorem holds_joinBodies (hi : i < bodies.length) : ∃ n,
    Holds (joinBodies bodies) (32 * i) (sizeWord n) ∧ Holds (joinBodies bodies) n bodies[i] ∧
      (i + 1 = bodies.length → n + bodies[i].size = (joinBodies bodies).size) := by
  have hi' : i < (bodies.map dynamic).length := by rwa [List.length_map]
  have hslot : (bodies.map dynamic)[i] = dynamic bodies[i] := List.getElem_map dynamic
  obtain ⟨hword, hbody⟩ := holds_dynamic hi' (headSize_bodies bodies) hslot
  refine ⟨_, hword, hbody, fun hlast => ?_⟩
  rw [joinBodies, size_join, tailLength_last hi' (by rwa [List.length_map]), hslot, tailSize,
    Nat.add_assoc]

example (first second : ByteArray) : joinBodies [first, second] =
    sizeWord 64 ++ (sizeWord (64 + first.size) ++ .empty) ++ (first ++ (second ++ .empty)) := rfl

end Slot

/-- A list of items as it is written: their number, and then the items behind their offsets. -/
def itemsBytes (items : List ByteArray) : ByteArray :=
  sizeWord items.length ++ Slot.joinBodies items

theorem size_itemsBytes (items : List ByteArray) : (itemsBytes items).size =
    32 + (32 * items.length + Slot.tailLength (items.map .dynamic)) := by
  rw [itemsBytes, ByteArray.size_append, size_sizeWord, Slot.size_joinBodies]

theorem readOffset_body (hb : b.size < UInt64.size) (h : Holds b base (Slot.joinBodies bodies))
    (hi : i < bodies.length) : ∃ n, readOffset b (base + 32 * i) base = .ok n ∧
      Holds b n bodies[i] ∧
      (i + 1 = bodies.length → n + bodies[i].size = base + (Slot.joinBodies bodies).size) := by
  obtain ⟨n, hword, hbody, hend⟩ := Slot.holds_joinBodies hi
  have hword := h.trans hword
  have hbody := h.trans hbody
  refine ⟨base + n, readOffset_of_holds hword ?_, hbody, fun hlast => ?_⟩
  · exact Nat.lt_of_le_of_lt (Nat.le_of_add_right_le hbody.1) hb
  · rw [Nat.add_assoc, hend hlast]

/-! ## Items that are read -/

/-- Wherever the bytes `x` stand, the value `v` is read. -/
def ReadsBack (read : ByteArray → Nat → Except DecodeError α) (x : ByteArray) (v : α) : Prop :=
  ∀ (b : ByteArray) (place : Nat), b.size < UInt64.size → Holds b place x → read b place = .ok v

/-- Wherever the bytes `x` stand, nothing is read from a front part that ends before they do. -/
def ReadsWhole (read : ByteArray → Nat → Except DecodeError α) (x : ByteArray) : Prop :=
  ∀ (p rest : ByteArray) (place : Nat) (v : α), (p ++ rest).size < UInt64.size →
    Holds (p ++ rest) place x → read p place = .ok v → place + x.size ≤ p.size

theorem size_front_lt (h : (p ++ rest).size < n) : p.size < n := by
  rw [ByteArray.size_append] at h
  omega

theorem readString_readsBack (s : String) : ReadsBack readString (Value.string s).encode s :=
  fun _ _ hb h => readString_of_holds hb h

theorem readUInt32s_readsBack (ns : List UInt32) :
    ReadsBack readUInt32s (Value.uint32List ns).encode ns := by
  intro b place hb h
  rw [encode_uint32List] at h
  exact (readUInt32s_eq_ok hb).2 h

theorem readUInt32s_readsWhole (ns : List UInt32) :
    ReadsWhole readUInt32s (Value.uint32List ns).encode := by
  intro p rest place vs hsize h hvs
  have hp := size_front_lt hsize
  have hvs' := (safe_readUInt32s hp place).extend rest vs hvs
  cases (readUInt32s_readsBack ns _ place hsize h).symm.trans hvs'
  rw [encode_uint32List]
  exact ((readUInt32s_eq_ok hp).1 hvs).1

/-- If the last body behind some offsets is read whole, all of them are there. -/
theorem ReadsWhole.last {read : ByteArray → Nat → Except DecodeError α} {v : α}
    (hsize : (p ++ rest).size < UInt64.size) (h : Holds (p ++ rest) base (Slot.joinBodies bodies))
    (hi : i < bodies.length) (hlast : i + 1 = bodies.length) (hread : ReadsWhole read bodies[i])
    (hn : readOffset p (base + 32 * i) base = .ok n) (hv : read p n = .ok v) :
    base + (Slot.joinBodies bodies).size ≤ p.size := by
  obtain ⟨m, hm, hbody, hend⟩ := readOffset_body hsize h hi
  cases hm.symm.trans ((safe_readOffset p _ base).extend rest n hn)
  rw [← hend hlast]
  exact hread p rest n v hsize hbody hv

theorem readCount_of_holds {items : List ByteArray} (hb : b.size < UInt64.size)
    (h : Holds b offset (itemsBytes items)) : readCount b offset 1 = .ok items.length := by
  obtain ⟨hlen, hbodies⟩ := Bytes.holds_append_iff.1 h
  have hle := hbodies.1
  rw [size_sizeWord, Slot.size_joinBodies] at hle
  exact (readCount_eq_ok hb (by decide)).2 ⟨readSize_eq_ok.2 ⟨by omega, hlen⟩, by omega⟩

theorem holds_bodies {items : List ByteArray} (h : Holds b offset (itemsBytes items)) :
    Holds b (offset + 32) (Slot.joinBodies items) := by
  have hbodies := (Bytes.holds_append_iff.1 h).2
  rwa [size_sizeWord] at hbodies

theorem ReadsBack.items {read : ByteArray → Nat → Except DecodeError α} {write : α → ByteArray}
    (hread : ∀ v, ReadsBack read (write v) v) (vs : List α) :
    ReadsBack (readItems read) (itemsBytes (vs.map write)) vs := by
  intro b offset hb h
  have hcount := readCount_of_holds hb h
  have hle := le_size_of_readCount hb (by decide) hcount
  rw [List.length_map] at hcount hle
  refine bind_eq_ok.2 ⟨_, hcount, bind_eq_ok.2 ⟨_, position_of_lt (by omega),
    mapM_range_eq_ok.2 ⟨rfl, fun i hi => ?_⟩⟩⟩
  obtain ⟨n, hn, hbody, -⟩ :=
    readOffset_body hb (holds_bodies h) (i := i) (by rwa [List.length_map])
  rw [List.getElem_map] at hbody
  rw [Nat.mul_comm i]
  exact bind_eq_ok.2 ⟨_, position_of_lt (by omega), bind_eq_ok.2 ⟨n, hn, hread _ b n hb hbody⟩⟩

theorem ReadsWhole.items {read : ByteArray → Nat → Except DecodeError α} {items : List ByteArray}
    (hread : ∀ x ∈ items, ReadsWhole read x) : ReadsWhole (readItems read) (itemsBytes items) := by
  intro p rest offset vs hsize h hvs
  have hp := size_front_lt hsize
  obtain ⟨count, hcount, hvs⟩ := bind_eq_ok.1 hvs
  obtain ⟨start, hstart, hvs⟩ := bind_eq_ok.1 hvs
  obtain ⟨-, rfl⟩ := position_eq_ok.1 hstart
  obtain ⟨rfl, hsteps⟩ := mapM_range_eq_ok.1 hvs
  have hle := le_size_of_readCount hp (by decide) hcount
  -- The number of items is the same in the front part as in all bytes.
  have hlength := Except.ok.inj ((readCount_of_holds hsize h).symm.trans
    ((safe_readCount hp offset (by decide)).extend rest _ hcount))
  rcases List.eq_nil_or_concat items with rfl | ⟨before, last, rfl⟩
  · exact Nat.le_of_add_right_le hle
  · have hlast : before.length + 1 = (before.concat last).length := List.length_concat.symm
    obtain ⟨place, hplace, hitem⟩ := bind_eq_ok.1 (hsteps before.length (by omega))
    obtain ⟨-, rfl⟩ := position_eq_ok.1 hplace
    obtain ⟨n, hn, hv⟩ := bind_eq_ok.1 hitem
    rw [Nat.mul_comm] at hn
    rw [itemsBytes, ByteArray.size_append, size_sizeWord, ← Nat.add_assoc]
    exact ReadsWhole.last hsize (holds_bodies h) (by omega) hlast
      (hread _ (List.getElem_mem _)) hn hv

end ParticleChain.Abi
