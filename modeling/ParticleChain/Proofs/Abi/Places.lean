import Mathlib.Data.List.Forall2
import ParticleChain.Abi.Reader
import ParticleChain.Proofs.Word.Digits

/-!
# Bytes in their place

`Bytes.Holds b offset x`: the bytes `x` stand in `b` from `offset` on. What stands in a part stands
in the whole (`Holds.trans`), and items of one width stand in their row one after the other
(`holds_concat_iff`). A reading in steps succeeds just if each step does (`bind_eq_ok`,
`mapM_range_eq_ok`), and the bytes that are read are those that stand in the place
(`readBytes_eq_ok`).
-/

namespace ParticleChain

namespace Bytes

variable {b x y : ByteArray} {offset k : Nat}

/-- The bytes `x` stand in `b` from `offset` on. -/
def Holds (b : ByteArray) (offset : Nat) (x : ByteArray) : Prop :=
  offset + x.size ≤ b.size ∧ b.extract offset (offset + x.size) = x

theorem holds_empty : Holds b offset .empty ↔ offset ≤ b.size := by
  rw [Holds, ByteArray.size_empty, Nat.add_zero, ByteArray.extract_same]
  exact and_iff_left rfl

theorem holds_self (x : ByteArray) : Holds x 0 x := by
  rw [Holds, Nat.zero_add]
  exact ⟨Nat.le_refl _, ByteArray.extract_zero_size⟩

/-- The bytes of a size that stand in a place. -/
theorem holds_extract {n : Nat} (h : offset + n ≤ b.size) :
    Holds b offset (b.extract offset (offset + n)) := by
  have hs : (b.extract offset (offset + n)).size = n := by
    rw [ByteArray.size_extract]
    omega
  rw [Holds, hs]
  exact ⟨h, rfl⟩

theorem holds_append_iff :
    Holds b offset (x ++ y) ↔ Holds b offset x ∧ Holds b (offset + x.size) y := by
  have hsplit : b.extract offset (offset + x.size + y.size) =
      b.extract offset (offset + x.size) ++ b.extract (offset + x.size) (offset + x.size + y.size) :=
    ByteArray.extract_eq_extract_append_extract _ (Nat.le_add_right _ _) (Nat.le_add_right _ _)
  simp only [Holds, ByteArray.size_append, ← Nat.add_assoc]
  constructor
  · rintro ⟨hle, h⟩
    have hs : (b.extract offset (offset + x.size)).size = x.size := by
      rw [ByteArray.size_extract]
      omega
    rw [hsplit] at h
    obtain ⟨hx, hy⟩ := (ByteArray.append_eq_append_iff_of_size_eq_left hs).1 h
    exact ⟨⟨by omega, hx⟩, hle, hy⟩
  · rintro ⟨⟨-, hx⟩, hle, hy⟩
    exact ⟨hle, by rw [hsplit, hx, hy]⟩

theorem holds_append_right (x y : ByteArray) : Holds (x ++ y) x.size y := by
  have h := (holds_append_iff.1 (holds_self (x ++ y))).2
  rwa [Nat.zero_add] at h

namespace Holds

theorem trans (h : Holds b offset x) (h' : Holds x k y) : Holds b (offset + k) y := by
  obtain ⟨hle, hx⟩ := h
  obtain ⟨hle', hy⟩ := h'
  refine ⟨by omega, ?_⟩
  rw [← hx, ByteArray.extract_extract] at hy
  rwa [show min (offset + (k + y.size)) (offset + x.size) = offset + k + y.size by omega] at hy

/-- What is added behind leaves all in its place. -/
theorem extend (h : Holds b offset x) (rest : ByteArray) : Holds (b ++ rest) offset x := by
  have hb : Holds (b ++ rest) 0 b := (holds_append_iff.1 (holds_self (b ++ rest))).1
  have hx := hb.trans h
  rwa [Nat.zero_add] at hx

end Holds

/-- Byte strings one after the other. -/
def concat (items : List ByteArray) : ByteArray := items.foldr (· ++ ·) .empty

theorem concat_cons (x : ByteArray) (items : List ByteArray) :
    concat (x :: items) = x ++ concat items := rfl

theorem size_concat (items : List ByteArray) :
    (concat items).size = (items.map ByteArray.size).sum := by
  induction items with
  | nil => rfl
  | cons x items ih => rw [concat_cons, ByteArray.size_append, ih, List.map_cons, List.sum_cons]

theorem size_concat_of_width {items : List ByteArray} {width : Nat}
    (hw : ∀ x ∈ items, x.size = width) : (concat items).size = items.length * width := by
  rw [size_concat, List.map_congr_left hw, List.map_const', List.sum_replicate_nat]

/-- Items of one width in a row. -/
theorem holds_concat_iff {items : List ByteArray} {width : Nat}
    (hw : ∀ x ∈ items, x.size = width) :
    Holds b offset (concat items) ↔ offset ≤ b.size ∧
      ∀ (i : Nat) (h : i < items.length), Holds b (offset + width * i) items[i] := by
  induction items generalizing offset with
  | nil =>
    rw [concat, List.foldr_nil, holds_empty]
    exact ⟨fun h => ⟨h, fun i hi => absurd hi (Nat.not_lt_zero i)⟩, And.left⟩
  | cons x items ih =>
    have hx : x.size = width := hw x List.mem_cons_self
    have hstep : ∀ i, offset + width + width * i = offset + width * (i + 1) := fun i => by
      rw [Nat.mul_succ, Nat.add_assoc, Nat.add_comm width]
    rw [concat_cons, holds_append_iff, hx, ih fun y hy => hw y (List.mem_cons_of_mem x hy)]
    constructor
    · rintro ⟨hhead, hle, htail⟩
      refine ⟨by omega, fun i hi => ?_⟩
      cases i with
      | zero => exact hhead
      | succ i =>
        rw [← hstep]
        exact htail i (Nat.lt_of_succ_lt_succ hi)
    · rintro ⟨-, h⟩
      have hhead : Holds b offset x := h 0 (Nat.succ_pos _)
      refine ⟨hhead, hx ▸ hhead.1, fun i hi => ?_⟩
      rw [hstep]
      exact h (i + 1) (Nat.succ_lt_succ hi)

end Bytes

namespace Abi

open Bytes (Holds)

variable {ε α β : Type} {b : ByteArray} {offset width : Nat}

/-! ## Answers -/

theorem bind_eq_ok {x : Except ε α} {f : α → Except ε β} {v : β} :
    (x >>= f) = .ok v ↔ ∃ a, x = .ok a ∧ f a = .ok v := by
  cases x with
  | error e => exact ⟨nofun, fun ⟨_, h, _⟩ => nomatch h⟩
  | ok a =>
    constructor
    · intro h
      exact ⟨a, rfl, h⟩
    · rintro ⟨_, ha, h⟩
      cases ha
      exact h

theorem pure_eq_ok {a v : α} : (pure a : Except ε α) = .ok v ↔ a = v :=
  ⟨Except.ok.inj, congrArg Except.ok⟩

theorem map_eq_ok {x : Except ε α} {f : α → β} {v : β} :
    x.map f = .ok v ↔ ∃ a, x = .ok a ∧ f a = v := by
  cases x with
  | error e => exact ⟨nofun, fun ⟨_, h, _⟩ => nomatch h⟩
  | ok a =>
    constructor
    · intro h
      exact ⟨a, rfl, Except.ok.inj h⟩
    · rintro ⟨_, ha, rfl⟩
      cases ha
      rfl

theorem mapM_eq_ok {f : α → Except ε β} {l : List α} {vs : List β} :
    l.mapM f = .ok vs ↔ List.Forall₂ (fun a v => f a = .ok v) l vs := by
  induction l generalizing vs with
  | nil => rw [List.mapM_nil, pure_eq_ok, List.forall₂_nil_left_iff, eq_comm]
  | cons a l ih =>
    simp only [List.mapM_cons, bind_eq_ok, pure_eq_ok, ih, List.forall₂_cons_left_iff]
    constructor
    · rintro ⟨v, hv, ws, hws, rfl⟩
      exact ⟨v, ws, hv, hws, rfl⟩
    · rintro ⟨v, ws, hv, hws, rfl⟩
      exact ⟨v, hv, ws, hws, rfl⟩

theorem mapM_range_eq_ok {f : Nat → Except ε α} {n : Nat} {vs : List α} :
    (List.range n).mapM f = .ok vs ↔
      vs.length = n ∧ ∀ (i : Nat) (h : i < vs.length), f i = .ok vs[i] := by
  simp only [mapM_eq_ok, List.forall₂_iff_get, List.length_range, List.get_eq_getElem,
    List.getElem_range]
  constructor
  · rintro ⟨rfl, h⟩
    exact ⟨rfl, fun i hi => h i hi hi⟩
  · rintro ⟨rfl, h⟩
    exact ⟨rfl, fun i _ hi => h i hi⟩

/-! ## Bytes -/

theorem readBytes_eq (b : ByteArray) (offset width : Nat) : readBytes b offset width =
    if offset + width ≤ b.size then .ok (b.extract offset (offset + width))
    else .error (.outOfBounds offset width b.size) := by
  unfold readBytes slice
  split
  · rename_i h
    rw [if_pos ⟨Nat.le_add_right offset width, h⟩]
  · rfl

theorem readBytes_eq_ok {x : ByteArray} :
    readBytes b offset width = .ok x ↔ x.size = width ∧ Holds b offset x := by
  rw [readBytes_eq]
  constructor
  · intro h
    split at h
    · rename_i hle
      cases h
      refine ⟨?_, Bytes.holds_extract hle⟩
      rw [ByteArray.size_extract]
      omega
    · cases h
  · rintro ⟨rfl, hle, hx⟩
    rw [if_pos hle, hx]

theorem position_eq_ok {n m : Nat} : position n = .ok m ↔ n < UInt64.size ∧ m = n := by
  unfold position
  split
  · rename_i h
    exact ⟨fun hm => ⟨h, (Except.ok.inj hm).symm⟩, fun ⟨_, hm⟩ => hm ▸ rfl⟩
  · rename_i h
    exact ⟨nofun, fun ⟨hn, _⟩ => absurd hn h⟩

theorem position_of_lt {n : Nat} (h : n < UInt64.size) : position n = .ok n := if_pos h

theorem distance_of_le {stop start : Nat} (h : start ≤ stop) :
    distance stop start = .ok (stop - start) := if_pos h

end Abi

end ParticleChain
