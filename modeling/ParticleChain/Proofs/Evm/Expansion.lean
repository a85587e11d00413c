import Mathlib.Order.Bounds.Basic
import ParticleChain.Proofs.Evm.Calls
import ParticleChain.Proofs.Evm.Checked
import ParticleChain.Proofs.Word.Fields

/-!
# Memory is paid for once

Touching a span of memory charges for the growth over it. The charge is the price of the memory
afterwards less its price before, so what a frame has left and what its memory is worth make up a
sum that touching keeps (`worth_touched`). Hence the charges for any spans come to the price of the
fewest words that hold them all, whatever their order and however they are split
(`memory_paid_once`).
-/

namespace ParticleChain

/-- A word is a size just if it is below `2 ^ 64`. -/
theorem Word.size?_eq (a : Word) :
    a.size? = if a.toNat < UInt64.size then some a.toNat else none := by
  split
  · rename_i h
    exact size?_of_lt h
  · rename_i h
    refine Option.eq_none_iff_forall_ne_some.2 fun n hn => ?_
    obtain ⟨rfl, hlt⟩ := size?_eq_some_iff.1 hn
    exact h hlt

namespace Evm

/-! ## Spans -/

/-- The operands of an access to memory. -/
structure Span where
  offset : Word
  length : Word

namespace Span

/-- Nothing without length, and otherwise the bytes from the offset on. -/
def range (s : Span) : Option (Nat × Nat) :=
  if s.length.toNat = 0 then none else some (s.offset.toNat, s.length.toNat)

theorem range_of_zero {s : Span} (h : s.length.toNat = 0) : s.range = none := if_pos h

theorem range_of_pos {s : Span} (h : s.length.toNat ≠ 0) :
    s.range = some (s.offset.toNat, s.length.toNat) := if_neg h

/-- The operands give a range of memory. -/
def Accepted (s : Span) : Prop := Memory.range s.offset s.length = .ok s.range

/-- The byte at an offset is in the span. -/
def Has (s : Span) (i : Nat) : Prop := s.offset.toNat ≤ i ∧ i < s.offset.toNat + s.length.toNat

/-- The number of words up to the end of the span, none without length. -/
def words (s : Span) : Nat :=
  if s.length.toNat = 0 then 0 else wordCount (s.offset.toNat + s.length.toNat)

/-- Operands are resolved by their numbers. They are refused if a byte lies beyond the limit. -/
theorem range_eq (s : Span) : Memory.range s.offset s.length =
    if s.length.toNat = 0 ∨ s.offset.toNat + s.length.toNat ≤ Memory.limit then .ok s.range
    else .error .memoryLimit := by
  obtain ⟨a, b⟩ := s
  have hlimit : Memory.limit < UInt64.size := by decide
  unfold Memory.range range
  rw [Word.size?_eq, Word.size?_eq]
  by_cases hb : b.toNat = 0
  · rw [if_pos (Word.isZero_iff_toNat.2 hb), if_pos (.inl hb), if_pos hb]
  · rw [if_neg (mt Word.isZero_iff_toNat.1 hb), if_neg hb]
    dsimp only
    by_cases hle : a.toNat + b.toNat ≤ Memory.limit
    · rw [if_pos (by omega), if_pos (by omega), if_pos (.inr hle)]
      exact if_pos hle
    · rw [if_neg (not_or.2 ⟨hb, hle⟩)]
      split
      · rename_i o n ho hn
        split at ho <;> cases ho
        split at hn <;> cases hn
        exact if_neg hle
      · rfl

theorem accepted_iff {s : Span} :
    s.Accepted ↔ s.length.toNat = 0 ∨ s.offset.toNat + s.length.toNat ≤ Memory.limit := by
  unfold Accepted
  rw [range_eq]
  split <;> simp_all

instance (s : Span) : Decidable s.Accepted := decidable_of_iff _ accepted_iff.symm

theorem refused {s : Span} (h : ¬ s.Accepted) :
    Memory.range s.offset s.length = .error .memoryLimit := by
  rw [range_eq, if_neg (mt accepted_iff.2 h)]

end Span

/-- The fewest words that hold all spans. -/
def wordsFor : List Span → Nat
  | [] => 0
  | s :: spans => max s.words (wordsFor spans)

/-- Words hold a span just if they reach to its end. -/
theorem Span.words_le_iff {s : Span} {w : Nat} : s.words ≤ w ↔ ∀ i, s.Has i → i < 32 * w := by
  unfold words Has
  split
  · rename_i h
    exact ⟨fun _ i hi => by omega, fun _ => Nat.zero_le w⟩
  · rename_i h
    constructor
    · intro hw i hi
      unfold wordCount at hw
      omega
    · intro hw
      have := hw (s.offset.toNat + s.length.toNat - 1) (by omega)
      unfold wordCount
      omega

theorem wordsFor_le_iff {spans : List Span} {w : Nat} :
    wordsFor spans ≤ w ↔ ∀ s ∈ spans, ∀ i, s.Has i → i < 32 * w := by
  induction spans with
  | nil => simp [wordsFor]
  | cons s spans ih => rw [wordsFor, Nat.max_le, ih, s.words_le_iff, List.forall_mem_cons]

theorem wordsFor_append (spans others : List Span) :
    wordsFor (spans ++ others) = max (wordsFor spans) (wordsFor others) := by
  induction spans with
  | nil => exact (Nat.zero_max _).symm
  | cons s spans ih => rw [List.cons_append, wordsFor, ih, wordsFor, Nat.max_assoc]

theorem isLeast_wordsFor (spans : List Span) :
    IsLeast {w | ∀ s ∈ spans, ∀ i, s.Has i → i < 32 * w} (wordsFor spans) :=
  ⟨wordsFor_le_iff.1 (Nat.le_refl _), fun _ h => wordsFor_le_iff.2 h⟩

/-- Spans that have the same bytes need the same words. -/
theorem wordsFor_congr {spans others : List Span}
    (h : ∀ i, (∃ s ∈ others, s.Has i) ↔ ∃ s ∈ spans, s.Has i) :
    wordsFor others = wordsFor spans := by
  have hle : ∀ w, wordsFor others ≤ w ↔ wordsFor spans ≤ w := fun w => by
    rw [wordsFor_le_iff, wordsFor_le_iff]
    constructor
    · intro hw s hs i hi
      obtain ⟨s', hs', hi'⟩ := (h i).2 ⟨s, hs, hi⟩
      exact hw s' hs' i hi'
    · intro hw s hs i hi
      obtain ⟨s', hs', hi'⟩ := (h i).1 ⟨s, hs, hi⟩
      exact hw s' hs' i hi'
  exact Nat.le_antisymm ((hle _).2 (Nat.le_refl _)) ((hle _).1 (Nat.le_refl _))

/-! ## The price of memory -/

/-- Up to the limit the price is as it is written, and not cut off at the largest amount. -/
theorem memoryCost_exact {n : Nat} (h : n ≤ Memory.limit) : memoryCost (wordCount n) =
    3 * wordCount n + wordCount n * wordCount n / 512 := by
  have hlimit : Memory.limit = 2 ^ 32 := rfl
  have hmax : maxAmount = 2 ^ 64 - 1 := rfl
  have hwords : wordCount n ≤ 2 ^ 27 := by
    unfold wordCount
    omega
  have hsquare : wordCount n * wordCount n ≤ 2 ^ 27 * 2 ^ 27 := Nat.mul_le_mul hwords hwords
  unfold memoryCost saturate
  omega

theorem wordCount_max_words (a k : Nat) : wordCount (max a (k * 32)) = max (wordCount a) k := by
  unfold wordCount
  omega

theorem wordCount_words (k : Nat) : wordCount (32 * k) = k := by
  unfold wordCount
  omega

namespace Memory

/-- What the words of the memory cost. -/
def price (m : Memory) : Nat := memoryCost (wordCount m.size)

/-- What growing over a range, if there is one, costs. -/
def charge (m : Memory) : Option (Nat × Nat) → Nat
  | none => 0
  | some (o, n) => m.expansionGas o n

theorem size_cover_span (m : Memory) (s : Span) :
    (m.cover s.range).size = max m.size (s.words * 32) := by
  rw [size_cover]
  unfold Span.range Span.words
  split
  · exact (Nat.max_eq_left (Nat.zero_le _)).symm
  · rfl

theorem wordCount_cover (m : Memory) (s : Span) :
    wordCount (m.cover s.range).size = max (wordCount m.size) s.words := by
  rw [size_cover_span, wordCount_max_words]

/-- The charge makes up for the difference of the prices. -/
theorem price_add_charge (m : Memory) (r : Option (Nat × Nat)) :
    m.price + m.charge r = (m.cover r).price := by
  rcases r with _ | ⟨o, n⟩
  · rfl
  · have hwords : wordCount (m.grow o n).size = max (wordCount m.size) (wordCount (o + n)) := by
      rw [size_grow, wordCount_max_words]
    change m.price + m.expansionGas o n = (m.grow o n).price
    unfold expansionGas price
    dsimp only
    rw [hwords]
    split
    · rename_i h
      rw [Nat.max_eq_left h, Nat.add_zero]
    · rename_i h
      have hlt := Nat.le_of_not_le h
      rw [Nat.max_eq_right hlt, Nat.add_sub_cancel' (memoryCost_mono hlt)]

theorem memoryCost_span (m : Memory) (s : Span) :
    memoryCost (max (wordCount m.size) (wordsFor [s])) = m.price + m.charge s.range := by
  rw [price_add_charge, price, wordCount_cover, wordsFor, wordsFor, Nat.max_zero]

/-- The charges for touching spans one after another, from this memory on. -/
def charges (m : Memory) : List Span → List Nat
  | [] => []
  | s :: spans => m.charge s.range :: (m.cover s.range).charges spans

theorem price_add_charges (m : Memory) (spans : List Span) :
    m.price + (m.charges spans).sum = memoryCost (max (wordCount m.size) (wordsFor spans)) := by
  induction spans generalizing m with
  | nil => rw [charges, List.sum_nil, wordsFor, Nat.max_zero, price, Nat.add_zero]
  | cons s spans ih =>
    rw [charges, List.sum_cons, ← Nat.add_assoc, price_add_charge, ih, wordCount_cover, wordsFor,
      Nat.max_assoc]

end Memory

/-! ## Frames that touch memory -/

namespace Frame

/-- The gas that the frame has left and the price of its memory. -/
def worth (f : Frame) : Nat := f.gasLeft + f.memory.price

variable {f : Frame} {r : Option (Nat × Nat)}

/-- The growth is paid for just if the frame is worth the memory afterwards. -/
theorem charge_le_iff : f.memory.charge r ≤ f.gasLeft ↔ (f.memory.cover r).price ≤ f.worth := by
  have := f.memory.price_add_charge r
  unfold worth
  omega

theorem gasLeft_touched : (f.touched r).gasLeft = f.gasLeft - f.memory.charge r := by
  rcases r with _ | ⟨o, n⟩ <;> rfl

/-- What is charged for memory goes into memory. -/
theorem worth_touched (h : f.memory.charge r ≤ f.gasLeft) : (f.touched r).worth = f.worth := by
  have := f.memory.price_add_charge r
  unfold worth
  rw [gasLeft_touched, memory_touched]
  omega

/-- The frame that has touched some spans. -/
def touchedAll (f : Frame) : List Span → Frame
  | [] => f
  | s :: spans => (f.touched s.range).touchedAll spans

theorem size_touchedAll (f : Frame) (spans : List Span) :
    (f.touchedAll spans).memory.size = max f.memory.size (wordsFor spans * 32) := by
  induction spans generalizing f with
  | nil => exact (Nat.max_eq_left (Nat.zero_le _)).symm
  | cons s spans ih =>
    rw [touchedAll, ih, memory_touched, Memory.size_cover_span, wordsFor, Nat.max_assoc,
      Nat.mul_max_mul_right]

end Frame

namespace Exec

variable {f : Frame} {s : Span}

theorem touch_ok (hs : s.Accepted) (hg : f.memory.charge s.range ≤ f.gasLeft) :
    touch s.offset s.length f = .ok s.range (f.touched s.range) := by
  unfold touch
  rcases hr : s.range with _ | ⟨o, n⟩ <;> rw [hr] at hg <;> rw [show _ = _ from hs, hr]
  · rfl
  · have hle := Memory.le_limit_of_range (hs.trans (congrArg _ hr))
    exact (bind_ok (bounded_ok (Nat.le_trans hle (by decide)) f)).trans <| (bind_ok rfl).trans <|
      (bind_ok (charge_ok hg)).trans (bind_ok rfl)

theorem touch_trap (hs : s.Accepted) (hg : ¬ f.memory.charge s.range ≤ f.gasLeft) :
    touch s.offset s.length f =
      .error (.outOfGas (f.memory.charge s.range) f.gasLeft) f := by
  unfold touch
  rcases hr : s.range with _ | ⟨o, n⟩ <;> rw [hr] at hg <;> rw [show _ = _ from hs, hr]
  · exact absurd (Nat.zero_le _) hg
  · have hle := Memory.le_limit_of_range (hs.trans (congrArg _ hr))
    exact (bind_ok (bounded_ok (Nat.le_trans hle (by decide)) f)).trans <| (bind_ok rfl).trans <|
      bind_error (charge_trap hg)

/-- Touches spans one after another. -/
def touchAll (spans : List Span) : Exec (List (Option (Nat × Nat))) :=
  spans.mapM fun s => touch s.offset s.length

theorem touchAll_cons (s : Span) (spans : List Span) : touchAll (s :: spans) = do
    let r ← touch s.offset s.length
    let rs ← touchAll spans
    return r :: rs := List.mapM_cons

variable {spans : List Span}

theorem touchAll_ok (hs : ∀ s ∈ spans, s.Accepted)
    (hg : memoryCost (max (wordCount f.memory.size) (wordsFor spans)) ≤ f.worth) :
    touchAll spans f = .ok (spans.map Span.range) (f.touchedAll spans) ∧
      (f.touchedAll spans).worth = f.worth := by
  induction spans generalizing f with
  | nil => exact ⟨rfl, rfl⟩
  | cons s spans ih =>
    obtain ⟨hs, hrest⟩ := List.forall_mem_cons.1 hs
    rw [wordsFor, ← Nat.max_assoc, ← f.memory.wordCount_cover s] at hg
    have hcharge : f.memory.charge s.range ≤ f.gasLeft :=
      Frame.charge_le_iff.2 (Nat.le_trans (memoryCost_mono (Nat.le_max_left _ _)) hg)
    rw [← f.memory_touched, ← Frame.worth_touched hcharge] at hg
    obtain ⟨hrun, hworth⟩ := ih hrest hg
    refine ⟨?_, hworth.trans (Frame.worth_touched hcharge)⟩
    rw [touchAll_cons]
    exact (bind_ok (touch_ok hs hcharge)).trans (bind_ok hrun)

theorem touchAll_trap (hs : ∀ s ∈ spans, s.Accepted)
    (hg : f.worth < memoryCost (max (wordCount f.memory.size) (wordsFor spans))) :
    ∃ n g, touchAll spans f = .error (.outOfGas n g.gasLeft) g := by
  induction spans generalizing f with
  | nil =>
    rw [wordsFor, Nat.max_zero] at hg
    exact absurd hg (Nat.not_lt.2 (Nat.le_add_left _ _))
  | cons s spans ih =>
    obtain ⟨hs, hrest⟩ := List.forall_mem_cons.1 hs
    rw [touchAll_cons]
    by_cases hcharge : f.memory.charge s.range ≤ f.gasLeft
    · rw [wordsFor, ← Nat.max_assoc, ← f.memory.wordCount_cover s, ← f.memory_touched,
        ← Frame.worth_touched hcharge] at hg
      obtain ⟨n, g, hrun⟩ := ih hrest hg
      exact ⟨n, g, (bind_ok (touch_ok hs hcharge)).trans (bind_error hrun)⟩
    · exact ⟨_, f, bind_error (touch_trap hs hcharge)⟩

end Exec

/-! ## All charges together -/

open Exec

/-- The charges for touching spans, from an empty memory on, come to the price of the fewest words
that hold them all, and that is how long the memory is then. So they do not depend on the order of
the spans or on how they are split. No charge is negative, and no price is cut off. -/
theorem memory_paid_once (spans : List Span) (hspans : ∀ s ∈ spans, s.Accepted) :
    (∀ f : Frame, f.memory = .empty →
      (memoryCost (wordsFor spans) ≤ f.gasLeft → ∃ g,
        touchAll spans f = .ok (spans.map Span.range) g ∧ g.memory.size = 32 * wordsFor spans ∧
          g.gasLeft + (f.memory.charges spans).sum = f.gasLeft ∧
          (f.memory.charges spans).sum = memoryCost (wordCount g.memory.size)) ∧
      (f.gasLeft < memoryCost (wordsFor spans) →
        ∃ n g, touchAll spans f = .error (.outOfGas n g.gasLeft) g)) ∧
    (Memory.empty.charges spans).sum = memoryCost (wordsFor spans) ∧
    IsLeast {w | ∀ s ∈ spans, ∀ i, s.Has i → i < 32 * w} (wordsFor spans) ∧
    (∀ others : List Span, (∀ i, (∃ s ∈ others, s.Has i) ↔ ∃ s ∈ spans, s.Has i) →
      (Memory.empty.charges others).sum = (Memory.empty.charges spans).sum) ∧
    (∀ (m : Memory) (s : Span), (m.charge s.range : Int) =
      memoryCost (wordCount (m.cover s.range).size) - memoryCost (wordCount m.size)) ∧
    Monotone memoryCost ∧
    ∀ n ≤ Memory.limit,
      memoryCost (wordCount n) = 3 * wordCount n + wordCount n * wordCount n / 512 := by
  have hsum : ∀ l, (Memory.empty.charges l).sum = memoryCost (wordsFor l) := fun l => by
    have h := Memory.empty.price_add_charges l
    rwa [show Memory.empty.price = 0 from rfl, Nat.zero_add,
      show wordCount Memory.empty.size = 0 from rfl, Nat.zero_max] at h
  refine ⟨fun f hf => ?_, hsum spans, isLeast_wordsFor spans, fun others h => ?_, fun m s => ?_,
    fun _ _ => memoryCost_mono, fun n => memoryCost_exact⟩
  · have hworth : f.worth = f.gasLeft := by
      rw [Frame.worth, hf]
      rfl
    have hneed : max (wordCount f.memory.size) (wordsFor spans) = wordsFor spans := by
      rw [hf]
      exact Nat.zero_max _
    refine ⟨fun hg => ?_, fun hg => touchAll_trap hspans (by rwa [hneed, hworth])⟩
    obtain ⟨hrun, hkept⟩ := touchAll_ok (f := f) hspans (by rwa [hneed, hworth])
    have hsize : (f.touchedAll spans).memory.size = 32 * wordsFor spans := by
      rw [f.size_touchedAll, hf, Nat.mul_comm]
      exact Nat.zero_max _
    have hprice : (f.memory.charges spans).sum = (f.touchedAll spans).memory.price := by
      rw [hf, hsum, Memory.price, hsize, wordCount_words]
    refine ⟨_, hrun, hsize, ?_, hprice⟩
    rw [hprice, ← hworth, ← hkept]
    rfl
  · rw [hsum, hsum, wordsFor_congr h]
  · have h := m.price_add_charge s.range
    unfold Memory.price at h
    omega

/-- A span over the end of a word, one of no bytes from the largest offset on, and one that holds
the first come to two words, for six units of gas and no less. So do the same bytes split otherwise.
-/
theorem memory_paid_once_straddling :
    let spans : List Span := [⟨.ofNat 31, .ofNat 2⟩, ⟨.max, .zero⟩, ⟨.zero, .ofNat 33⟩]
    let f := fun gas => Frame.start (.plainCall .zero .zero .empty gas .zero) .empty
      (View.ofWorld .empty) .empty
    (∃ g, touchAll spans (f 6) = .ok [some (31, 2), none, some (0, 33)] g ∧ g.memory.size = 64 ∧
      g.gasLeft = 0) ∧
    (∃ n g, touchAll spans (f 5) = .error (.outOfGas n g.gasLeft) g) ∧
    (Memory.empty.charges [⟨.zero, .ofNat 33⟩, ⟨.ofNat 31, .ofNat 1⟩]).sum = 6 := by
  intro spans f
  obtain ⟨hrun, hsum, -, hsame, -⟩ := memory_paid_once spans (by decide)
  have hcost : memoryCost (wordsFor spans) = 6 := by decide
  refine ⟨?_, (hrun (f 5) rfl).2 (by decide), ?_⟩
  · obtain ⟨g, hg, hsize, hleft, -⟩ := (hrun (f 6) rfl).1 (by decide)
    refine ⟨g, hg, hsize, ?_⟩
    rw [show (f 6).memory = .empty from rfl, hsum, hcost] at hleft
    exact Nat.add_right_cancel (hleft.trans (Nat.zero_add 6).symm)
  · refine (hsame _ fun i => ?_).trans (hsum.trans hcost)
    have h31 : (Word.ofNat 31).toNat = 31 := by decide
    have h33 : (Word.ofNat 33).toNat = 33 := by decide
    have h2 : (Word.ofNat 2).toNat = 2 := by decide
    have h1 : (Word.ofNat 1).toNat = 1 := by decide
    have h0 : Word.zero.toNat = 0 := by decide
    simp only [spans, List.mem_cons, List.not_mem_nil, exists_eq_or_imp, or_false,
      exists_eq_left, Span.Has, h31, h33, h2, h1, h0]
    omega

end Evm

end ParticleChain
