import ParticleChain.Evm.Memory

/-!
# The bytes of a frame's memory

`m.read i` is the byte at offset `i` of a memory without end, zero where nothing was written.
Growing a memory changes none of its bytes, storing changes those of its range.
-/

namespace ParticleChain

namespace Bytes

theorem padded_eq_getD (b : ByteArray) (i : Nat) : padded b i = b.data.getD i 0 := by
  unfold padded
  split <;> rename_i h
  · simp [ByteArray.getElem_eq_getElem_data, Array.getD, h]
  · simp [Array.getD, h]

theorem padded_append (a b : ByteArray) (i : Nat) :
    padded (a ++ b) i = if i < a.size then padded a i else padded b (i - a.size) := by
  simp only [padded_eq_getD, Array.getD_eq_getD_getElem?, ByteArray.data_append]
  split <;> rename_i h
  · rw [Array.getElem?_append_left h]
  · rw [Array.getElem?_append_right (Nat.not_lt.1 h)]
    rfl

theorem size_zeros (n : Nat) : (zeros n).size = n := by
  simp [zeros, ByteArray.size]

theorem padded_zeros (n i : Nat) : padded (zeros n) i = 0 := by
  rw [padded_eq_getD, Array.getD_eq_getD_getElem?]
  simp only [zeros, Array.getElem?_replicate]
  split <;> rfl

theorem padded_of_size_le {b : ByteArray} {i : Nat} (h : b.size ≤ i) : padded b i = 0 :=
  dif_neg (Nat.not_lt.2 h)

theorem padded_extract (b : ByteArray) (i j k : Nat) :
    padded (b.extract i j) k = if i + k < j then padded b (i + k) else 0 := by
  simp only [padded_eq_getD, Array.getD_eq_getD_getElem?, ByteArray.data_extract,
    Array.getElem?_extract]
  split <;> rename_i h
  · rw [if_pos (by omega)]
  · by_cases hb : i + k < b.data.size
    · rw [if_neg (by omega)]
      rfl
    · rw [Array.getElem?_eq_none (Nat.not_lt.1 hb)]
      split <;> rfl

end Bytes

namespace Evm.Memory

/-- The byte at an offset, zero past the end. -/
def read (m : Memory) (i : Nat) : UInt8 := Bytes.padded m.bytes i

theorem size_grow (m : Memory) (o n : Nat) :
    (m.grow o n).size = max m.size (wordCount (o + n) * 32) := by
  unfold grow
  dsimp only
  split
  · simp only [size, ByteArray.size_append, Bytes.size_zeros] at *
    omega
  · omega

theorem read_grow (m : Memory) (o n i : Nat) : (m.grow o n).read i = m.read i := by
  unfold grow read
  dsimp only
  split
  · rw [Bytes.padded_append]
    split
    · rfl
    · rename_i h
      rw [Bytes.padded_zeros, Bytes.padded_of_size_le (Nat.not_lt.1 h)]
  · rfl

/-- The range of a growth lies within the memory afterwards. -/
theorem le_size_grow (m : Memory) (o n : Nat) : o + n ≤ (m.grow o n).size := by
  rw [size_grow]
  unfold wordCount
  omega

theorem data_store (m : Memory) (o : Nat) (b : ByteArray) :
    (m.store o b).bytes = m.bytes.extract 0 o ++ b ++ m.bytes.extract (o + b.size) m.size := by
  simp [store, ByteArray.copySlice_eq_append, size]

theorem size_store {m : Memory} {o : Nat} {b : ByteArray} (h : o + b.size ≤ m.size) :
    (m.store o b).size = m.size := by
  unfold size at *
  simp only [data_store, ByteArray.size_append, ByteArray.size_extract, size]
  omega

theorem read_store {m : Memory} {o : Nat} {b : ByteArray} (h : o + b.size ≤ m.size) (i : Nat) :
    (m.store o b).read i = if o ≤ i ∧ i < o + b.size then Bytes.padded b (i - o) else m.read i := by
  unfold read size at *
  simp only [data_store, Bytes.padded_append, Bytes.padded_extract, ByteArray.size_append,
    ByteArray.size_extract, size]
  have ho : min o m.bytes.size = o := by omega
  simp only [Nat.sub_zero, ho, Nat.zero_add]
  rcases Nat.lt_or_ge i o with h1 | h1
  · rw [if_pos (by omega), if_pos h1, if_pos h1, if_neg (by omega)]
  · rcases Nat.lt_or_ge i (o + b.size) with h2 | h2
    · rw [if_pos h2, if_neg (by omega), if_pos ⟨h1, h2⟩]
    · rw [if_neg (show ¬ i < o + b.size by omega),
        show o + b.size + (i - (o + b.size)) = i by omega,
        if_neg (show ¬ (o ≤ i ∧ i < o + b.size) by omega)]
      split
      · rfl
      · rename_i h3
        rw [Bytes.padded_of_size_le (Nat.not_lt.1 h3)]

/-- The memory grown over a range, if there is one. -/
def cover (m : Memory) : Option (Nat × Nat) → Memory
  | none => m
  | some (o, n) => m.grow o n

theorem read_cover (m : Memory) (r : Option (Nat × Nat)) (i : Nat) :
    (m.cover r).read i = m.read i := by
  rcases r with _ | ⟨o, n⟩
  · rfl
  · exact m.read_grow o n i

/-- A length that holds a range too, if there is one, in whole words. -/
def lengthOver (size : Nat) : Option (Nat × Nat) → Nat
  | none => size
  | some (o, n) => max size (wordCount (o + n) * 32)

theorem size_cover (m : Memory) (r : Option (Nat × Nat)) :
    (m.cover r).size = lengthOver m.size r := by
  rcases r with _ | ⟨o, n⟩
  · rfl
  · exact m.size_grow o n

/-- Whether a range, if there is one, lies within the first `size` bytes. -/
def Holds (size : Nat) : Option (Nat × Nat) → Prop
  | none => True
  | some (o, n) => o + n ≤ size

theorem holds_cover (m : Memory) (r : Option (Nat × Nat)) : Holds (m.cover r).size r := by
  rcases r with _ | ⟨o, n⟩
  · trivial
  · exact m.le_size_grow o n

/-- The bytes stored in a range, if there is one, as far as they fit. -/
def storing (m : Memory) (b : ByteArray) : Option (Nat × Nat) → Memory
  | none => m
  | some (o, n) => m.store o (b.extract 0 (min n b.size))

theorem size_fitting (b : ByteArray) (n : Nat) :
    (b.extract 0 (min n b.size)).size = min n b.size := by
  rw [ByteArray.size_extract]
  omega

theorem size_storing {m : Memory} {b : ByteArray} {r : Option (Nat × Nat)}
    (h : Holds m.size r) : (m.storing b r).size = m.size := by
  rcases r with _ | ⟨o, n⟩
  · rfl
  · have h : o + n ≤ m.size := h
    exact size_store (by rw [size_fitting]; omega)

/-- The byte at an offset after some bytes are stored in a range, as far as they fit. -/
def readStored (m : Memory) (b : ByteArray) (i : Nat) : Option (Nat × Nat) → UInt8
  | none => m.read i
  | some (o, n) =>
    if o ≤ i ∧ i < o + min n b.size then Bytes.padded b (i - o) else m.read i

theorem read_storing {m : Memory} {b : ByteArray} {r : Option (Nat × Nat)}
    (h : Holds m.size r) (i : Nat) : (m.storing b r).read i = m.readStored b i r := by
  rcases r with _ | ⟨o, n⟩
  · rfl
  · have h : o + n ≤ m.size := h
    have hs := size_fitting b n
    unfold storing readStored
    dsimp only
    rw [read_store (by omega), hs]
    by_cases hi : o ≤ i ∧ i < o + min n b.size
    · rw [if_pos hi, if_pos hi, Bytes.padded_extract, Nat.zero_add, if_pos (by omega)]
    · rw [if_neg hi, if_neg hi]

end Evm.Memory

end ParticleChain
