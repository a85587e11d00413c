import ParticleChain.Evm.Step
import ParticleChain.Proofs.Word.Digits
import ParticleChain.Proofs.Word.Shifts

/-!
# Operations that stay in range

The functions that instructions are made of work on 64-bit numbers, on bytes and on slices, and
not all of them look whether a sum, a difference, a product or a slice exists. Each has a twin
here in which all of these are checked. The twin gives the same result (`expansionGas?_eq` and the
like), under bounds on its numbers and on the lengths of its byte strings.
-/

namespace ParticleChain

/-! ## Zero extensions -/

namespace Bytes

theorem size_window (b : ByteArray) (i n : Nat) : (window b i n).size = n := by
  simp only [window, ByteArray.size_append, ByteArray.size_extract, size_zeros]
  omega

theorem padded_window (b : ByteArray) (i : Nat) {n j : Nat} (hj : j < n) :
    padded (window b i n) j = padded b (i + j) := by
  simp only [window, padded_append, padded_extract, padded_zeros, ByteArray.size_extract]
  split
  · rw [if_pos (by omega)]
  · exact (padded_of_size_le (by omega)).symm

theorem window_append (b : ByteArray) (i n k : Nat) :
    window b i (n + k) = window b i n ++ window b (i + n) k := by
  refine Word.bytes_ext ?_ fun j hj => ?_
  · rw [ByteArray.size_append, size_window, size_window, size_window]
  · rw [size_window] at hj
    rw [padded_window b i hj, padded_append, size_window]
    split
    · rename_i h
      rw [padded_window b i h]
    · rw [padded_window b _ (by omega), show i + n + (j - n) = i + j by omega]

theorem window_of_size_le {b : ByteArray} {i : Nat} (h : b.size ≤ i) (n : Nat) :
    window b i n = zeros n := by
  refine Word.bytes_ext (by rw [size_window, size_zeros]) fun j hj => ?_
  rw [size_window] at hj
  rw [padded_window b i hj, padded_zeros, padded_of_size_le (by omega)]

theorem wordAt_window (b : ByteArray) (i : Nat) : wordAt (window b i 32) 0 = wordAt b i := by
  have hlimb : ∀ k, k ≤ 24 → limbAt (window b i 32) k = limbAt b (i + k) := fun k hk => by
    simp only [limbAt, Nat.add_assoc]
    rw [padded_window b i (by omega), padded_window b i (by omega), padded_window b i (by omega),
      padded_window b i (by omega), padded_window b i (by omega), padded_window b i (by omega),
      padded_window b i (by omega), padded_window b i (by omega)]
  simp only [wordAt, Nat.zero_add]
  rw [hlimb 24 (by decide), hlimb 16 (by decide), hlimb 8 (by decide), hlimb 0 (by decide)]
  rfl

theorem toNat_zeros (n : Nat) : toNat (zeros n) = 0 := toNat_fill_zero n

end Bytes

namespace Evm

open Bytes (window zeros)

/-! ## Checked operations -/

namespace Machine

/-- A sum of 64-bit numbers. -/
def add? (a b : Nat) : Option Nat := if a + b ≤ maxAmount then some (a + b) else none

/-- A difference that is not negative. -/
def sub? (a b : Nat) : Option Nat := if b ≤ a then some (a - b) else none

/-- A product of 64-bit numbers. -/
def mul? (a b : Nat) : Option Nat := if a * b ≤ maxAmount then some (a * b) else none

/-- A number as a byte. -/
def byte? (n : Nat) : Option UInt8 := if n < 256 then some n.toUInt8 else none

/-- The bytes from `i` up to `j`. -/
def slice? (b : ByteArray) (i j : Nat) : Option ByteArray :=
  if i ≤ j ∧ j ≤ b.size then some (b.extract i j) else none

/-- The bytes with those from `i` on overwritten. -/
def overwrite? (b : ByteArray) (i : Nat) (source : ByteArray) : Option ByteArray :=
  if i + source.size ≤ b.size then some (source.copySlice 0 b i source.size) else none

theorem add?_eq {a b : Nat} (h : a + b ≤ maxAmount) : add? a b = some (a + b) := if_pos h

theorem sub?_eq {a b : Nat} (h : b ≤ a) : sub? a b = some (a - b) := if_pos h

theorem mul?_eq {a b : Nat} (h : a * b ≤ maxAmount) : mul? a b = some (a * b) := if_pos h

theorem byte?_eq {n : Nat} (h : n < 256) : byte? n = some n.toUInt8 := if_pos h

theorem slice?_eq {b : ByteArray} {i j : Nat} (hi : i ≤ j) (hj : j ≤ b.size) :
    slice? b i j = some (b.extract i j) := if_pos ⟨hi, hj⟩

/-- A piece of a byte string, copied into zeros. -/
theorem overwrite?_zeros {b : ByteArray} {i j k n m : Nat} (hj : j = min (i + n) b.size)
    (hi : i ≤ j) (hm : k + n ≤ m) : overwrite? (zeros m) k (b.extract i j) =
      some (zeros k ++ window b i n ++ zeros (m - (k + n))) := by
  have hsize : (b.extract i j).size = j - i := by
    rw [ByteArray.size_extract]
    omega
  have hfits : k + (b.extract i j).size ≤ (zeros m).size := by
    rw [hsize, Bytes.size_zeros]
    omega
  rw [overwrite?, if_pos hfits]
  have hsize' := Memory.size_store (m := ⟨zeros m⟩) hfits
  refine congrArg some (Word.bytes_ext ?_ fun p hp => ?_)
  · refine hsize'.trans ?_
    rw [ByteArray.size_append, ByteArray.size_append, Bytes.size_zeros, Bytes.size_zeros,
      Bytes.size_window]
    exact (Bytes.size_zeros m).trans (by omega)
  · have hread := Memory.read_store (m := ⟨zeros m⟩) hfits p
    refine hread.trans ?_
    change (if _ then _ else Bytes.padded (zeros m) p) = _
    rw [hsize, Bytes.padded_append, Bytes.padded_append, ByteArray.size_append, Bytes.size_zeros,
      Bytes.size_window, Bytes.padded_zeros, Bytes.padded_zeros, Bytes.padded_zeros,
      Bytes.padded_extract]
    by_cases h1 : p < k
    · rw [if_neg (by omega), if_pos (by omega), if_pos h1]
    · by_cases h2 : p < k + n
      · rw [if_pos h2, if_neg h1, Bytes.padded_window b i (by omega)]
        split
        · rw [if_pos (by omega)]
        · exact (Bytes.padded_of_size_le (by omega)).symm
      · rw [if_neg (by omega), if_neg h2]

/-- A piece of a byte string, copied to the front of as many zeros as are asked for. -/
theorem overwrite?_front {b : ByteArray} {i j n : Nat} (hj : j = min (i + n) b.size)
    (hi : i ≤ j) : overwrite? (zeros n) 0 (b.extract i j) = some (window b i n) := by
  rw [overwrite?_zeros hj hi (by omega), Nat.zero_add, Nat.sub_self,
    show zeros 0 = ByteArray.empty from rfl, ByteArray.empty_append, ByteArray.append_empty]

end Machine

open Machine

/-- The length from which on no byte string is considered: a 64-bit machine holds none. -/
def lengthLimit : Nat := 2 ^ 48

/-! ## Gas -/

/-- `allButOne64th`, checked. -/
def allButOne64th? (n : Nat) : Option Nat := sub? n (n / 64)

theorem allButOne64th?_eq (n : Nat) : allButOne64th? n = some (allButOne64th n) :=
  sub?_eq (Nat.div_le_self n 64)

theorem memoryCost_mono {n k : Nat} (h : n ≤ k) : memoryCost n ≤ memoryCost k := by
  have hsquare : n * n ≤ k * k := Nat.mul_le_mul h h
  unfold memoryCost saturate
  omega

/-- `intrinsicGas`, checked. -/
def intrinsicGas? (input : ByteArray) (creates : Bool) : Option Nat := do
  let data ← input.data.foldlM
    (fun n b => add? n (if b = 0 then Price.zeroByte else Price.dataByte)) 0
  let creation ← if creates then do
      let words ← mul? Price.initWord (wordCount input.size)
      add? Price.creation words
    else some 0
  let base ← add? Price.transaction data
  add? base creation

theorem foldl_byteCost (l : List UInt8) {n : Nat} (h : n + 16 * l.length ≤ maxAmount) :
    l.foldlM (fun n b => add? n (if b = 0 then Price.zeroByte else Price.dataByte)) n =
      some (l.foldl (fun n b => n + if b = 0 then Price.zeroByte else Price.dataByte) n) ∧
    l.foldl (fun n b => n + if b = 0 then Price.zeroByte else Price.dataByte) n ≤
      n + 16 * l.length := by
  induction l generalizing n with
  | nil => exact ⟨rfl, Nat.le_refl n⟩
  | cons b l ih =>
    have hcost : (if b = 0 then Price.zeroByte else Price.dataByte) ≤ 16 := by
      split <;> decide
    rw [List.length_cons] at h
    obtain ⟨hsome, hle⟩ := ih
      (n := n + if b = 0 then Price.zeroByte else Price.dataByte) (by omega)
    refine ⟨?_, ?_⟩
    · rw [List.foldlM_cons, add?_eq (by omega)]
      exact hsome
    · rw [List.foldl_cons, List.length_cons]
      omega

theorem intrinsicGas?_eq {input : ByteArray} (h : input.size < lengthLimit) (creates : Bool) :
    intrinsicGas? input creates = some (intrinsicGas input creates) := by
  have hlist : input.data.toList.length = input.size := rfl
  have hmax : maxAmount = 2 ^ 64 - 1 := rfl
  have hlimit : lengthLimit = 2 ^ 48 := rfl
  obtain ⟨hsome, hle⟩ := foldl_byteCost input.data.toList (n := 0) (by omega)
  rw [Array.foldlM_toList, Array.foldl_toList] at hsome
  rw [Array.foldl_toList] at hle
  have hwords : wordCount input.size ≤ input.size + 1 := by
    unfold wordCount
    omega
  have htx : Price.transaction = 21000 := rfl
  have hcreate : Price.creation = 32000 := rfl
  have hcost : Price.initWord * wordCount input.size ≤ 2 * (input.size + 1) :=
    Nat.mul_le_mul_left 2 hwords
  unfold intrinsicGas? intrinsicGas
  rw [hsome]
  cases creates with
  | true =>
    simp only [Option.bind_eq_bind, Option.bind_some, if_true]
    rw [mul?_eq (by omega), Option.bind_some, add?_eq (by omega), Option.bind_some,
      add?_eq (by omega), Option.bind_some, add?_eq (by omega)]
  | false =>
    simp only [Option.bind_eq_bind, Option.bind_some, Bool.false_eq_true, if_false]
    rw [add?_eq (by omega), Option.bind_some, add?_eq (by omega)]

/-! ## Memory -/

namespace Memory

/-- `expansionGas`, checked. -/
def expansionGas? (m : Memory) (offset length : Nat) : Option Nat := do
  let stop ← add? offset length
  let current := wordCount m.size
  let needed := wordCount stop
  if needed ≤ current then some 0 else sub? (memoryCost needed) (memoryCost current)

/-- `grow`, checked. -/
def grow? (m : Memory) (offset length : Nat) : Option Memory := do
  let stop ← add? offset length
  let size ← mul? (wordCount stop) 32
  some (if m.size < size then ⟨m.bytes ++ zeros (size - m.size)⟩ else m)

/-- `excerpt`, checked. -/
def excerpt? (source : ByteArray) (start : Word) (length : Nat) : Option ByteArray :=
  match start.size? with
  | some i =>
    if i < source.size then do
      let rest ← sub? source.size i
      let stop ← add? i (min rest length)
      let bytes ← slice? source i stop
      overwrite? (zeros length) 0 bytes
    else some (zeros length)
  | none => some (zeros length)

variable {o n : Nat}

theorem expansionGas?_eq (m : Memory) (h : o + n ≤ limit) :
    m.expansionGas? o n = some (m.expansionGas o n) := by
  have hlimit : limit ≤ maxAmount := by decide
  unfold expansionGas? expansionGas
  rw [add?_eq (Nat.le_trans h hlimit)]
  simp only [Option.bind_eq_bind, Option.bind_some]
  split
  · rfl
  · exact sub?_eq (memoryCost_mono (by omega))

theorem grow?_eq (m : Memory) (h : o + n ≤ limit) : m.grow? o n = some (m.grow o n) := by
  have hlimit : limit = 2 ^ 32 := rfl
  have hmax : maxAmount = 2 ^ 64 - 1 := rfl
  have hwords : wordCount (o + n) * 32 ≤ maxAmount := by
    unfold wordCount
    omega
  unfold grow?
  rw [add?_eq (by omega), Option.bind_eq_bind, Option.bind_some, mul?_eq hwords,
    Option.bind_some]
  rfl

theorem excerpt?_eq {source : ByteArray} (hs : source.size < lengthLimit) (start : Word) (n : Nat) :
    excerpt? source start n = some (excerpt source start n) := by
  have hmax : maxAmount = 2 ^ 64 - 1 := rfl
  have hlimit : lengthLimit = 2 ^ 48 := rfl
  unfold excerpt? excerpt
  simp only [Option.bind_eq_bind]
  rcases start.size? with _ | i
  · rfl
  · dsimp only
    split
    · rename_i hi
      rw [sub?_eq (Nat.le_of_lt hi), Option.bind_some, add?_eq (by omega), Option.bind_some,
        slice?_eq (by omega) (by omega), Option.bind_some,
        overwrite?_front (by omega) (by omega)]
    · rename_i hi
      rw [Bytes.window_of_size_le (Nat.not_lt.1 hi)]

end Memory

/-! ## Words of call data and of code -/

/-- `paddedWord`, checked. -/
def paddedWord? (b : ByteArray) (start : Word) : Option Word :=
  match start.size? with
  | some i =>
    if i < b.size then do
      let stop ← add? i 32
      let bytes ← slice? b i (min stop b.size)
      let word ← overwrite? (zeros 32) 0 bytes
      some (Bytes.wordAt word 0)
    else some .zero
  | none => some .zero

theorem paddedWord?_eq {b : ByteArray} (hb : b.size < lengthLimit) (start : Word) :
    paddedWord? b start = some (paddedWord b start) := by
  have hmax : maxAmount = 2 ^ 64 - 1 := rfl
  have hlimit : lengthLimit = 2 ^ 48 := rfl
  unfold paddedWord? paddedWord
  simp only [Option.bind_eq_bind]
  rcases start.size? with _ | i
  · rfl
  · dsimp only
    split
    · rename_i hi
      rw [add?_eq (by omega), Option.bind_some, slice?_eq (by omega) (by omega),
        Option.bind_some, overwrite?_front rfl (by omega), Option.bind_some,
        Bytes.wordAt_window]
    · rename_i hi
      rw [← Bytes.wordAt_window, Bytes.window_of_size_le (Nat.not_lt.1 hi)]
      rfl

/-- `immediateWord`, checked: the bytes are copied to the end of a word of zeros. -/
def immediateWord? (code : ByteArray) (pc n : Nat) : Option Word := do
  let stop ← add? pc n
  let start := min pc code.size
  let bytes ← slice? code start (min stop code.size)
  let front ← sub? 32 n
  let word ← overwrite? (zeros 32) front bytes
  some (Bytes.wordAt word 0)

/-- The first bytes of a word, moved to its end. -/
theorem wordAt_shiftRight (b : ByteArray) (i : Nat) {n : Nat} (hn : n ≤ 32) :
    Bytes.wordAt b i >>> (8 * (32 - n)) = Bytes.wordAt (zeros (32 - n) ++ window b i n) 0 := by
  have hpow : 2 ^ (8 * (32 - n)) = 256 ^ (32 - n) := by
    rw [Nat.pow_mul]
  have hrest := Bytes.toNat_lt (window b (i + n) (32 - n))
  rw [Bytes.size_window] at hrest
  have hsize : (zeros (32 - n) ++ window b i n).size = 32 := by
    rw [ByteArray.size_append, Bytes.size_zeros, Bytes.size_window]
    omega
  have hwindow : window b i 32 = window b i n ++ window b (i + n) (32 - n) := by
    rw [← Bytes.window_append, Nat.add_sub_cancel' hn]
  rw [← Word.toNat_inj, Word.toNat_shiftRight, hpow, ← Bytes.wordAt_window,
    Word.toNat_wordAt (Bytes.size_window b i 32), Word.toNat_wordAt hsize, hwindow,
    Bytes.toNat_append, Bytes.toNat_append, Bytes.toNat_zeros, Bytes.size_window, Nat.zero_mul,
    Nat.zero_add, Nat.add_comm, Nat.add_mul_div_right _ _ (Nat.pow_pos (by decide)),
    Nat.div_eq_of_lt hrest, Nat.zero_add]

theorem immediateWord?_eq {code : ByteArray} {pc n : Nat} (hc : code.size < lengthLimit)
    (hpc : pc ≤ code.size) (hn : n ≤ 32) :
    immediateWord? code pc n = some (immediateWord code pc n) := by
  have hmax : maxAmount = 2 ^ 64 - 1 := rfl
  have hlimit : lengthLimit = 2 ^ 48 := rfl
  unfold immediateWord? immediateWord
  simp only [Option.bind_eq_bind, Nat.min_eq_left hpc]
  rw [add?_eq (by omega), Option.bind_some, slice?_eq (by omega) (by omega), Option.bind_some,
    sub?_eq hn, Option.bind_some, overwrite?_zeros rfl (by omega) (by omega), Option.bind_some,
    Nat.sub_add_cancel hn, Nat.sub_self, show zeros 0 = ByteArray.empty from rfl,
    ByteArray.append_empty, wordAt_shiftRight code pc hn]

/-! ## The scan for jump destinations -/

/-- `markDests`, checked. -/
def markDests? (code : ByteArray) (pc : Nat) (marks : Array Bool) : Option (Array Bool) :=
  if h : pc < code.size then
    let b := code[pc]
    if b = 0x5b then
      if pc < marks.size ∧ pc + 1 ≤ maxAmount then
        markDests? code (pc + 1) (marks.setIfInBounds pc true)
      else none
    else if 0x60 ≤ b ∧ b ≤ 0x7f then
      if 0x5f ≤ b.toNat ∧ pc + 1 + (b.toNat - 0x5f) ≤ maxAmount then
        markDests? code (pc + 1 + (b.toNat - 0x5f)) marks
      else none
    else if pc + 1 ≤ maxAmount then markDests? code (pc + 1) marks
    else none
  else some marks
  termination_by code.size - pc

/-- `jumpDests`, checked. -/
def jumpDests? (code : ByteArray) : Option (Array Bool) :=
  markDests? code 0 (Array.replicate code.size false)

theorem markDests?_eq {code : ByteArray} (hc : code.size < lengthLimit) (pc : Nat)
    (marks : Array Bool) (hm : marks.size = code.size) :
    markDests? code pc marks = some (markDests code pc marks) := by
  have hmax : maxAmount = 2 ^ 64 - 1 := rfl
  have hlimit : lengthLimit = 2 ^ 48 := rfl
  fun_induction markDests code pc marks with
  | case1 pc marks h b hb ih =>
    rw [markDests?, dif_pos h]
    dsimp only
    rw [if_pos hb, if_pos (by omega)]
    exact ih (by rw [Array.size_setIfInBounds, hm])
  | case2 pc marks h b hb hr ih =>
    have hlo : 0x60 ≤ code[pc].toNat := UInt8.le_iff_toNat_le.1 hr.1
    have hhi : code[pc].toNat ≤ 0x7f := UInt8.le_iff_toNat_le.1 hr.2
    rw [markDests?, dif_pos h]
    dsimp only
    rw [if_neg hb, if_pos hr, if_pos (by omega)]
    exact ih hm
  | case3 pc marks h b hb hr ih =>
    rw [markDests?, dif_pos h]
    dsimp only
    rw [if_neg hb, if_neg hr, if_pos (by omega)]
    exact ih hm
  | case4 pc marks h => rw [markDests?, dif_neg h]

theorem jumpDests?_eq {code : ByteArray} (hc : code.size < lengthLimit) :
    jumpDests? code = some (jumpDests code) := markDests?_eq hc 0 _ Array.size_replicate

/-! ## Addresses of new contracts -/

/-- `minimalBytes`, checked: eight bytes are enough, and no more than that are left out. -/
def minimalBytes? (n : Nat) : Option (List UInt8) :=
  let bytes := lowBytes 8 n
  if n ≤ maxAmount ∧ leadingZeros n / 8 ≤ bytes.length then
    some (bytes.drop (leadingZeros n / 8))
  else none

/-- `nonceItem`, checked. -/
def nonceItem? (nonce : Nat) : Option (List UInt8) := do
  match ← minimalBytes? nonce with
  | [] => some [0x80]
  | [b] => if b < 0x80 then some [b] else (byte? (0x80 + 1)).map fun x => [x, b]
  | bytes => (byte? (0x80 + bytes.length)).map fun x => x :: bytes

/-- `createPreimage`, checked. -/
def createPreimage? (sender : Address) (nonce : Nat) : Option ByteArray := do
  let item ← nonceItem? nonce
  let front ← byte? (0xc0 + (21 + item.length))
  some (Bytes.ofList [front, 0x94] ++ sender.toBytes ++ Bytes.ofList item)

theorem leadingZeros_le (n : Nat) : leadingZeros n ≤ 64 := by
  unfold leadingZeros
  split <;> omega

theorem length_lowBytes (k n : Nat) : (lowBytes k n).length = k := by
  induction k with
  | zero => rfl
  | succ k ih => rw [lowBytes, List.length_cons, ih]

theorem length_minimalBytes (n : Nat) : (minimalBytes n).length ≤ 8 := by
  rw [minimalBytes, List.length_drop, length_lowBytes]
  exact Nat.sub_le _ _

theorem minimalBytes?_eq {n : Nat} (h : n ≤ maxAmount) :
    minimalBytes? n = some (minimalBytes n) := by
  have hzeros := leadingZeros_le n
  unfold minimalBytes?
  dsimp only
  rw [length_lowBytes, if_pos ⟨h, by omega⟩, minimalBytes]

theorem nonceItem?_eq {nonce : Nat} (h : nonce ≤ maxAmount) :
    nonceItem? nonce = some (nonceItem nonce) ∧ (nonceItem nonce).length ≤ 9 := by
  have hlen := length_minimalBytes nonce
  unfold nonceItem? nonceItem
  rw [minimalBytes?_eq h, Option.bind_eq_bind, Option.bind_some]
  rcases hm : minimalBytes nonce with _ | ⟨b, _ | ⟨c, l⟩⟩
  · exact ⟨rfl, by decide⟩
  · dsimp only
    split
    · exact ⟨rfl, by simp⟩
    · exact ⟨rfl, by simp⟩
  · rw [hm] at hlen
    dsimp only
    rw [byte?_eq (by omega)]
    exact ⟨rfl, Nat.succ_le_succ hlen⟩

theorem createPreimage?_eq (sender : Address) {nonce : Nat} (h : nonce ≤ maxAmount) :
    createPreimage? sender nonce = some (createPreimage sender nonce) := by
  obtain ⟨hitem, hlen⟩ := nonceItem?_eq h
  unfold createPreimage? createPreimage
  rw [hitem, Option.bind_eq_bind, Option.bind_some, byte?_eq (by omega)]
  rfl

end Evm

end ParticleChain
