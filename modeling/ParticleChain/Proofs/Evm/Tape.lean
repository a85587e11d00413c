import ParticleChain.Proofs.Evm.Expansion
import ParticleChain.Proofs.Evm.Faults
import ParticleChain.Proofs.Evm.Runs

/-!
# Memory is a tape of zeros

A tape has a byte at each offset, without end. The memory of a frame shows one: its bytes, with
zeros beyond them. An access touches its span first, which changes no byte, and is then within the
memory, so it reads the tape and writes it as if there were no end to the memory
(`Access.accesses_perform`). A sequence of accesses therefore answers what the same sequence answers
on the tape, which is blank at first (`memory_is_tape`).
-/

namespace ParticleChain

open Bytes (padded)

/-! ## Tapes -/

/-- A byte at each offset. -/
abbrev Tape := Nat → UInt8

namespace Tape

def blank : Tape := fun _ => 0

/-- A byte string with zeros after it. -/
def ofBytes (b : ByteArray) : Tape := padded b

/-- The tape from an offset on. -/
def drop (t : Tape) (o : Nat) : Tape := fun i => t (o + i)

/-- The first `n` bytes. -/
def take (t : Tape) (n : Nat) : ByteArray := ⟨Array.ofFn fun i : Fin n => t i⟩

/-- The word that the first 32 bytes spell. -/
def word (t : Tape) : Word := .ofNat (Bytes.toNat (t.take 32))

/-- The tape with `n` bytes from an offset on replaced by the first bytes of another, and no other
byte changed. -/
def write (t : Tape) (o n : Nat) (source : Tape) : Tape :=
  fun i => if o ≤ i ∧ i < o + n then source (i - o) else t i

/-- The 32 digits of a number in base 256, the highest first. -/
def ofNat (n : Nat) : Tape := fun i => (n / 256 ^ (31 - i)).toUInt8

theorem size_take (t : Tape) (n : Nat) : (t.take n).size = n := by
  simp [take, ByteArray.size]

theorem padded_take (t : Tape) {n i : Nat} (h : i < n) : padded (t.take n) i = t i := by
  rw [Bytes.padded_eq_getD]
  simp [take, Array.getD, h]

/-- A byte string of `n` bytes is what a tape starts with just if it has the bytes of the tape. -/
theorem eq_take {b : ByteArray} {t : Tape} {n : Nat} (hs : b.size = n)
    (h : ∀ i < n, padded b i = t i) : b = t.take n := by
  refine Word.bytes_ext (hs.trans (size_take t n).symm) fun i hi => ?_
  rw [hs] at hi
  rw [h i hi, padded_take t hi]

theorem write_zero (t : Tape) (o : Nat) (source : Tape) : t.write o 0 source = t := by
  funext i
  exact if_neg (by omega)

theorem write_congr {t u v : Tape} {o n : Nat} (h : ∀ i < n, u i = v i) :
    t.write o n u = t.write o n v := by
  funext i
  unfold write
  split
  · exact h _ (by omega)
  · rfl

theorem take_drop_write (t : Tape) (o n : Nat) (source : Tape) :
    ((t.write o n source).drop o).take n = source.take n := by
  refine eq_take (size_take _ n) fun i hi => ?_
  rw [padded_take _ hi]
  unfold drop write
  rw [if_pos (by omega), Nat.add_sub_cancel_left]

theorem window_eq (b : ByteArray) (o n : Nat) :
    Bytes.window b o n = ((ofBytes b).drop o).take n :=
  eq_take (Bytes.size_window b o n) fun _ hi => Bytes.padded_window b o hi

theorem wordAt_eq (b : ByteArray) (o : Nat) : Bytes.wordAt b o = ((ofBytes b).drop o).word := by
  have hlt := Bytes.toNat_lt (take ((ofBytes b).drop o) 32)
  rw [size_take] at hlt
  rw [← Bytes.wordAt_window, ← Word.toNat_inj, Word.toNat_wordAt (Bytes.size_window b o 32),
    window_eq, word, Word.toNat_ofNat]
  exact (Nat.mod_eq_of_lt hlt).symm

/-- The bytes of a word are the digits of its number. -/
theorem ofBytes_toBytes (a : Word) {i : Nat} (h : i < 32) :
    ofBytes a.toBytes i = ofNat a.toNat i := by
  rw [ofBytes, Word.padded_toBytes a h, ofNat, ← UInt8.toNat_inj, Word.toNat_byteAt_digit a h,
    Nat.pow_mul]
  exact (UInt8.toNat_ofNat' ..).symm

/-- A word that is written is the word that is read there. -/
theorem word_drop_write (t : Tape) (o : Nat) (a : Word) :
    ((t.write o 32 (ofNat a.toNat)).drop o).word = a := by
  have htake : (ofNat a.toNat).take 32 = a.toBytes :=
    (eq_take (Word.size_toBytes a) fun _ hi => ofBytes_toBytes a hi).symm
  rw [word, take_drop_write, htake, Word.toNat_toBytes, ← Word.toNat_inj, Word.toNat_ofNat]
  exact Nat.mod_eq_of_lt a.toNat_lt

end Tape

namespace Evm

open Exec

/-! ## What memory shows -/

namespace Memory

/-- The bytes of the memory, with zeros beyond them. -/
def tape (m : Memory) : Tape := Tape.ofBytes m.bytes

theorem tape_empty : empty.tape = Tape.blank :=
  funext fun i => show padded .empty i = 0 from Bytes.padded_of_size_le (Nat.zero_le i)

theorem tape_cover (m : Memory) (r : Option (Nat × Nat)) : (m.cover r).tape = m.tape :=
  funext (m.read_cover r)

theorem slice_eq {m : Memory} {o n : Nat} (h : ∀ i < n, o + i < m.size) :
    m.slice o n = (m.tape.drop o).take n := by
  unfold size at h
  refine Tape.eq_take ?_ fun i hi => ?_
  · rw [slice, ByteArray.size_extract]
    rcases n with _ | n
    · omega
    · have := h n (Nat.lt_succ_self n)
      omega
  · rw [slice, Bytes.padded_extract, if_pos (by omega)]
    rfl

theorem loadWord_eq (m : Memory) (o : Nat) : m.loadWord o = (m.tape.drop o).word :=
  Tape.wordAt_eq m.bytes o

theorem tape_store {m : Memory} {o : Nat} {b : ByteArray} (h : o + b.size ≤ m.size) :
    (m.store o b).tape = m.tape.write o b.size (.ofBytes b) :=
  funext fun i => read_store h i

/-- What is copied from a byte string, from any offset of 256 bits on, is its zero extension. -/
theorem excerpt_eq {source : ByteArray} (hs : source.size < 2 ^ 63) (start : Word) (n : Nat) :
    excerpt source start n = ((Tape.ofBytes source).drop start.toNat).take n := by
  unfold excerpt
  rw [Word.size?_eq]
  by_cases h : start.toNat < UInt64.size
  · rw [if_pos h]
    exact Tape.window_eq source start.toNat n
  · -- An offset that is no size is past the end of any byte string.
    rw [if_neg h]
    refine Tape.eq_take (Bytes.size_zeros n) fun i _ => ?_
    rw [Bytes.padded_zeros]
    refine (Bytes.padded_of_size_le (Nat.le_trans (Nat.le_of_lt hs) ?_)).symm
    unfold UInt64.size at h
    omega

/-- Copying overwrites a range with what the source has from an offset on, and zeros after it. -/
theorem tape_copyPadded {m : Memory} {o n : Nat} {source : ByteArray} (hs : source.size < 2 ^ 63)
    (start : Word) (h : o + n ≤ m.size) : (m.copyPadded o source start n).tape =
      m.tape.write o n ((Tape.ofBytes source).drop start.toNat) := by
  have hsize := size_excerpt source start n
  unfold copyPadded
  rw [tape_store (by rwa [hsize]), hsize, excerpt_eq hs]
  exact Tape.write_congr fun i hi => Tape.padded_take _ hi

theorem tape_storeByte {m : Memory} {o : Nat} (b : UInt8) (h : o < m.size) :
    (m.storeByte o b).tape = m.tape.write o 1 fun _ => b := by
  funext i
  unfold tape Tape.ofBytes Tape.write
  rw [Bytes.padded_eq_getD, Bytes.padded_eq_getD, Array.getD_eq_getD_getElem?,
    Array.getD_eq_getD_getElem?]
  show ((m.bytes.data.setIfInBounds o b)[i]?).getD 0 = _
  rw [Array.getElem?_setIfInBounds]
  by_cases hi : o = i
  · rw [if_pos hi, if_pos (hi ▸ h), if_pos (by omega)]
    rfl
  · rw [if_neg hi, if_neg (by omega)]

end Memory

/-! ## Accesses to a span -/

/-- The second frame differs from the first at most in its memory, its gas and its profile. -/
def Frame.SameBut (f g : Frame) : Prop :=
  ∃ m gas p, g = { f with memory := m, gas := gas, profile := p }

namespace Frame.SameBut

variable {f g k : Frame}

theorem refl (f : Frame) : f.SameBut f := ⟨_, _, _, rfl⟩

theorem trans (h : f.SameBut g) (h' : g.SameBut k) : f.SameBut k := by
  obtain ⟨_, _, _, rfl⟩ := h
  obtain ⟨m, gas, p, rfl⟩ := h'
  exact ⟨m, gas, p, rfl⟩

theorem touched (f : Frame) (r : Option (Nat × Nat)) : f.SameBut (f.touched r) := by
  rcases r with _ | ⟨o, n⟩
  · exact refl f
  · exact ⟨_, _, _, rfl⟩

theorem stack (h : f.SameBut g) : g.stack = f.stack := by
  obtain ⟨_, _, _, rfl⟩ := h
  rfl

end Frame.SameBut

section

variable {α β : Type} {s : Span} {c : Nat} {f g : Frame}

/-- The action costs `c` and does to the bytes of memory what `effect` does to a tape, within the
memory that is there. With less gas it does nothing. -/
def Exec.Settles (x : Exec α) (c : Nat) (effect : StateM Tape α) (f : Frame) : Prop :=
  (c ≤ f.gasLeft → ∃ a g, x f = .ok a g ∧ effect.run f.memory.tape = (a, g.memory.tape) ∧
    g.memory.size = f.memory.size ∧ g.gasLeft + c = f.gasLeft ∧ f.SameBut g) ∧
  (¬ c ≤ f.gasLeft → ∃ n, x f = .error (.outOfGas n f.gasLeft) f)

/-- The spans are accessed for `c` besides the growth of memory over them, and `effect` is what that
does to the bytes of memory. -/
structure Frame.Accessed (f : Frame) (spans : List Span) (c : Nat) (effect : StateM Tape α) (a : α)
    (g : Frame) : Prop where
  accepted : ∀ s ∈ spans, s.Accepted
  tape : effect.run f.memory.tape = (a, g.memory.tape)
  size : g.memory.size = max f.memory.size (wordsFor spans * 32)
  worth : g.worth + c = f.worth
  same : f.SameBut g

/-- A span is refused, or the frame is not worth the memory and `c`. -/
def Frame.Stopped (f : Frame) (spans : List Span) (c : Nat) (e : Trap) (g : Frame) : Prop :=
  (e = .memoryLimit ∧ ∃ s ∈ spans, ¬ s.Accepted) ∨
    ((∃ n, e = .outOfGas n g.gasLeft) ∧
      f.worth < memoryCost (max (wordCount f.memory.size) (wordsFor spans)) + c)

/-- The action accesses the spans in any frame, and traps for no other reason than memory has. -/
def Exec.Accesses (x : Exec α) (spans : List Span) (c : Nat) (effect : StateM Tape α) : Prop :=
  ∀ f : Frame, match x f with
    | .ok a g => f.Accessed spans c effect a g
    | .error e g => f.Stopped spans c e g

/-- Once its span is touched, an action has only its own cost to pay. -/
theorem Exec.accesses_touch {k : Option (Nat × Nat) → Exec α} {effect : StateM Tape α}
    (hk : ∀ g : Frame, s.Accepted → Memory.Holds g.memory.size s.range →
      (k s.range).Settles c effect g) :
    (touch s.offset s.length >>= k).Accesses [s] c effect := by
  intro f
  have hprice : memoryCost (max (wordCount f.memory.size) (wordsFor [s])) =
      (f.memory.cover s.range).price := by
    rw [f.memory.memoryCost_span, f.memory.price_add_charge]
  have hlength : max f.memory.size (wordsFor [s] * 32) = (f.memory.cover s.range).size := by
    rw [f.memory.size_cover_span, wordsFor, wordsFor, Nat.max_zero]
  by_cases hs : s.Accepted
  · by_cases hg : f.memory.charge s.range ≤ f.gasLeft
    · rw [bind_ok (touch_ok hs hg)]
      have hworth := Frame.worth_touched hg
      have hmemory := f.memory_touched s.range
      obtain ⟨hok, htrap⟩ := hk (f.touched s.range) hs (by
        rw [hmemory]
        exact f.memory.holds_cover s.range)
      by_cases hc : c ≤ (f.touched s.range).gasLeft
      · obtain ⟨a, g, hx, heffect, hsize, hleft, hsame⟩ := hok hc
        rw [hx]
        rw [hmemory] at heffect hsize
        rw [Memory.tape_cover] at heffect
        -- What is paid for the growth is in the price of the memory, so only `c` is gone.
        have hkept : g.worth + c = f.worth := by
          rw [← hworth, Frame.worth, Frame.worth, Memory.price, Memory.price, hsize, hmemory,
            ← hleft]
          exact Nat.add_right_comm _ _ _
        exact ⟨List.forall_mem_singleton.2 hs, heffect, hsize.trans hlength.symm, hkept,
          (Frame.SameBut.touched f _).trans hsame⟩
      · obtain ⟨n, hx⟩ := htrap hc
        rw [hx]
        refine .inr ⟨⟨n, rfl⟩, ?_⟩
        rw [hprice, ← hworth, Frame.worth, hmemory]
        omega
    · rw [bind_error (touch_trap hs hg)]
      refine .inr ⟨⟨_, rfl⟩, ?_⟩
      have := mt Frame.charge_le_iff.2 hg
      rw [hprice]
      omega
  · have hrefused : touch s.offset s.length f = .error .memoryLimit f := by
      unfold touch
      rw [Span.refused hs]
      rfl
    rw [bind_error hrefused]
    exact .inl ⟨rfl, s, List.mem_singleton_self s, hs⟩

theorem Exec.accesses_pure (a : α) : (pure a : Exec α).Accesses [] 0 (pure a) := by
  intro f
  rw [show (pure a : Exec α) f = .ok a f from rfl]
  exact ⟨List.forall_mem_nil _, rfl, (Nat.max_eq_left (Nat.zero_le _)).symm, rfl, .refl f⟩

/-- One action after another accesses the spans of both, and its effect is theirs in turn. -/
theorem Exec.Accesses.bind {x : Exec α} {k : α → Exec β} {spans others : List Span} {d : Nat}
    {effect : StateM Tape α} {next : α → StateM Tape β} (hx : x.Accesses spans c effect)
    (hk : ∀ a, (k a).Accesses others d (next a)) :
    (x >>= k).Accesses (spans ++ others) (c + d) (effect >>= next) := by
  intro f
  have hfirst := hx f
  cases hr : x f with
  | error e g =>
    rw [hr] at hfirst
    rw [bind_error hr]
    rcases hfirst with ⟨he, s, hs, hrefused⟩ | ⟨he, hless⟩
    · exact .inl ⟨he, s, List.mem_append_left _ hs, hrefused⟩
    · refine .inr ⟨he, Nat.lt_of_lt_of_le hless ?_⟩
      rw [wordsFor_append, ← Nat.max_assoc]
      exact Nat.add_le_add (memoryCost_mono (Nat.le_max_left _ _)) (Nat.le_add_right _ _)
  | ok a g =>
    rw [hr] at hfirst
    have hworth := hfirst.worth
    -- The second action starts from the memory and the gas that the first one leaves.
    have hsecond := hk a g
    rw [bind_ok hr]
    cases hr' : k a g with
    | error e h =>
      rw [hr'] at hsecond
      rcases hsecond with ⟨he, s, hs, hrefused⟩ | ⟨he, hless⟩
      · exact .inl ⟨he, s, List.mem_append_right _ hs, hrefused⟩
      · refine .inr ⟨he, ?_⟩
        rw [hfirst.size, wordCount_max_words, Nat.max_assoc, ← wordsFor_append] at hless
        omega
    | ok b h =>
      rw [hr'] at hsecond
      have hworth' := hsecond.worth
      refine ⟨List.forall_mem_append.2 ⟨hfirst.accepted, hsecond.accepted⟩, ?_, ?_, by omega,
        hfirst.same.trans hsecond.same⟩
      · rw [StateT.run_bind, hfirst.tape]
        exact hsecond.tape
      · rw [hsecond.size, hfirst.size, Nat.max_assoc, wordsFor_append, Nat.mul_max_mul_right]

theorem Exec.Accesses.map {x : Exec α} {spans : List Span} {effect : StateM Tape α}
    (h : x.Accesses spans c effect) (φ : α → β) : (φ <$> x).Accesses spans c (φ <$> effect) := by
  have hmap := h.bind fun a => accesses_pure (φ a)
  rwa [bind_pure_comp, bind_pure_comp, List.append_nil] at hmap

/-- An action on spans that are accepted succeeds if the frame is worth the memory and the cost. -/
theorem Exec.Accesses.ok {x : Exec α} {spans : List Span} {effect : StateM Tape α}
    (h : x.Accesses spans c effect) (hs : ∀ s ∈ spans, s.Accepted)
    (hg : memoryCost (max (wordCount f.memory.size) (wordsFor spans)) + c ≤ f.worth) :
    ∃ a g, x f = .ok a g ∧ f.Accessed spans c effect a g := by
  have hx := h f
  cases hr : x f with
  | error e g =>
    rw [hr] at hx
    rcases hx with ⟨-, s, hmem, hrefused⟩ | ⟨-, hless⟩
    · exact absurd (hs s hmem) hrefused
    · exact absurd hless (Nat.not_lt.2 hg)
  | ok a g =>
    rw [hr] at hx
    exact ⟨a, g, rfl, hx⟩

/-- An action that cannot trap and leaves the gas as it is. -/
theorem Exec.settles_of_ok {x : Exec α} {effect : StateM Tape α} {a : α} (hx : x f = .ok a g)
    (heffect : effect.run f.memory.tape = (a, g.memory.tape))
    (hsize : g.memory.size = f.memory.size) (hleft : g.gasLeft = f.gasLeft)
    (hsame : f.SameBut g) : x.Settles 0 effect f :=
  ⟨fun _ => ⟨a, g, hx, heffect, hsize, hleft, hsame⟩, fun h => absurd (Nat.zero_le _) h⟩

theorem Exec.settles_pure (a : α) {effect : StateM Tape α}
    (heffect : effect.run f.memory.tape = (a, f.memory.tape)) :
    (pure a : Exec α).Settles 0 effect f := settles_of_ok rfl heffect rfl rfl (.refl f)

/-- Bytes that are those of a tape are written as those of the tape. -/
theorem Exec.settles_writeMemory {o n : Nat} {b : ByteArray} {source : Tape}
    (h : o + n ≤ f.memory.size) (hs : b.size = n) (hb : ∀ i < n, padded b i = source i) :
    (writeMemory o b).Settles 0 (modify (·.write o n source)) f := by
  subst hs
  have htape : (f.memory.store o b).tape = f.memory.tape.write o b.size source :=
    (Memory.tape_store h).trans (Tape.write_congr hb)
  exact settles_of_ok (writeMemory_ok h) (congrArg (Prod.mk ()) htape.symm) (Memory.size_store h)
    rfl ⟨_, _, _, rfl⟩

end

/-! ## The accesses of instructions -/

namespace Exec

/-- The word at an offset of memory, which is grown over it. -/
def loadAt (offset : Word) : Exec Word := do
  match ← touch offset (.ofNat 32) with
  | some (o, _) => loadWord o
  | none => return .zero

/-- Overwrites the word at an offset of memory, which is grown over it. -/
def storeAt (offset value : Word) : Exec Unit := do
  match ← touch offset (.ofNat 32) with
  | some (o, _) => writeMemory o value.toBytes
  | none => return ()

/-- Overwrites the byte at an offset of memory, which is grown over it, with the lowest one of a
word. -/
def storeByteAt (offset value : Word) : Exec Unit := do
  match ← touch offset .one with
  | some (o, _) => writeMemory o (Bytes.ofList [value.w0.toUInt8])
  | none => return ()

/-- Reserves a range of memory and stores output there, as far as it fits. -/
def outputTo (offset length : Word) (output : ByteArray) : Exec Unit := do
  storeOutput output (← touch offset length)

theorem accesses_loadAt (o : Word) :
    (loadAt o).Accesses [⟨o, .ofNat 32⟩] 0 (do return ((← get).drop o.toNat).word) := by
  refine accesses_touch (s := ⟨o, .ofNat 32⟩) fun g _ hg => ?_
  have hg : o.toNat + 32 ≤ g.memory.size := hg
  refine settles_of_ok ((bind_ok rfl).trans
    ((bind_ok (ensure_ok .fault (decide_eq_true hg) g)).trans (bind_ok rfl))) ?_ rfl rfl (.refl g)
  exact congrArg (Prod.mk · g.memory.tape) (g.memory.loadWord_eq o.toNat).symm

theorem accesses_memorySlice (o n : Word) :
    (memorySlice o n).Accesses [⟨o, n⟩] 0 (do return ((← get).drop o.toNat).take n.toNat) := by
  refine accesses_touch (s := ⟨o, n⟩) fun g _ hg => ?_
  by_cases hn : n.toNat = 0
  · rw [Span.range_of_zero hn]
    exact settles_pure _ (congrArg (Prod.mk · g.memory.tape) (by rw [hn]; rfl))
  · rw [Span.range_of_pos hn] at hg ⊢
    have hg : o.toNat + n.toNat ≤ g.memory.size := hg
    refine settles_of_ok ((bind_ok rfl).trans
      ((bind_ok (ensure_ok .fault (decide_eq_true hg) g)).trans (bind_ok rfl))) ?_ rfl rfl (.refl g)
    exact congrArg (Prod.mk · g.memory.tape) (Memory.slice_eq fun i hi => by omega).symm

theorem accesses_storeAt (o v : Word) :
    (storeAt o v).Accesses [⟨o, .ofNat 32⟩] 0 (modify (·.write o.toNat 32 (.ofNat v.toNat))) :=
  accesses_touch (s := ⟨o, .ofNat 32⟩) fun _ _ hg =>
    settles_writeMemory hg (Word.size_toBytes v) fun _ hi => Tape.ofBytes_toBytes v hi

theorem accesses_storeByteAt (o v : Word) :
    (storeByteAt o v).Accesses [⟨o, .one⟩] 0
      (modify (·.write o.toNat 1 fun _ => v.toNat.toUInt8)) := by
  have hbyte : v.w0.toUInt8 = v.toNat.toUInt8 := by
    rw [← UInt8.toNat_inj, UInt64.toNat_toUInt8, UInt8.toNat_ofNat']
    unfold Word.toNat UInt64.size
    omega
  refine accesses_touch (s := ⟨o, .one⟩) fun g _ hg => settles_writeMemory hg rfl fun i hi => ?_
  obtain rfl : i = 0 := by omega
  exact hbyte

theorem accesses_copyToMemory {source : ByteArray} (hs : source.size < 2 ^ 63)
    (d n start : Word) :
    (copyToMemory d n source start).Accesses [⟨d, n⟩] (Price.copyWord * wordCount n.toNat)
      (modify (·.write d.toNat n.toNat ((Tape.ofBytes source).drop start.toNat))) := by
  refine accesses_touch (s := ⟨d, n⟩) fun g haccepted hg => ?_
  by_cases hn : n.toNat = 0
  · rw [Span.range_of_zero hn, hn]
    refine settles_pure _ (congrArg (Prod.mk ()) ?_)
    exact Tape.write_zero _ _ _
  · rw [Span.range_of_pos hn] at hg ⊢
    have hg : d.toNat + n.toNat ≤ g.memory.size := hg
    have hlimit : n.toNat ≤ Memory.limit :=
      Nat.le_trans (Nat.le_add_left _ _) ((Span.accepted_iff.1 haccepted).resolve_left hn)
    have hamount := bounded_ok (wordCost_le hlimit (by decide : Price.copyWord ≤ 10)) g
    refine ⟨fun hc => ?_, fun hc => ⟨_, (bind_ok hamount).trans (bind_error (charge_trap hc))⟩⟩
    have hsize := Memory.size_excerpt source start n.toNat
    have hwrite := writeMemory_ok (f := g.paying .copy (Price.copyWord * wordCount n.toNat))
      (show d.toNat + (Memory.excerpt source start n.toNat).size ≤ _ by rwa [hsize])
    refine ⟨(), _, (bind_ok hamount).trans ((bind_ok (charge_ok hc)).trans hwrite), ?_,
      Memory.size_store (by rwa [hsize]), Nat.sub_add_cancel hc, ⟨_, _, _, rfl⟩⟩
    exact congrArg (Prod.mk ()) (Memory.tape_copyPadded hs start hg).symm

theorem accesses_outputTo (o n : Word) (output : ByteArray) :
    (outputTo o n output).Accesses [⟨o, n⟩] 0
      (modify (·.write o.toNat (min n.toNat output.size) (.ofBytes output))) := by
  refine accesses_touch (s := ⟨o, n⟩) fun g _ hg => ?_
  by_cases hn : n.toNat = 0
  · rw [Span.range_of_zero hn]
    refine settles_pure _ (congrArg (Prod.mk ()) ?_)
    show g.memory.tape.write o.toNat (min n.toNat output.size) (.ofBytes output) = _
    rw [hn, Nat.zero_min, Tape.write_zero]
  · rw [Span.range_of_pos hn] at hg ⊢
    have hg : o.toNat + min n.toNat output.size ≤ g.memory.size :=
      Nat.le_trans (Nat.add_le_add_left (Nat.min_le_left _ _) _) hg
    refine settles_writeMemory hg (Memory.size_fitting output n.toNat) fun i hi => ?_
    rw [Bytes.padded_extract, Nat.zero_add, if_pos hi]
    rfl

end Exec

/-! ## Sequences of accesses -/

/-- An access to memory with its operands. What is copied may come from any byte string that fits in
an address space. -/
inductive Access where
  | load (offset : Word)
  | slice (offset length : Word)
  | store (offset value : Word)
  | storeByte (offset value : Word)
  | copy (dest length : Word) (source : ByteArray) (start : Word) (h : source.size < 2 ^ 63)
  | output (offset length : Word) (data : ByteArray)

/-- What an access gives back. -/
inductive Answer where
  | done
  | word (w : Word)
  | bytes (b : ByteArray)
  deriving DecidableEq

namespace Access

def span : Access → Span
  | load o | store o _ => ⟨o, .ofNat 32⟩
  | storeByte o _ => ⟨o, .one⟩
  | slice o n | copy o n _ _ _ | output o n _ => ⟨o, n⟩

/-- What the access costs besides the growth of memory. -/
def surcharge : Access → Nat
  | copy _ n _ _ _ => Price.copyWord * wordCount n.toNat
  | _ => 0

def perform : Access → Exec Answer
  | load o => .word <$> loadAt o
  | slice o n => .bytes <$> memorySlice o n
  | store o v => (fun _ => .done) <$> storeAt o v
  | storeByte o v => (fun _ => .done) <$> storeByteAt o v
  | copy d n source start _ => (fun _ => .done) <$> copyToMemory d n source start
  | output o n data => (fun _ => .done) <$> outputTo o n data

/-- The access on a tape instead, which has no end and costs nothing. -/
def onTape : Access → StateM Tape Answer
  | load o => return .word ((← get).drop o.toNat).word
  | slice o n => return .bytes (((← get).drop o.toNat).take n.toNat)
  | store o v => do
    modify (·.write o.toNat 32 (.ofNat v.toNat))
    return .done
  | storeByte o v => do
    modify (·.write o.toNat 1 fun _ => v.toNat.toUInt8)
    return .done
  | copy d n source start _ => do
    modify (·.write d.toNat n.toNat ((Tape.ofBytes source).drop start.toNat))
    return .done
  | output o n data => do
    modify (·.write o.toNat (min n.toNat data.size) (.ofBytes data))
    return .done

theorem accesses_perform (a : Access) : a.perform.Accesses [a.span] a.surcharge a.onTape := by
  cases a with
  | load o => exact (accesses_loadAt o).map Answer.word
  | slice o n => exact (accesses_memorySlice o n).map Answer.bytes
  | store o v => exact (accesses_storeAt o v).map fun _ => Answer.done
  | storeByte o v => exact (accesses_storeByteAt o v).map fun _ => Answer.done
  | copy d n source start h => exact (accesses_copyToMemory h d n start).map fun _ => Answer.done
  | output o n data => exact (accesses_outputTo o n data).map fun _ => Answer.done

/-- What a sequence of accesses costs besides the growth of memory. -/
def surcharges (accesses : List Access) : Nat := (accesses.map surcharge).sum

/-- A sequence of accesses does to the bytes of memory what it does to the tape that they show. -/
theorem accesses_mapM (accesses : List Access) :
    (accesses.mapM perform).Accesses (accesses.map span) (surcharges accesses)
      (accesses.mapM onTape) := by
  induction accesses with
  | nil => exact accesses_pure []
  | cons a accesses ih =>
    rw [List.mapM_cons, List.mapM_cons, surcharges, List.map_cons, List.map_cons, List.sum_cons]
    have hrest := fun answer => ih.bind fun answers => accesses_pure (answer :: answers)
    rw [List.append_nil] at hrest
    exact a.accesses_perform.bind hrest

/-- What a sequence of accesses costs from an empty memory on. -/
def cost (accesses : List Access) : Nat :=
  memoryCost (wordsFor (accesses.map span)) + surcharges accesses

end Access

/-- The accesses are performed one after another with these answers. What happens in between leaves
the memory alone. -/
inductive Frame.Performs : Frame → List (Access × Answer) → Frame → Prop
  | done {f g : Frame} (hm : g.memory = f.memory) : Performs f [] g
  | access {f g h k : Frame} {a : Access} {answer : Answer} {rest : List (Access × Answer)}
      (hm : g.memory = f.memory) (ha : a.perform g = .ok answer h) (hr : Performs h rest k) :
      Performs f ((a, answer) :: rest) k

theorem Frame.Performs.tape {f k : Frame} {performed : List (Access × Answer)}
    (h : f.Performs performed k) : ((performed.map Prod.fst).mapM Access.onTape).run f.memory.tape =
      (performed.map Prod.snd, k.memory.tape) := by
  induction h with
  | done hm =>
    rw [hm]
    rfl
  | @access f g h k a answer rest hm ha hr ih =>
    have haccess := a.accesses_perform g
    rw [ha] at haccess
    rw [List.map_cons, List.mapM_cons, StateT.run_bind, ← hm, haccess.tape]
    refine (StateT.run_bind _ _ _).trans ?_
    rw [ih]
    rfl

theorem Frame.Performs.size {f k : Frame} {performed : List (Access × Answer)}
    (h : f.Performs performed k) : k.memory.size =
      max f.memory.size (wordsFor ((performed.map Prod.fst).map Access.span) * 32) := by
  induction h with
  | done hm =>
    rw [hm]
    exact (Nat.max_eq_left (Nat.zero_le _)).symm
  | @access f g h k a answer rest hm ha hr ih =>
    have haccess := a.accesses_perform g
    rw [ha] at haccess
    rw [ih, haccess.size, hm, List.map_cons, List.map_cons, wordsFor, wordsFor, wordsFor,
      Nat.max_zero, Nat.max_assoc, Nat.mul_max_mul_right]

/-! ## The instructions -/

theorem perform_mload (tx : Tx) (offset : Nat) :
    perform tx offset .mload = proceed (do push (← loadAt (← pop))) := by
  unfold perform loadAt
  simp only [bind_assoc]
  refine congrArg proceed (congrArg _ (funext fun o => congrArg _ (funext fun r => ?_)))
  rcases r with _ | ⟨i, n⟩ <;> rfl

theorem perform_mstore (tx : Tx) (offset : Nat) : perform tx offset .mstore = proceed (do
    let (o, v) ← pop2
    storeAt o v) := rfl

theorem perform_mstore8 (tx : Tx) (offset : Nat) : perform tx offset .mstore8 = proceed (do
    let (o, v) ← pop2
    storeByteAt o v) := rfl

/-! ## The length of memory in a run -/

namespace Frame

variable {tx : Tx} {f g k : Frame}

/-- Memory is no shorter than before, and its length is still a number of words. -/
structure Grows (f g : Frame) : Prop where
  le : f.memory.size ≤ g.memory.size
  words : 32 ∣ f.memory.size → 32 ∣ g.memory.size

theorem inert_grows : Inert Grows where
  refl f := ⟨Nat.le_refl _, id⟩
  trans h h' := ⟨Nat.le_trans h.le h'.le, h'.words ∘ h.words⟩
  stack f _ := ⟨Nat.le_refl _, id⟩
  spend f _ := ⟨Nat.le_refl _, id⟩
  profile f _ := ⟨Nat.le_refl _, id⟩
  grow f o n _ := by
    have hsize : (f.memory.grow o n).size = max f.memory.size (wordCount (o + n) * 32) :=
      f.memory.size_grow o n
    refine ⟨hsize ▸ Nat.le_max_left _ _, fun h => ?_⟩
    show 32 ∣ (f.memory.grow o n).size
    omega
  store f o b h := by
    have hsize : (f.memory.store o b).size = f.memory.size := Memory.size_store h
    exact ⟨Nat.le_of_eq hsize.symm, fun h => hsize ▸ h⟩

theorem Grows.step {fl : Flow} (h : step tx f = .ok fl g) : f.Grows g := by
  obtain ⟨-, -, rfl⟩ | ⟨op, -, -, -, hp⟩ := step_inv h
  · exact inert_grows.refl _
  · have hop : (f.prepared op).Grows g := (keeps_perform inert_grows tx f.pc op
      (fun _ _ _ => ⟨Nat.le_refl _, id⟩) fun _ _ _ _ => ⟨Nat.le_refl _, id⟩).ok hp
    exact ⟨hop.le, hop.words⟩

theorem Grows.answered {m : Message} {r : Resume} (h : g.answered tx m r = .ok () k) :
    g.Grows k := by
  obtain ⟨output, -, hfinish⟩ := keeps_finish inert_grows.steady r
    (execute tx m g.view g.profile).outcome (g.after (execute tx m g.view g.profile))
  unfold Frame.answered at h
  rw [h] at hfinish
  exact ⟨hfinish.le, hfinish.words⟩

theorem Turn.grows (h : f.Turn tx g) : f.Grows g := by
  cases h with
  | next h => exact .step h
  | back h hk => exact inert_grows.trans (.step h) (.answered hk)

/-- A frame that is started has no memory. -/
theorem memory_of_enter {m : Message} {v : View} {p : Profile} (h : m.enter v p = .running k) :
    k.memory = .empty := by
  cases Message.opens_of h <;> rfl

theorem Reaches.words (hr : f.Reaches tx g) (hf : 32 ∣ f.memory.size) : 32 ∣ g.memory.size :=
  hr.keeps (I := fun f => 32 ∣ f.memory.size) (fun hf ht => ht.grows.words hf)
    (fun _ _ hc => memory_of_enter hc ▸ Nat.dvd_zero 32) hf

end Frame

/-! ## Memory without end -/

/-- Memory that was empty and is long enough for some spans, and no longer, is whole words and has
every byte of them. -/
theorem Memory.covers_of_size {m : Memory} {spans : List Span}
    (h : m.size = max empty.size (wordsFor spans * 32)) :
    32 ∣ m.size ∧ ∀ s ∈ spans, ∀ i, s.Has i → i < m.size := by
  have hsize : m.size = 32 * wordsFor spans := by
    rw [h, Nat.mul_comm]
    exact Nat.zero_max _
  rw [hsize]
  exact ⟨Nat.dvd_mul_right 32 _, wordsFor_le_iff.1 (Nat.le_refl _)⟩

/-- A sequence of accesses to an empty memory answers what it answers on the blank tape, and leaves
the tape that it leaves there, whatever else happens to the frame in between. It can only be stopped
by a span that is refused or for its cost. The length of memory is a number of words, covers all
spans and never shrinks, and a write changes the bytes of its range and no others. -/
theorem memory_is_tape (f : Frame) (hf : f.memory = .empty) :
    (∀ performed g, f.Performs performed g →
      ((performed.map Prod.fst).mapM Access.onTape).run .blank =
        (performed.map Prod.snd, g.memory.tape) ∧
      32 ∣ g.memory.size ∧ ∀ x ∈ performed, ∀ i, x.1.span.Has i → i < g.memory.size) ∧
    (∀ accesses : List Access, match accesses.mapM Access.perform f with
      | .ok answers g => (accesses.mapM Access.onTape).run .blank = (answers, g.memory.tape) ∧
        32 ∣ g.memory.size ∧ ∀ a ∈ accesses, ∀ i, a.span.Has i → i < g.memory.size
      | .error e g => (e = .memoryLimit ∧ ∃ a ∈ accesses, ¬ a.span.Accepted) ∨
        ((∃ n, e = .outOfGas n g.gasLeft) ∧ f.gasLeft < Access.cost accesses)) ∧
    (∀ (a : Access) g answer k, a.perform g = .ok answer k → g.memory.size ≤ k.memory.size) ∧
    (∀ tx g k, Frame.Turn tx g k → g.memory.size ≤ k.memory.size) ∧
    (∀ tx g, f.Reaches tx g → 32 ∣ g.memory.size) ∧
    (∀ t o (a : Word), ((Tape.write t o 32 (.ofNat a.toNat)).drop o).word = a) ∧
    (∀ (m : Memory) (o : Nat),
      (∀ b, o + b.size ≤ m.size → (m.store o b).tape = m.tape.write o b.size (.ofBytes b)) ∧
      (∀ b, o < m.size → (m.storeByte o b).tape = m.tape.write o 1 fun _ => b) ∧
      ∀ source start n, source.size < 2 ^ 63 → o + n ≤ m.size →
        (m.copyPadded o source start n).tape =
          m.tape.write o n ((Tape.ofBytes source).drop start.toNat)) ∧
    ∀ tx offset,
      (perform tx offset .mload = proceed (do push (← loadAt (← pop)))) ∧
      (perform tx offset .mstore = proceed (do
        let (o, v) ← pop2
        storeAt o v)) ∧
      perform tx offset .mstore8 = proceed (do
        let (o, v) ← pop2
        storeByteAt o v) := by
  refine ⟨fun performed g h => ?_, fun accesses => ?_, fun a g answer k h => ?_,
    fun _ _ _ h => h.grows.le, fun _ _ h => h.words ?_, Tape.word_drop_write,
    fun m o => ⟨fun _ h => Memory.tape_store h, fun b h => Memory.tape_storeByte b h,
      fun _ start _ hs h => Memory.tape_copyPadded hs start h⟩,
    fun tx offset => ⟨perform_mload tx offset, perform_mstore tx offset, perform_mstore8 tx offset⟩⟩
  · have htape := h.tape
    have hsize := h.size
    rw [hf] at htape hsize
    rw [Memory.tape_empty] at htape
    obtain ⟨hwords, hcovers⟩ := Memory.covers_of_size hsize
    rw [List.forall_mem_map, List.forall_mem_map] at hcovers
    exact ⟨htape, hwords, hcovers⟩
  · have hrun := Access.accesses_mapM accesses f
    cases hr : accesses.mapM Access.perform f with
    | error e g =>
      rw [hr] at hrun
      rcases hrun with ⟨he, s, hs, hrefused⟩ | ⟨he, hless⟩
      · obtain ⟨a, ha, rfl⟩ := List.mem_map.1 hs
        exact .inl ⟨he, a, ha, hrefused⟩
      · rw [Frame.worth, hf, show wordCount Memory.empty.size = 0 from rfl, Nat.zero_max] at hless
        exact .inr ⟨he, hless⟩
    | ok answers g =>
      rw [hr] at hrun
      have htape := hrun.tape
      have hsize := hrun.size
      rw [hf] at htape hsize
      rw [Memory.tape_empty] at htape
      obtain ⟨hwords, hcovers⟩ := Memory.covers_of_size hsize
      rw [List.forall_mem_map] at hcovers
      exact ⟨htape, hwords, hcovers⟩
  · have hrun := a.accesses_perform g
    rw [h] at hrun
    exact hrun.size ▸ Nat.le_max_left _ _
  · rw [hf]
    exact Nat.dvd_zero 32

/-- Two copies and a byte are written over the end of a word, the second copy from beyond its
source, and a slice of no bytes may start anywhere. -/
theorem memory_is_tape_overlapping :
    let f := Frame.start (.plainCall .zero .zero .empty 12 .zero) .empty (View.ofWorld .empty)
      .empty
    let source := Bytes.ofList [1, 2, 3]
    ∃ g, [Access.store (.ofNat 3) .max, .copy (.ofNat 32) (.ofNat 4) source .one (by decide),
      .storeByte (.ofNat 33) (.ofNat 0x1ff), .copy (.ofNat 35) (.ofNat 2) source .max (by decide),
      .slice .max .zero, .slice (.ofNat 30) (.ofNat 8), .load (.ofNat 5)].mapM Access.perform f =
      .ok [.done, .done, .done, .done, .bytes .empty,
        .bytes (Bytes.ofList [255, 255, 2, 255, 0, 0, 0, 0]),
        .word (.ofNat (256 ^ 5 * (256 ^ 27 - 1) + 256 ^ 4 * 2 + 256 ^ 3 * 255))] g := by
  intro f source
  obtain ⟨-, hruns, -⟩ := memory_is_tape f rfl
  have hrun := hruns [.store (.ofNat 3) .max, .copy (.ofNat 32) (.ofNat 4) source .one (by decide),
    .storeByte (.ofNat 33) (.ofNat 0x1ff), .copy (.ofNat 35) (.ofNat 2) source .max (by decide),
    .slice .max .zero, .slice (.ofNat 30) (.ofNat 8), .load (.ofNat 5)]
  split at hrun
  · rename_i answers g h
    obtain ⟨htape, -⟩ := hrun
    refine ⟨g, h.trans (congrArg (EStateM.Result.ok · g) ?_)⟩
    exact (congrArg Prod.fst htape).symm.trans (by decide +kernel)
  · rename_i e g h
    rcases hrun with ⟨-, a, ha, hrefused⟩ | ⟨-, hless⟩
    · refine hrefused.elim ?_
      revert a
      decide
    · exact absurd hless (by decide)

end Evm

end ParticleChain
