import ParticleChain.Proofs.Evm.Operators
import ParticleChain.Proofs.Evm.Tape

/-!
# Reading past the end

Words of call data, copies to memory and immediates may all lie beyond the end of what they are read
from. Each is read in a way of its own, and all read the tape of the bytes with zeros after them
(`paddedWord_eq`, `Memory.excerpt_eq`, `toNat_immediateWord`). So an instruction that loads a word,
one that copies and one that pushes see the same bytes (`readers_agree`).
-/

namespace ParticleChain

namespace Evm

open Exec

/-! ## Instructions with their operands -/

/-- The frame is at an instruction. Its operands lie on `ws`, the first one uppermost, and there is
room for what it pushes. -/
structure Frame.At (f : Frame) (op : Opcode) (operands : List Word) (ws : Array Word) : Prop where
  opcode : f.opcode? = some op
  words : f.stack.words = operands.foldr (fun w ws => ws.push w) ws
  room : ws.size + op.shape.pushes ≤ Stack.limit

theorem size_foldr_push (operands : List Word) (ws : Array Word) :
    (operands.foldr (fun w ws => ws.push w) ws).size = ws.size + operands.length := by
  induction operands with
  | nil => rfl
  | cons w operands ih => rw [List.foldr_cons, Array.size_push, ih, List.length_cons, Nat.add_assoc]

theorem Frame.At.fits {f : Frame} {op : Opcode} {operands : List Word} {ws : Array Word}
    (h : f.At op operands ws) (hpops : operands.length = op.shape.pops) : f.Fits op := by
  have hs : f.stack.size = ws.size + operands.length := by
    unfold Stack.size
    rw [h.words, size_foldr_push]
  have := h.room
  unfold Fits
  omega

/-! ## Words and immediates -/

theorem paddedWord_eq {b : ByteArray} (hb : b.size < 2 ^ 63) (start : Word) :
    paddedWord b start = ((Tape.ofBytes b).drop start.toNat).word := by
  have hexcerpt := Memory.excerpt_eq hb start 32
  unfold Tape.word
  rw [← hexcerpt]
  unfold paddedWord Memory.excerpt
  rcases start.size? with _ | i
  · show Word.zero = .ofNat (Bytes.toNat (Bytes.zeros 32))
    rw [Bytes.toNat_zeros]
    decide
  · exact (Tape.wordAt_eq b i).trans (by rw [Tape.word, ← Tape.window_eq])

theorem toNat_immediateWord (code : ByteArray) (i : Nat) {n : Nat} (hn : n ≤ 32) :
    (immediateWord code i n).toNat = Bytes.toNat (((Tape.ofBytes code).drop i).take n) := by
  have hsize : (Bytes.zeros (32 - n) ++ Bytes.window code i n).size = 32 := by
    rw [ByteArray.size_append, Bytes.size_zeros, Bytes.size_window, Nat.sub_add_cancel hn]
  unfold immediateWord
  rw [wordAt_shiftRight code i hn, Word.toNat_wordAt hsize, Bytes.toNat_append, Bytes.toNat_zeros,
    Nat.zero_mul, Nat.zero_add, Tape.window_eq]

/-! ## Loads -/

section

variable (tx : Tx) {f : Frame} {ws : Array Word} {start dest length who : Word}

theorem Frame.puts_callDataLoad (h : f.At .callDataLoad [start] ws) (hg : 3 ≤ f.gasLeft)
    (hs : f.message.input.size < 2 ^ 63) :
    f.Puts tx ws (· = ((Tape.ofBytes f.message.input).drop start.toNat).word) := by
  have hpop : pop (f.prepared .callDataLoad) = .ok start ((f.prepared .callDataLoad).withWords ws) :=
    pop_ok h.words
  have hpush := push_ok (f := (f.prepared .callDataLoad).withWords ws) h.room
    (paddedWord f.message.input start)
  exact ⟨_, _, (step_eq_perform h.opcode (h.fits rfl) hg).trans <|
    bind_ok ((bind_ok hpop).trans ((bind_ok rfl).trans hpush)), rfl, paddedWord_eq hs start⟩

/-- A load from within memory costs nothing besides the instruction. -/
theorem Frame.puts_mload (h : f.At .mload [start] ws) (hg : 3 ≤ f.gasLeft)
    (hs : Span.Accepted ⟨start, .ofNat 32⟩) (hm : start.toNat + 32 ≤ f.memory.size) :
    f.Puts tx ws (· = (f.memory.tape.drop start.toNat).word) := by
  have hpop : pop (f.prepared .mload) = .ok start ((f.prepared .mload).withWords ws) :=
    pop_ok h.words
  have hwords : wordsFor [⟨start, .ofNat 32⟩] ≤ wordCount f.memory.size :=
    wordsFor_le_iff.2 fun s hs i hi => by
      obtain rfl := List.mem_singleton.1 hs
      have hi : i < start.toNat + 32 := hi.2
      unfold wordCount
      omega
  -- The memory that is there is paid for, whatever gas is left.
  have hworth : memoryCost (max (wordCount f.memory.size) (wordsFor [⟨start, .ofNat 32⟩])) + 0 ≤
      ((f.prepared .mload).withWords ws).worth := by
    rw [Nat.max_eq_left hwords]
    exact Nat.le_add_left _ _
  obtain ⟨w, g, hload, haccess⟩ := (accesses_loadAt start).ok
    (f := (f.prepared .mload).withWords ws) (List.forall_mem_singleton.2 hs) hworth
  have hstack : g.stack.words = ws := congrArg Stack.words haccess.same.stack
  have hpush := push_ok (f := g) (by
    unfold Stack.size
    rw [hstack]
    exact h.room) w
  refine ⟨_, w, (step_eq_perform h.opcode (h.fits rfl) hg).trans <|
    (congrFun (perform_mload tx _) _).trans <|
    bind_ok ((bind_ok hpop).trans ((bind_ok hload).trans hpush)), ?_,
    (Prod.mk.inj haccess.tape).1.symm⟩
  rw [← hstack]
  rfl

theorem Frame.puts_push {n : Fin 33} (h : f.At (.push n) [] ws)
    (hg : (Opcode.push n).shape.gas ≤ f.gasLeft) (hs : f.code.size < 2 ^ 63) :
    f.Puts tx ws fun w =>
      w.toNat = Bytes.toNat (((Tape.ofBytes f.code).drop (f.pc + 1)).take n) := by
  obtain ⟨hpc, -⟩ := Frame.opcode?_inv h.opcode
  have hstack : (f.prepared (.push n)).stack.words = ws := h.words
  have hpush := push_ok (f := f.prepared (.push n)) (by
    unfold Stack.size
    rw [hstack]
    exact h.room) (immediateWord f.code (f.pc + 1) n)
  have hmax : maxAmount = 2 ^ 64 - 1 := rfl
  have hbounded := bounded_ok (show f.pc + 1 + n.val ≤ maxAmount by omega)
  refine ⟨_, _, (step_eq_perform h.opcode (h.fits rfl) hg).trans <|
    bind_ok ((bind_ok rfl).trans <| (bind_ok rfl).trans <| (bind_ok hpush).trans <|
      (bind_ok (hbounded _)).trans rfl), ?_, toNat_immediateWord f.code _ (by omega)⟩
  rw [← hstack]
  rfl

/-! ## Copies -/

/-- The frame goes on with `ws` on its stack, and with a span of memory overwritten with the first
bytes of a tape and no other byte changed. It traps only if the span is refused or if there is less
gas than `cost` and the growth of memory come to. -/
def Frame.Overwrites (tx : Tx) (f : Frame) (ws : Array Word) (s : Span) (cost : Nat)
    (source : Tape) : Prop :=
  match step tx f with
  | .ok flow g => flow = .next ∧ g.stack.words = ws ∧
    g.memory.tape = f.memory.tape.write s.offset.toNat s.length.toNat source ∧
    s.Accepted ∧ ∀ i, s.Has i → i < g.memory.size
  | .error e g => (e = .memoryLimit ∧ ¬ s.Accepted) ∨
    ((∃ n, e = .outOfGas n g.gasLeft) ∧ f.gasLeft < cost + f.memory.charge s.range)

/-- What a copy costs besides the growth of memory. -/
def copyCost (s : CopySource) (length : Word) : Nat :=
  (Opcode.copy s).shape.gas + Price.copyWord * wordCount length.toNat

/-- Once its operands are taken, a copy overwrites the span that they give. -/
theorem Frame.overwrites_of_copy {s : CopySource} {source : ByteArray}
    (hop : f.opcode? = some (.copy s)) (hf : f.Fits (.copy s)) (hs : source.size < 2 ^ 63)
    (hcopy : copyFrom s (f.prepared (.copy s)) =
      copyToMemory dest length source start ((f.prepared (.copy s)).withWords ws)) :
    f.Overwrites tx ws ⟨dest, length⟩ (copyCost s length)
      ((Tape.ofBytes source).drop start.toNat) := by
  unfold Overwrites copyCost
  by_cases hg : (Opcode.copy s).shape.gas ≤ f.gasLeft
  · have hrun := accesses_copyToMemory hs dest length start ((f.prepared (.copy s)).withWords ws)
    have hstep : step tx f = proceed (copyFrom s) (f.prepared (.copy s)) :=
      step_eq_perform hop hf hg
    cases hr : copyToMemory dest length source start ((f.prepared (.copy s)).withWords ws) with
    | ok u g =>
      rw [hr] at hrun
      have hsize := hrun.size
      rw [hstep, show proceed (copyFrom s) _ = .ok .next g from bind_ok (hcopy.trans hr)]
      refine ⟨rfl, congrArg Stack.words hrun.same.stack, (Prod.mk.inj hrun.tape).2.symm,
        List.forall_mem_singleton.1 hrun.accepted, fun i hi => ?_⟩
      have hwords := wordsFor_le_iff.1 (Nat.le_refl _) _ (List.mem_singleton_self _) i hi
      omega
    | error e g =>
      rw [hr] at hrun
      rw [hstep, show proceed (copyFrom s) _ = .error e g from bind_error (hcopy.trans hr)]
      rcases hrun with ⟨he, t, ht, hrefused⟩ | ⟨he, hless⟩
      · obtain rfl := List.mem_singleton.1 ht
        exact .inl ⟨he, hrefused⟩
      · refine .inr ⟨he, ?_⟩
        have hless : f.gasLeft - (Opcode.copy s).shape.gas + f.memory.price <
          memoryCost (max (wordCount f.memory.size) (wordsFor [⟨dest, length⟩])) +
            Price.copyWord * wordCount length.toNat := hless
        rw [f.memory.memoryCost_span] at hless
        omega
  · obtain ⟨g, hstep⟩ : ∃ g, step tx f = .error (.outOfGas _ g.gasLeft) g :=
      step_outOfGas hop hf hg
    rw [hstep]
    exact .inr ⟨⟨_, rfl⟩, by omega⟩

theorem copyFrom_callData (h : f.stack.words = ((ws.push length).push start).push dest) :
    copyFrom .callData f = copyToMemory dest length f.message.input start (f.withWords ws) :=
  (bind_ok (pop3_ok h)).trans rfl

theorem copyFrom_code (h : f.stack.words = ((ws.push length).push start).push dest) :
    copyFrom .code f = copyToMemory dest length f.code start (f.withWords ws) :=
  (bind_ok (pop3_ok h)).trans rfl

theorem copyFrom_accountCode
    (h : f.stack.words = (((ws.push length).push start).push dest).push who) :
    copyFrom .accountCode f = copyToMemory dest length (f.view.account (.ofWord who)).code start
      (f.withWords ws) :=
  (bind_ok (pop4_ok h)).trans rfl

theorem Frame.overwrites_callDataCopy (h : f.At (.copy .callData) [dest, start, length] ws)
    (hs : f.message.input.size < 2 ^ 63) : f.Overwrites tx ws ⟨dest, length⟩
      (copyCost .callData length) ((Tape.ofBytes f.message.input).drop start.toNat) :=
  overwrites_of_copy tx h.opcode (h.fits rfl) hs (copyFrom_callData h.words)

theorem Frame.overwrites_codeCopy (h : f.At (.copy .code) [dest, start, length] ws)
    (hs : f.code.size < 2 ^ 63) : f.Overwrites tx ws ⟨dest, length⟩
      (copyCost .code length) ((Tape.ofBytes f.code).drop start.toNat) :=
  overwrites_of_copy tx h.opcode (h.fits rfl) hs (copyFrom_code h.words)

theorem Frame.overwrites_extCodeCopy
    (h : f.At (.copy .accountCode) [who, dest, start, length] ws)
    (hs : (f.view.account (.ofWord who)).code.size < 2 ^ 63) : f.Overwrites tx ws ⟨dest, length⟩
      (copyCost .accountCode length)
      ((Tape.ofBytes (f.view.account (.ofWord who)).code).drop start.toNat) :=
  overwrites_of_copy tx h.opcode (h.fits rfl) hs (copyFrom_accountCode h.words)

end

/-! ## One view of the bytes -/

/-- All readers of a byte string see it with zeros after it: the word that is loaded from call data,
the word that is loaded from memory after 32 bytes of call data are copied there, the bytes that are
copied from call data, from the own code or from that of an account, and the number that is pushed
with its digits in the code. The bytes are as many as fit in an address space. -/
theorem readers_agree (b : ByteArray) (hb : b.size < 2 ^ 63) (tx : Tx) (start : Word) :
    let tape := (Tape.ofBytes b).drop start.toNat
    (∀ f ws, Frame.At f .callDataLoad [start] ws → f.message.input = b → 3 ≤ f.gasLeft →
      f.Puts tx ws (· = tape.word)) ∧
    (∀ f g k ws ws' dest flow, Frame.At f (.copy .callData) [dest, start, .ofNat 32] ws →
      f.message.input = b → step tx f = .ok flow g → Frame.At k .mload [dest] ws' →
      k.memory = g.memory → 3 ≤ k.gasLeft → k.Puts tx ws' (· = tape.word)) ∧
    (∀ f ws dest length, Frame.At f (.copy .callData) [dest, start, length] ws →
      f.message.input = b → f.Overwrites tx ws ⟨dest, length⟩ (copyCost .callData length) tape) ∧
    (∀ f ws dest length, Frame.At f (.copy .code) [dest, start, length] ws →
      f.code = b → f.Overwrites tx ws ⟨dest, length⟩ (copyCost .code length) tape) ∧
    (∀ f ws who dest length, Frame.At f (.copy .accountCode) [who, dest, start, length] ws →
      (f.view.account (.ofWord who)).code = b →
      f.Overwrites tx ws ⟨dest, length⟩ (copyCost .accountCode length) tape) ∧
    ∀ f ws (n : Fin 33), Frame.At f (.push n) [] ws → f.code = b →
      (Opcode.push n).shape.gas ≤ f.gasLeft →
      f.Puts tx ws (·.toNat = Bytes.toNat (((Tape.ofBytes b).drop (f.pc + 1)).take n)) ∧
      ∀ k g ws' dest length flow,
        Frame.At k (.copy .code) [dest, .ofNat (f.pc + 1), length] ws' → k.code = b →
        length.toNat = n → step tx k = .ok flow g →
        f.Puts tx ws (·.toNat = Bytes.toNat (g.memory.slice dest.toNat n)) := by
  intro tape
  refine ⟨?_, ?_, ?_, ?_, ?_, ?_⟩
  · rintro f ws h rfl hg
    exact Frame.puts_callDataLoad tx h hg hb
  · rintro f g k ws ws' dest flow h rfl hstep hk hmemory hg
    have hcopy := Frame.overwrites_callDataCopy tx h hb
    unfold Frame.Overwrites at hcopy
    rw [hstep] at hcopy
    obtain ⟨-, -, htape, haccepted, hlen⟩ := hcopy
    have hm : dest.toNat + 32 ≤ k.memory.size := by
      have := hlen (dest.toNat + 31) ⟨Nat.le_add_right _ _, Nat.lt_succ_self _⟩
      rw [hmemory]
      omega
    have hload := Frame.puts_mload tx hk hg haccepted hm
    have hword : (k.memory.tape.drop dest.toNat).word = tape.word := by
      unfold Tape.word
      rw [hmemory, htape]
      exact congrArg _ (congrArg _ (Tape.take_drop_write _ _ 32 _))
    rwa [hword] at hload
  · rintro f ws dest length h rfl
    exact Frame.overwrites_callDataCopy tx h hb
  · rintro f ws dest length h rfl
    exact Frame.overwrites_codeCopy tx h hb
  · rintro f ws who dest length h rfl
    exact Frame.overwrites_extCodeCopy tx h hb
  · rintro f ws n h rfl hg
    have hpush := Frame.puts_push tx h hg hb
    refine ⟨hpush, fun k g ws' dest length flow hk hcode hn hstep => ?_⟩
    have hcopy := Frame.overwrites_codeCopy tx hk (hcode ▸ hb)
    unfold Frame.Overwrites at hcopy
    rw [hstep, hcode] at hcopy
    obtain ⟨-, -, htape, -, hlen⟩ := hcopy
    have hstart : (Word.ofNat (f.pc + 1)).toNat = f.pc + 1 := by
      obtain ⟨hpc, -⟩ := Frame.opcode?_inv h.opcode
      rw [Word.toNat_ofNat]
      unfold Word.modulus
      omega
    have hwithin : ∀ i < n.val, dest.toNat + i < g.memory.size := fun i hi =>
      hlen _ ⟨Nat.le_add_right _ _, Nat.add_lt_add_left (hn ▸ hi) _⟩
    have hslice : g.memory.slice dest.toNat n = ((Tape.ofBytes f.code).drop (f.pc + 1)).take n := by
      rw [Memory.slice_eq hwithin, htape, hn, hstart, Tape.take_drop_write]
    rwa [hslice]

/-- Four bytes from the third on, as call data and as code that copies from itself and whose last
instruction is cut off. -/
theorem readers_agree_straddling :
    let b := Bytes.ofList [0x39, 0x62, 0xaa, 0xbb]
    let tx : Tx := ⟨.standard, .zero⟩
    let started := fun input code gas => Frame.start (.plainCall .zero .zero input gas .zero) code
      (View.ofWorld .empty) .empty
    let loader := { started b (Bytes.ofList [0x35]) 3 with stack := ⟨#[.ofNat 2], ""⟩ }
    let copier := { started .empty b 12 with stack := ⟨#[.ofNat 3, .ofNat 2, .ofNat 31], ""⟩ }
    let pusher := { started .empty b 3 with pc := 1 }
    loader.Puts tx #[] (·.toNat = 0xaabb * 256 ^ 30) ∧
    (∃ g, step tx copier = .ok .next g ∧ g.memory.slice 31 3 = Bytes.ofList [0xaa, 0xbb, 0]) ∧
    pusher.Puts tx #[] (·.toNat = 0xaabb00) := by
  intro b tx started loader copier pusher
  obtain ⟨hload, -, -, hcopy, -, hpush⟩ := readers_agree b (by decide) tx (.ofNat 2)
  refine ⟨?_, ?_, ?_⟩
  · obtain ⟨g, w, hstep, hwords, hw⟩ := hload loader #[] ⟨by decide, rfl, by decide⟩ rfl (by decide)
    exact ⟨g, w, hstep, hwords, hw ▸ by decide +kernel⟩
  · have hrun := hcopy copier #[] (.ofNat 31) (.ofNat 3) ⟨by decide, rfl, by decide⟩ rfl
    unfold Frame.Overwrites at hrun
    split at hrun
    · rename_i flow g hstep
      obtain ⟨rfl, -, htape, -, hlen⟩ := hrun
      have hbytes : ∀ i < 3, 31 + i < g.memory.size := fun i hi =>
        hlen (31 + i) ⟨Nat.le_add_right 31 i, Nat.add_lt_add_left hi 31⟩
      refine ⟨g, hstep, ?_⟩
      rw [Memory.slice_eq hbytes, htape]
      exact (Tape.take_drop_write _ 31 3 _).trans (by decide +kernel)
    · rcases hrun with ⟨-, hrefused⟩ | ⟨-, hless⟩
      · exact absurd (by decide) hrefused
      · exact absurd hless (by decide)
  · obtain ⟨g, w, hstep, hwords, hw⟩ := (hpush pusher #[] 3 ⟨by decide, rfl, by decide⟩ rfl
      (by decide)).1
    exact ⟨g, w, hstep, hwords, hw.trans (by decide +kernel)⟩

end Evm

end ParticleChain
