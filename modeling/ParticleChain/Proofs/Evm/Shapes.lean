import ParticleChain.Proofs.Evm.Calls
import ParticleChain.Proofs.Evm.Evaluation

/-!
# Instructions keep to their shapes

The table of instructions says how many words each one takes and puts (`Opcode.shape`), and the
stack is checked against that before the instruction runs. This module says that the check is
enough: an instruction finds the words it takes and room for those it puts, leaves just as many as
the table says and none below touched (`brings_perform`, one case per instruction), also if a callee
runs in between (`brings_instruct`). A frame runs instruction by instruction
(`Frame.run_eq_instruct`), so a run traps for its stack only where the check refuses
(`run_trap_ofStack`), and no frame ever has more than 1024 words (`Message.Visits.size_stack_le`).
-/

namespace ParticleChain.Evm

open Exec

/-- Whether the trap is about the words on the stack or the room on it. -/
def Trap.ofStack : Trap → Bool
  | stackUnderflow .. | stackOverflow .. => true
  | _ => false

/-- The stack has `n` words on top of those of `base`. -/
structure Stack.OnTop (base : Array Word) (n : Nat) (s : Stack) : Prop where
  size : s.size = base.size + n
  bottom : ∀ i < base.size, s.words[i]? = base[i]?

def Frame.OnTop (base : Array Word) (n : Nat) (f : Frame) : Prop := f.stack.OnTop base n

/-! ## Actions on a stack of known height -/

/-- Where `P n` holds, the action does not trap for the stack, and where it gives `a`, it leaves
`P (m a)`. -/
structure Brings {σ α : Type} (P : Nat → σ → Prop) (n : Nat) (m : α → Nat) (x : EStateM Trap σ α) :
    Prop where
  ok {s t : σ} {a : α} (hs : P n s) (h : x s = .ok a t) : P (m a) t
  trap {s t : σ} {e : Trap} (hs : P n s) (h : x s = .error e t) : e.ofStack = false

section

variable {σ α β : Type} {P : Nat → σ → Prop} {n : Nat} {m : α → Nat} {l : β → Nat}

theorem Brings.bind {x : EStateM Trap σ α} {k : α → EStateM Trap σ β} (hx : Brings P n m x)
    (hk : ∀ a, Brings P (m a) l (k a)) : Brings P n l (x >>= k) where
  ok hs h := by
    obtain ⟨a, t, ha, h⟩ := bind_inv h
    exact (hk a).ok (hx.ok hs ha) h
  trap hs h := by
    obtain h | ⟨a, t, ha, h⟩ := bind_error_inv h
    · exact hx.trap hs h
    · exact (hk a).trap (hx.ok hs ha) h

theorem brings_pure {a : α} (ha : m a = n) : Brings P n m (pure a) where
  ok hs h := by
    cases h
    rwa [ha]
  trap _ h := nomatch h

theorem brings_throw {e : Trap} (he : e.ofStack = false) : Brings P n m (throw e) where
  ok _ h := nomatch h
  trap _ h := by
    cases h
    exact he

/-- Which other action it is like may depend on the state. -/
theorem Brings.of_eq {x : EStateM Trap σ α} {y : σ → EStateM Trap σ α}
    (h : ∀ s, P n s → x s = y s s) (hy : ∀ s, Brings P n m (y s)) : Brings P n m x where
  ok hs hx := (hy _).ok hs ((h _ hs).symm.trans hx)
  trap hs hx := (hy _).trap hs ((h _ hs).symm.trans hx)

end

namespace Stack

variable {base : Array Word} {n : Nat}

theorem brings_push (hroom : base.size + n < limit) (w : Word) :
    Brings (OnTop base) n (fun _ => n + 1) (push w) where
  ok {s t _} hs h := by
    have hsize : s.words.size = base.size + n := hs.size
    unfold push at h
    split at h
    · cases h
      refine ⟨?_, fun i hi => ?_⟩
      · show (s.words.push w).size = _
        rw [Array.size_push, hsize, Nat.add_assoc]
      · rw [Array.getElem?_push, if_neg (by omega), hs.bottom i hi]
    · cases h
  trap hs h := by
    unfold push at h
    rw [if_pos (by rw [hs.size]; exact hroom)] at h
    cases h

theorem brings_pop : Brings (OnTop base) (n + 1) (fun _ => n) pop where
  ok {s t w} hs h := by
    obtain ⟨ws, hw, rfl⟩ := pop_inv h
    have hsize : s.words.size = base.size + (n + 1) := hs.size
    rw [hw, Array.size_push] at hsize
    have hws : ws.size = base.size + n := by omega
    refine ⟨hws, fun i hi => ?_⟩
    rw [← hs.bottom i hi, hw, Array.getElem?_push, if_neg (by omega)]
  trap {s t e} hs h := by
    have hsize : s.words.size = base.size + (n + 1) := hs.size
    unfold pop at h
    rw [dif_pos (by omega)] at h
    cases h

theorem brings_need {k : Nat} (hk : k ≤ n) : Brings (OnTop base) n (fun _ => n) (need k) where
  ok hs h := by
    cases need_inv h
    exact hs
  trap hs h := by
    rw [need_ok (by rw [hs.size]; omega)] at h
    cases h

theorem brings_pop2 : Brings (OnTop base) (n + 2) (fun _ => n) pop2 :=
  (brings_need (Nat.le_add_left 2 n)).bind fun _ => brings_pop.bind fun _ =>
    brings_pop.bind fun _ => brings_pure rfl

theorem brings_pop3 : Brings (OnTop base) (n + 3) (fun _ => n) pop3 :=
  (brings_need (Nat.le_add_left 3 n)).bind fun _ => brings_pop.bind fun _ =>
    brings_pop.bind fun _ => brings_pop.bind fun _ => brings_pure rfl

theorem brings_pop4 : Brings (OnTop base) (n + 4) (fun _ => n) pop4 :=
  (brings_need (Nat.le_add_left 4 n)).bind fun _ => brings_pop.bind fun _ =>
    brings_pop.bind fun _ => brings_pop.bind fun _ => brings_pop.bind fun _ => brings_pure rfl

/-- Copying takes no word: the one that is copied stays in its place. -/
theorem brings_dup {k : Nat} (hk : k < n) (hroom : base.size + n < limit) :
    Brings (OnTop base) n (fun _ => n + 1) (dup (k + 1)) := by
  refine .of_eq (y := fun s => push (s.words[s.size - (k + 1)]?.getD .zero)) (fun s hs => ?_)
    fun _ => brings_push hroom _
  have hsize : s.words.size = base.size + n := hs.size
  have hle : ¬ s.size < k + 1 := by
    unfold size
    omega
  have hin : s.size - (k + 1) < s.words.size := by
    unfold size
    omega
  unfold dup
  rw [if_neg hle, Array.getElem?_eq_getElem hin]
  rfl

/-- Both words that change places are among the top ones. -/
theorem brings_swap {k : Nat} (hk : k + 1 < n) :
    Brings (OnTop base) n (fun _ => n) (swap (k + 1)) := by
  have hswap : ∀ s : Stack, s.OnTop base n → swap (k + 1) s = .ok () { s with
      words := s.words.swapIfInBounds (s.words.size - 1) (s.words.size - 1 - (k + 1)) } := by
    intro s hs
    have hsize : s.words.size = base.size + n := hs.size
    exact if_pos ⟨Nat.succ_pos k, by omega⟩
  constructor
  · intro s t _ hs h
    have hsize : s.words.size = base.size + n := hs.size
    rw [hswap s hs] at h
    cases h
    refine ⟨?_, fun i hi => ?_⟩
    · exact Array.size_swapIfInBounds.trans hsize
    · have htop : s.words.size - 1 < s.words.size := by omega
      have hunder : s.words.size - 1 - (k + 1) < s.words.size := by omega
      rw [Array.swapIfInBounds_def, dif_pos htop, dif_pos hunder, Array.getElem?_swap,
        if_neg (by omega), if_neg (by omega), hs.bottom i hi]
  · intro s t e hs h
    rw [hswap s hs] at h
    cases h

end Stack

namespace Exec

variable {base : Array Word} {n : Nat} {α : Type}

theorem brings_onStack {m : α → Nat} {x : StackM α} (hx : Brings (Stack.OnTop base) n m x) :
    Brings (Frame.OnTop base) n m (onStack x) where
  ok hf h := by
    obtain ⟨s, hs, rfl⟩ := onStack_inv h
    exact hx.ok hf hs
  trap hf h := by
    unfold onStack at h
    dsimp only at h
    split at h
    · cases h
    · rename_i hs
      cases h
      exact hx.trap hf hs

theorem brings_push (hroom : base.size + n < Stack.limit) (w : Word) :
    Brings (Frame.OnTop base) n (fun _ => n + 1) (push w) :=
  brings_onStack (Stack.brings_push hroom w)

theorem brings_pop : Brings (Frame.OnTop base) (n + 1) (fun _ => n) pop :=
  brings_onStack Stack.brings_pop

theorem brings_pop2 : Brings (Frame.OnTop base) (n + 2) (fun _ => n) pop2 :=
  brings_onStack Stack.brings_pop2

theorem brings_pop3 : Brings (Frame.OnTop base) (n + 3) (fun _ => n) pop3 :=
  brings_onStack Stack.brings_pop3

theorem brings_pop4 : Brings (Frame.OnTop base) (n + 4) (fun _ => n) pop4 :=
  brings_onStack Stack.brings_pop4

/-! ### Actions beside the stack -/

theorem brings_get : Brings (Frame.OnTop base) n (fun _ => n) get where
  ok hf h := by
    cases h
    exact hf
  trap _ h := nomatch h

theorem brings_modify {g : Frame → Frame} (hg : ∀ f, (g f).stack = f.stack) :
    Brings (Frame.OnTop base) n (fun _ => n) (modify g) where
  ok {f _ _} hf h := by
    cases h
    show (g f).stack.OnTop base n
    rw [hg]
    exact hf
  trap _ h := nomatch h

theorem brings_ensure {t : Trap} (ht : t.ofStack = false) (b : Bool) :
    Brings (Frame.OnTop base) n (fun _ => n) (ensure b t) := by
  unfold ensure
  split
  · exact brings_pure rfl
  · exact brings_throw ht

theorem brings_bounded (k : Nat) : Brings (Frame.OnTop base) n (fun _ => n) (bounded k) := by
  unfold bounded
  split
  · exact brings_pure rfl
  · exact brings_throw rfl

theorem brings_gasLeft : Brings (Frame.OnTop base) n (fun _ => n) gasLeft :=
  brings_get.bind fun _ => brings_pure rfl

theorem brings_spend (k : Nat) : Brings (Frame.OnTop base) n (fun _ => n) (spend k) where
  ok hf h := by
    obtain ⟨-, rfl⟩ := spend_inv h
    exact hf
  trap {f _ _} _ h := by
    by_cases hk : k ≤ f.gasLeft
    · rw [spend_ok hk] at h
      cases h
    · rw [spend_trap hk] at h
      cases h
      rfl

theorem brings_charge (c : Category) (k : Nat) :
    Brings (Frame.OnTop base) n (fun _ => n) (charge c k) :=
  (brings_spend k).bind fun _ => brings_modify fun _ => rfl

theorem brings_setPc (k : Nat) : Brings (Frame.OnTop base) n (fun _ => n) (setPc k) :=
  brings_modify fun _ => rfl

theorem brings_touch (a b : Word) : Brings (Frame.OnTop base) n (fun _ => n) (touch a b) := by
  unfold touch
  split
  · rename_i t ht
    rw [Memory.eq_of_range_error ht]
    exact brings_throw rfl
  · exact brings_pure rfl
  · exact (brings_bounded _).bind fun _ => brings_get.bind fun _ =>
      (brings_charge _ _).bind fun _ => Brings.bind (brings_modify fun _ => rfl) fun _ =>
      brings_pure rfl

theorem brings_readMemory (o k : Nat) :
    Brings (Frame.OnTop base) n (fun _ => n) (readMemory o k) :=
  brings_get.bind fun _ => (brings_ensure rfl _).bind fun _ => brings_get.bind fun _ =>
    brings_pure rfl

theorem brings_loadWord (o : Nat) : Brings (Frame.OnTop base) n (fun _ => n) (loadWord o) :=
  brings_get.bind fun _ => (brings_ensure rfl _).bind fun _ => brings_get.bind fun _ =>
    brings_pure rfl

theorem brings_writeMemory (o : Nat) (b : ByteArray) :
    Brings (Frame.OnTop base) n (fun _ => n) (writeMemory o b) :=
  brings_get.bind fun _ => (brings_ensure rfl _).bind fun _ => brings_modify fun _ => rfl

theorem brings_memorySlice (a b : Word) :
    Brings (Frame.OnTop base) n (fun _ => n) (memorySlice a b) := by
  refine (brings_touch a b).bind fun r => ?_
  cases r with
  | none => exact brings_pure rfl
  | some r => exact brings_readMemory _ _

theorem brings_copyToMemory (d k : Word) (b : ByteArray) (s : Word) :
    Brings (Frame.OnTop base) n (fun _ => n) (copyToMemory d k b s) := by
  refine (brings_touch d k).bind fun r => ?_
  cases r with
  | none => exact brings_pure rfl
  | some r =>
    exact (brings_bounded _).bind fun _ => (brings_charge _ _).bind fun _ => brings_writeMemory _ _

theorem brings_jump (t : Word) : Brings (Frame.OnTop base) n (fun _ => n) (jump t) := by
  unfold jump
  split
  · exact brings_throw rfl
  · exact brings_get.bind fun _ => (brings_ensure rfl _).bind fun _ => brings_setPc _

theorem brings_requireMutable (s : String) :
    Brings (Frame.OnTop base) n (fun _ => n) (requireMutable s) :=
  brings_get.bind fun _ => brings_ensure rfl _

end Exec

/-! ## Instructions -/

section

variable {base : Array Word} {n : Nat}

/-- What an instruction that puts `pushes` words leaves behind: the word for the outcome of a callee
is still to come. -/
def Flow.left (pushes : Nat) : Flow → Nat
  | .enter .. => 0
  | .next | .halt _ => pushes

theorem brings_proceed {x : Exec Unit} {pushes : Nat}
    (hx : Brings (Frame.OnTop base) n (fun _ => pushes) x) :
    Brings (Frame.OnTop base) n (Flow.left pushes) (proceed x) :=
  hx.bind fun _ => brings_pure rfl

theorem brings_copyFrom (s : CopySource) :
    Brings (Frame.OnTop base) (Opcode.copy s).shape.pops (fun _ => 0) (copyFrom s) := by
  cases s with
  | returnData =>
    exact brings_pop3.bind fun _ => brings_get.bind fun _ => brings_get.bind fun _ =>
      (brings_ensure rfl _).bind fun _ => brings_get.bind fun _ => brings_copyToMemory _ _ _ _
  | callData | code =>
    exact brings_pop3.bind fun _ => brings_get.bind fun _ => brings_copyToMemory _ _ _ _
  | accountCode =>
    exact brings_pop4.bind fun _ => brings_get.bind fun _ => brings_copyToMemory _ _ _ _

theorem brings_writeSlot : Brings (Frame.OnTop base) 2 (fun _ => 0) writeSlot :=
  (brings_requireMutable _).bind fun _ => brings_gasLeft.bind fun _ =>
    (brings_ensure rfl _).bind fun _ => brings_pop2.bind fun _ => brings_get.bind fun _ =>
    (brings_charge _ _).bind fun _ => brings_modify fun _ => rfl

theorem brings_popTopics (k : Nat) :
    Brings (Frame.OnTop base) (n + k) (fun _ => n) (popTopics k) := by
  induction k with
  | zero => exact brings_pure rfl
  | succ k ih => exact brings_pop.bind fun _ => ih.bind fun _ => brings_pure rfl

theorem brings_emitLog (topics : Fin 5) :
    Brings (Frame.OnTop base) (topics + 2) (fun _ => 0) (emitLog topics) := by
  have htopics : Brings (Frame.OnTop base) (0 + topics) (fun _ => 0) (popTopics topics) :=
    brings_popTopics topics
  rw [Nat.zero_add] at htopics
  exact (brings_requireMutable _).bind fun _ => brings_pop2.bind fun _ => htopics.bind fun _ =>
    (brings_memorySlice _ _).bind fun _ => (brings_bounded _).bind fun _ =>
    (brings_charge _ _).bind fun _ => brings_modify fun _ => rfl

theorem brings_popEntry (salted : Bool) :
    Brings (Frame.OnTop base) (if salted then 1 else 0) (fun _ => 0) (popEntry salted) := by
  cases salted with
  | false => exact brings_pure rfl
  | true => exact brings_pop.bind fun _ => brings_pure rfl

theorem brings_startCreate (salted : Bool) :
    Brings (Frame.OnTop base) ((if salted then 1 else 0) + 3) (Flow.left 1) (startCreate salted) :=
  (brings_requireMutable _).bind fun _ => brings_pop3.bind fun _ =>
    (brings_popEntry salted).bind fun _ => (brings_memorySlice _ _).bind fun _ =>
    (brings_ensure rfl _).bind fun _ => (brings_bounded _).bind fun _ =>
    (brings_charge _ _).bind fun _ => (brings_bounded _).bind fun _ =>
    (brings_charge _ _).bind fun _ => brings_gasLeft.bind fun _ => (brings_spend _).bind fun _ =>
    brings_get.bind fun _ => brings_pure rfl

theorem brings_popValue (k : CallKind) :
    Brings (Frame.OnTop base) (n + if k.takesValue then 1 else 0) (fun _ => n) (popValue k) := by
  cases k with
  | call | callCode => exact brings_pop
  | delegateCall | staticCall => exact brings_pure rfl

theorem brings_startCall (k : CallKind) :
    Brings (Frame.OnTop base) (Opcode.call k).shape.pops (Flow.left 1) (startCall k) := by
  have hpops : (Opcode.call k).shape.pops = 4 + (if k.takesValue then 1 else 0) + 1 + 1 := by
    cases k <;> rfl
  rw [hpops]
  exact brings_pop.bind fun _ => brings_pop.bind fun _ => (brings_popValue k).bind fun _ =>
    brings_pop4.bind fun _ => brings_get.bind fun _ => (brings_ensure rfl _).bind fun _ =>
    (brings_memorySlice _ _).bind fun _ => (brings_touch _ _).bind fun _ =>
    brings_get.bind fun _ => (brings_charge _ _).bind fun _ => brings_gasLeft.bind fun _ =>
    (brings_spend _).bind fun _ => (brings_bounded _).bind fun _ => brings_get.bind fun _ =>
    brings_pure rfl

theorem brings_destroy : Brings (Frame.OnTop base) 1 (Flow.left 0) destroy :=
  (brings_requireMutable _).bind fun _ => brings_pop.bind fun _ => brings_get.bind fun _ =>
    brings_get.bind fun _ => (brings_charge _ _).bind fun _ =>
    Brings.bind (brings_modify fun _ => rfl) fun _ => brings_pure rfl

/-- Each instruction keeps to its row of the table. -/
theorem brings_perform (tx : Tx) (offset : Nat) (op : Opcode)
    (hroom : base.size + op.shape.pushes ≤ Stack.limit) :
    Brings (Frame.OnTop base) op.shape.pops (Flow.left op.shape.pushes) (perform tx offset op) := by
  cases op with
  | stop | jumpDest => exact brings_pure rfl
  | invalid => exact brings_throw rfl
  | binary => exact brings_proceed (brings_pop2.bind fun _ => brings_push hroom _)
  | isZero | not | blockHash => exact brings_proceed (brings_pop.bind fun _ => brings_push hroom _)
  | addMod | mulMod => exact brings_proceed (brings_pop3.bind fun _ => brings_push hroom _)
  | exp =>
    exact brings_proceed (brings_pop2.bind fun _ => (brings_bounded _).bind fun _ =>
      (brings_charge _ _).bind fun _ => brings_push hroom _)
  | keccak =>
    exact brings_proceed (brings_pop2.bind fun _ => (brings_memorySlice _ _).bind fun _ =>
      (brings_bounded _).bind fun _ => (brings_charge _ _).bind fun _ => brings_push hroom _)
  | query => exact brings_proceed (brings_get.bind fun _ => brings_push hroom _)
  | account q =>
    cases q <;>
      exact brings_proceed (brings_pop.bind fun _ => brings_get.bind fun _ => brings_push hroom _)
  | callDataLoad | sload =>
    exact brings_proceed (brings_pop.bind fun _ => brings_get.bind fun _ => brings_push hroom _)
  | copy s => cases s <;> exact brings_proceed (brings_copyFrom _)
  | pop => exact brings_proceed (brings_pop.bind fun _ => brings_pure rfl)
  | mload =>
    refine brings_proceed (brings_pop.bind fun _ => (brings_touch _ _).bind fun r => ?_)
    cases r with
    | none => exact brings_push hroom _
    | some r => exact (brings_loadWord _).bind fun _ => brings_push hroom _
  | mstore | mstore8 =>
    refine brings_proceed (brings_pop2.bind fun _ => (brings_touch _ _).bind fun r => ?_)
    cases r with
    | none => exact brings_pure rfl
    | some r => exact brings_writeMemory _ _
  | sstore => exact brings_proceed brings_writeSlot
  | jump => exact brings_proceed (brings_pop.bind fun _ => brings_jump _)
  | jumpIf =>
    refine brings_proceed (brings_pop2.bind fun _ => ?_)
    dsimp only
    split
    · exact brings_pure rfl
    · exact brings_jump _
  | push k =>
    exact brings_proceed (brings_get.bind fun _ => brings_get.bind fun _ =>
      (brings_push hroom _).bind fun _ => (brings_bounded _).bind fun _ => brings_setPc _)
  | dup k => exact brings_proceed (brings_onStack (Stack.brings_dup (Nat.lt_succ_self _) hroom))
  | swap k => exact brings_proceed (brings_onStack (Stack.brings_swap (Nat.lt_succ_self _)))
  | log topics => exact brings_proceed (brings_emitLog topics)
  | create => exact brings_startCreate false
  | create2 => exact brings_startCreate true
  | call k => cases k <;> exact brings_startCall _
  | ret | revert =>
    exact brings_pop2.bind fun _ => (brings_memorySlice _ _).bind fun _ => brings_pure rfl
  | selfDestruct => exact brings_destroy

theorem brings_finish (hroom : base.size < Stack.limit) (o : Outcome) (r : Resume) :
    Brings (Frame.OnTop base) 0 (fun _ => 1) (r.finish o) := by
  cases r with
  | create => exact Brings.bind (brings_modify fun _ => rfl) fun _ => brings_push hroom _
  | call out =>
    refine Brings.bind (brings_modify fun _ => rfl) fun _ => Brings.bind ?_ fun _ =>
      brings_push hroom _
    cases out with
    | none => exact brings_pure rfl
    | some r => exact brings_writeMemory _ _

end

/-! ## Instructions with their callees -/

/-- How the frame goes on from a flow: a callee is run to its end and its report taken up. It gives
how the code halts, if it does. -/
def Flow.complete (tx : Tx) : Flow → Exec (Option Halt)
  | .next => pure none
  | .halt x => pure (some x)
  | .enter m r => do
    let g ← get
    let x := execute tx m g.view g.profile
    modify (·.after x)
    r.finish x.outcome
    return none

/-- Runs an instruction, the frames it starts included. -/
def instruct (tx : Tx) (offset : Nat) (op : Opcode) : Exec (Option Halt) := do
  (← perform tx offset op).complete tx

section

variable {tx : Tx} {f g k : Frame} {op : Opcode} {m : Message} {r : Resume}

theorem Flow.complete_back (hk : g.answered tx m r = .ok () k) :
    (enter m r).complete tx g = .ok none k :=
  (bind_ok rfl).trans <| (bind_ok rfl).trans <| bind_ok hk

theorem Flow.complete_stuck {t : Trap} (hk : g.answered tx m r = .error t k) :
    (enter m r).complete tx g = .error t k :=
  (bind_ok rfl).trans <| (bind_ok rfl).trans <| bind_error hk

/-- A frame runs instruction by instruction. -/
theorem Frame.run_eq_instruct (hop : f.opcode? = some op) (hf : f.Fits op)
    (hg : op.shape.gas ≤ f.gasLeft) :
    f.run tx = match instruct tx f.pc op (f.prepared op) with
      | .ok none k => k.run tx
      | .ok (some x) k => ⟨.ok x, k⟩
      | .error t k => ⟨.error t, k⟩ := by
  have hs : step tx f = perform tx f.pc op (f.prepared op) := step_eq_perform hop hf hg
  unfold instruct
  cases hp : perform tx f.pc op (f.prepared op) with
  | error t k =>
    rw [bind_error hp]
    exact run_trap (hs.trans hp)
  | ok fl k =>
    rw [bind_ok hp]
    cases fl with
    | next => exact run_next (hs.trans hp)
    | halt x => exact run_halt (hs.trans hp)
    | enter m r =>
      cases hk : k.answered tx m r with
      | ok u j =>
        rw [Flow.complete_back hk]
        exact run_back (hs.trans hp) hk
      | error t j =>
        rw [Flow.complete_stuck hk]
        exact run_stuck (hs.trans hp) hk

theorem Frame.Turn.instruct (h : f.Turn tx k) : ∃ op, f.opcode? = some op ∧ f.Fits op ∧
    instruct tx f.pc op (f.prepared op) = .ok none k := by
  unfold Evm.instruct
  cases h with
  | next h =>
    obtain ⟨-, hn, -⟩ | ⟨op, hop, hf, -, hp⟩ := step_inv h
    · cases hn
    · exact ⟨op, hop, hf, bind_ok hp⟩
  | back h hk =>
    obtain ⟨-, hn, -⟩ | ⟨op, hop, hf, -, hp⟩ := step_inv h
    · cases hn
    · exact ⟨op, hop, hf, (bind_ok hp).trans (Flow.complete_back hk)⟩

end

section

variable {base : Array Word}

/-- What is left after the flow of an instruction is what the table says once the flow is complete.
Only instructions that put one word, the outcome, start a callee. -/
theorem brings_complete (tx : Tx) {pushes : Nat} {fl : Flow}
    (hroom : base.size + pushes ≤ Stack.limit) (hone : ∀ m r, fl = .enter m r → pushes = 1) :
    Brings (Frame.OnTop base) (fl.left pushes) (fun _ => pushes) (fl.complete tx) := by
  cases fl with
  | next | halt => exact brings_pure rfl
  | enter m r =>
    cases hone m r rfl
    exact brings_get.bind fun g => Brings.bind (brings_modify fun _ => rfl) fun _ =>
      (brings_finish hroom _ r).bind fun _ => brings_pure rfl

theorem brings_instruct (tx : Tx) (offset : Nat) (op : Opcode)
    (hroom : base.size + op.shape.pushes ≤ Stack.limit) :
    Brings (Frame.OnTop base) op.shape.pops (fun _ => op.shape.pushes) (instruct tx offset op) := by
  have hperform := brings_perform tx offset op hroom
  have hcomplete : ∀ {f g fl}, perform tx offset op f = .ok fl g →
      Brings (Frame.OnTop base) (fl.left op.shape.pushes) (fun _ => op.shape.pushes)
        (fl.complete tx) := by
    intro f g fl h
    refine brings_complete tx hroom fun m r hfl => ?_
    subst hfl
    obtain ⟨k, rfl, -⟩ | ⟨salted, rfl, -⟩ := perform_enter_inv h
    · cases k <;> rfl
    · cases salted <;> rfl
  constructor
  · intro f k _ hf h
    obtain ⟨fl, g, hp, h⟩ := bind_inv h
    exact (hcomplete hp).ok (hperform.ok hf hp) h
  · intro f k t hf h
    obtain h | ⟨fl, g, hp, h⟩ := bind_error_inv h
    · exact hperform.trap hf h
    · exact (hcomplete hp).trap (hperform.ok hf hp) h

end

/-! ## From the check to the claim of the table -/

/-- The words of the stack under its top `n`. -/
def Stack.under (s : Stack) (n : Nat) : Array Word := s.words.extract 0 (s.size - n)

theorem Stack.size_under (s : Stack) (n : Nat) : (s.under n).size = s.size - n := by
  unfold under size
  rw [Array.size_extract]
  omega

theorem Stack.getElem?_under {s : Stack} {n i : Nat} (hi : i < s.size - n) :
    (s.under n)[i]? = s.words[i]? := by
  unfold under
  rw [Array.getElem?_extract, Nat.zero_add, if_pos]
  unfold size at hi ⊢
  omega

theorem Stack.onTop_under {s : Stack} {n : Nat} (h : n ≤ s.size) : s.OnTop (s.under n) n where
  size := by
    rw [size_under]
    omega
  bottom i hi := by
    rw [size_under] at hi
    exact (getElem?_under hi).symm

section

variable {tx : Tx} {offset : Nat} {op : Opcode} {f k : Frame}

theorem Frame.Fits.brings_instruct (hf : f.Fits op) :
    Brings (Frame.OnTop (f.stack.under op.shape.pops)) op.shape.pops (fun _ => op.shape.pushes)
      (instruct tx offset op) :=
  Evm.brings_instruct tx offset op (by rw [Stack.size_under]; exact hf.2)

theorem Frame.Fits.ofStack_eq_false (hf : f.Fits op) {t : Trap}
    (h : instruct tx offset op f = .error t k) : t.ofStack = false :=
  hf.brings_instruct.trap (Stack.onTop_under hf.1) h

theorem Frame.Fits.onTop (hf : f.Fits op) {x : Option Halt}
    (h : instruct tx offset op f = .ok x k) :
    k.stack.OnTop (f.stack.under op.shape.pops) op.shape.pushes :=
  hf.brings_instruct.ok (Stack.onTop_under hf.1) h

theorem Frame.Fits.size_stack_le (hf : f.Fits op) {x : Option Halt}
    (h : instruct tx offset op f = .ok x k) : k.stack.size ≤ Stack.limit := by
  rw [(hf.onTop h).size, Stack.size_under]
  exact hf.2

end

/-- Where the check of the stack lets an instruction pass, the instruction does not trap for the
stack. If the frame goes on after it, callees that it started included, the stack has changed in
height as the table says, is within its limit, and has the words that the instruction does not take
in their places. -/
theorem instruction_keeps_shape (tx : Tx) (offset : Nat) (op : Opcode) (s : Stack) (f : Frame)
    (h : Stack.require op.shape.mnemonic op.shape.pops op.shape.pushes s = .ok () f.stack) :
    (∀ t k, instruct tx offset op f = .error t k → t.ofStack = false) ∧
    ∀ k, instruct tx offset op f = .ok none k →
      k.stack.size = f.stack.size - op.shape.pops + op.shape.pushes ∧
      k.stack.size ≤ Stack.limit ∧
      ∀ i < f.stack.size - op.shape.pops, k.stack.words[i]? = f.stack.words[i]? := by
  obtain ⟨hpops, hpushes, hstack⟩ := Stack.require_inv h
  have hf : f.Fits op := by
    unfold Frame.Fits
    rw [hstack]
    exact ⟨hpops, hpushes⟩
  refine ⟨fun t k hk => hf.ofStack_eq_false hk, fun k hk => ?_⟩
  have hontop := hf.onTop hk
  refine ⟨?_, hf.size_stack_le hk, fun i hi => ?_⟩
  · rw [hontop.size, Stack.size_under]
  · rw [hontop.bottom i (by rwa [Stack.size_under]), Stack.getElem?_under hi]

/-- A frame with a full stack of ones before a `STATICCALL` of the account at one, whose code
stops. -/
def crowded : Frame :=
  { Frame.start (.plainCall .zero .zero .empty 1000 .zero) (Bytes.ofList [0xfa])
      (View.ofWorld (.ofContract ⟨1, 0, 0⟩ .zero (Bytes.ofList [0x00]))) .empty with
    stack := ⟨Array.replicate 1024 .one, ""⟩ }

theorem crowded_goes_on : (crowded.turn? ⟨.standard, .zero⟩ (Frame.run? ⟨.standard, .zero⟩ 4)).any
    (·.isRight) = true := by
  decide +kernel

/-- The call of a frame without room for another word: six words make place for one. -/
theorem instruction_keeps_shape_crowded :
    let op : Opcode := .call .staticCall
    Stack.require op.shape.mnemonic op.shape.pops op.shape.pushes crowded.stack =
      .ok () (crowded.prepared op).stack ∧
    ∃ k, instruct ⟨.standard, .zero⟩ 0 op (crowded.prepared op) = .ok none k ∧
      k.stack.size = 1019 ∧ k.stack.words[1017]? = some .one := by
  have hsize : (crowded.prepared (.call .staticCall)).stack.size = 1024 := Array.size_replicate
  have hreq : Stack.require "STATICCALL" 6 1 crowded.stack =
      .ok () (crowded.prepared (.call .staticCall)).stack :=
    Stack.require_ok (Nat.le_trans (by decide) (Nat.le_of_eq hsize.symm))
      (Nat.le_trans (Nat.le_of_eq (congrArg (· - 6 + 1) hsize)) (by decide))
  obtain ⟨x, hx, hright⟩ := (Option.any_eq_true _ _).1 crowded_goes_on
  obtain ⟨k, rfl⟩ := Sum.isRight_iff.1 hright
  obtain ⟨op, hop, -, hk⟩ :=
    Frame.Turn.instruct (Frame.turn_of_turn? (fun _ _ => Frame.run_of_run?) hx)
  obtain rfl : .call .staticCall = op := Option.some.inj (Eq.trans (by decide) hop)
  obtain ⟨-, hgoes⟩ := instruction_keeps_shape ⟨.standard, .zero⟩ 0 (.call .staticCall)
    crowded.stack (crowded.prepared (.call .staticCall)) hreq
  obtain ⟨hheight, -, hbottom⟩ := hgoes k hk
  rw [hsize] at hheight hbottom
  exact ⟨hreq, k, hk, hheight, (hbottom 1017 (by decide)).trans
    (Array.getElem?_replicate.trans (if_pos (by decide)))⟩

/-! ## Whole runs -/

section

variable {tx : Tx} {m : Message} {v : View} {p : Profile} {f h : Frame}

theorem Frame.Turn.size_stack_le {k : Frame} (h : f.Turn tx k) : k.stack.size ≤ Stack.limit := by
  obtain ⟨op, -, hf, hk⟩ := h.instruct
  exact Frame.Fits.size_stack_le (f := f.prepared op) hf hk

/-- The stack of a frame is empty at first and never outgrows its limit. -/
theorem Message.Visits.size_stack_le (hv : m.Visits tx v p f) : f.stack.size ≤ Stack.limit := by
  have started : ∀ {m : Message} {v p c}, m.enter v p = .running c →
      c.stack.size ≤ Stack.limit := by
    intro m v p c hc
    cases Message.opens_of hc <;> exact Nat.zero_le _
  obtain ⟨c, hc, hr⟩ := hv
  exact hr.keeps (I := fun f => f.stack.size ≤ Stack.limit) (fun _ ht => ht.size_stack_le)
    (fun _ _ hc => started hc) (started hc)

/-- Once the check of the stack lets an instruction pass, only its static gas is left to trap. -/
theorem Frame.Fits.prepare_trap {op : Opcode} (hf : f.Fits op) {offset : Nat} {t : Trap}
    (ht : prepare op offset f = .error t h) : t.ofStack = false := by
  obtain hs | ⟨_, g, -, hg⟩ := bind_error_inv ht
  · rw [onStack_ok (Stack.require_ok hf.1 hf.2)] at hs
    cases hs
  · have hpay : Brings (Frame.OnTop (g.stack.under 0)) 0 (fun _ => 0)
        (charge .opcodeBase op.shape.gas >>= fun _ => setPc (offset + 1)) :=
      (brings_charge _ _).bind fun _ => brings_setPc _
    exact hpay.trap (Stack.onTop_under (Nat.zero_le _)) hg

theorem step_trap_ofStack {t : Trap} (ht : step tx f = .error t h) (hs : t.ofStack = true) :
    ∃ op, f.opcode? = some op ∧ ¬ f.Fits op := by
  obtain ⟨-, _, rfl⟩ | ⟨op, hop, hp | ⟨hf, -, hp⟩⟩ := step_trap_inv ht
  · cases hs
  · refine ⟨op, hop, fun hf => ?_⟩
    rw [hf.prepare_trap hp] at hs
    cases hs
  · rw [Frame.Fits.ofStack_eq_false (f := f.prepared op) hf (bind_error hp)] at hs
    cases hs

/-- A run that traps for its stack comes to an instruction that the check refuses. -/
theorem run_trap_ofStack (tx : Tx) (f : Frame) : ∀ t, (f.run tx).halt = .error t →
    t.ofStack = true → ∃ g op, f.Reaches tx g ∧ g.opcode? = some op ∧ ¬ g.Fits op := by
  refine f.run_induction tx (motive := fun f e => ∀ t, e.halt = .error t → t.ofStack = true →
    ∃ g op, f.Reaches tx g ∧ g.opcode? = some op ∧ ¬ g.Fits op) ?trap ?halt ?next ?back ?stuck
  case trap =>
    intro f g t h _ he hs
    cases he
    obtain ⟨op, hop, hf⟩ := step_trap_ofStack h hs
    exact ⟨f, op, .refl f, hop, hf⟩
  case halt =>
    intro f g x h t he
    cases he
  case next =>
    intro f g h ih t he hs
    obtain ⟨d, op, hr, hd⟩ := ih t he hs
    exact ⟨d, op, .turn (.next h) hr, hd⟩
  case back =>
    intro f g k m r h _ hk ih t he hs
    obtain ⟨d, op, hr, hd⟩ := ih t he hs
    exact ⟨d, op, .turn (.back h hk) hr, hd⟩
  case stuck =>
    -- the instruction that sent the message passed the check
    intro f g k m r t h _ hk _ he hs
    cases he
    obtain ⟨-, hn, -⟩ | ⟨op, -, hf, -, hp⟩ := step_inv h
    · cases hn
    · have hi : instruct tx f.pc op (f.prepared op) = .error t k :=
        (bind_ok hp).trans (Flow.complete_stuck hk)
      rw [Frame.Fits.ofStack_eq_false (f := f.prepared op) hf hi] at hs
      cases hs

end

end ParticleChain.Evm
