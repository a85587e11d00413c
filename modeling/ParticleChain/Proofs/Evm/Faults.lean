import ParticleChain.Proofs.Evm.Calls
import ParticleChain.Proofs.Evm.Checked
import ParticleChain.Proofs.Word.Powers

/-!
# No instruction faults

Instructions read and write memory only where they have grown it before, and the numbers they
compute fit into 64 bits: `faultless_step` says that no instruction comes to the trap `fault`, if
the gas of its frame fits and its code is shorter than `lengthLimit`. The range that the output of
a callee goes to is grown before the callee runs, and so the frame has it when the report comes
(`faultless_answered`). A run whose instructions do not fault does not end by a fault
(`run_ne_fault`).
-/

namespace ParticleChain.Evm

open Exec

/-! ## Actions that do not fault -/

/-- The action does not fault where it starts. -/
def Faultless {σ α : Type} (x : EStateM Trap σ α) (s : σ) : Prop := ∀ t, x s ≠ .error .fault t

section

variable {σ α β : Type}

theorem Faultless.bind {x : EStateM Trap σ α} {k : α → EStateM Trap σ β} {s : σ}
    (hx : Faultless x s) (hk : ∀ a t, x s = .ok a t → Faultless (k a) t) :
    Faultless (x >>= k) s := by
  intro u h
  cases hs : x s with
  | error e t =>
    rw [bind_error hs] at h
    cases h
    exact hx u hs
  | ok a t =>
    rw [bind_ok hs] at h
    exact hk a t hs u h

theorem faultless_of_ok {x : EStateM Trap σ α} {s t : σ} {a : α} (h : x s = .ok a t) :
    Faultless x s := fun _ he => nomatch h.symm.trans he

theorem faultless_pure (a : α) (s : σ) : Faultless (pure a) s := fun _ h => nomatch h

theorem faultless_get (s : σ) : Faultless get s := fun _ h => nomatch h

theorem faultless_modify (g : σ → σ) (s : σ) : Faultless (modify g) s := fun _ h => nomatch h

theorem faultless_throw {e : Trap} (he : e ≠ .fault) (s : σ) :
    Faultless (throw e : EStateM Trap σ α) s := fun _ h => by
  cases h
  exact he rfl

end

namespace Stack

theorem faultless_push (w : Word) (s : Stack) : Faultless (push w) s := by
  intro t h
  unfold push at h
  split at h <;> cases h

theorem faultless_pop (s : Stack) : Faultless pop s := by
  intro t h
  unfold pop underflow at h
  split at h <;> cases h

theorem faultless_need (n : Nat) (s : Stack) : Faultless (need n) s := by
  intro t h
  unfold need underflow at h
  split at h <;> cases h

theorem faultless_pop2 (s : Stack) : Faultless pop2 s :=
  (faultless_need 2 s).bind fun _ s _ => (faultless_pop s).bind fun _ s _ =>
    (faultless_pop s).bind fun _ s _ => faultless_pure _ s

theorem faultless_pop3 (s : Stack) : Faultless pop3 s :=
  (faultless_need 3 s).bind fun _ s _ => (faultless_pop s).bind fun _ s _ =>
    (faultless_pop s).bind fun _ s _ => (faultless_pop s).bind fun _ s _ => faultless_pure _ s

theorem faultless_pop4 (s : Stack) : Faultless pop4 s :=
  (faultless_need 4 s).bind fun _ s _ => (faultless_pop s).bind fun _ s _ =>
    (faultless_pop s).bind fun _ s _ => (faultless_pop s).bind fun _ s _ =>
    (faultless_pop s).bind fun _ s _ => faultless_pure _ s

theorem faultless_dup (n : Nat) (s : Stack) : Faultless (dup n) s := by
  intro t h
  unfold dup at h
  split at h
  · cases h
  · split at h
    · exact faultless_push _ s t h
    · cases h

theorem faultless_swap (n : Nat) (s : Stack) : Faultless (swap n) s := by
  intro t h
  unfold swap underflow at h
  split at h <;> cases h

theorem faultless_require (name : String) (pops pushes : Nat) (s : Stack) :
    Faultless (require name pops pushes) s := by
  intro t h
  unfold require at h
  dsimp only at h
  split at h
  · cases h
  · split at h <;> cases h

end Stack

namespace Exec

variable {α : Type} {f : Frame}

theorem faultless_onStack {x : StackM α} (h : ∀ s, Faultless x s) (f : Frame) :
    Faultless (onStack x) f := by
  intro g hg
  unfold onStack at hg
  dsimp only at hg
  split at hg
  · cases hg
  · rename_i hx
    cases hg
    exact h _ _ hx

theorem faultless_push (w : Word) (f : Frame) : Faultless (push w) f :=
  faultless_onStack (Stack.faultless_push w) f

theorem faultless_pop (f : Frame) : Faultless pop f := faultless_onStack Stack.faultless_pop f

theorem faultless_pop2 (f : Frame) : Faultless pop2 f := faultless_onStack Stack.faultless_pop2 f

theorem faultless_pop3 (f : Frame) : Faultless pop3 f := faultless_onStack Stack.faultless_pop3 f

theorem faultless_pop4 (f : Frame) : Faultless pop4 f := faultless_onStack Stack.faultless_pop4 f

theorem faultless_ensure {t : Trap} (ht : t ≠ .fault) (b : Bool) (f : Frame) :
    Faultless (ensure b t) f := by
  unfold ensure
  split
  · exact faultless_pure () f
  · exact faultless_throw ht f

theorem faultless_bounded {n : Nat} (h : n ≤ maxAmount) (f : Frame) : Faultless (bounded n) f := by
  unfold bounded
  rw [if_pos h]
  exact faultless_pure n f

theorem faultless_spend (n : Nat) (f : Frame) : Faultless (spend n) f := by
  intro g h
  unfold spend onMeter Meter.charge at h
  by_cases hn : f.gas.covers n <;> simp only [hn] at h <;> cases h

theorem faultless_charge (c : Category) (n : Nat) (f : Frame) : Faultless (charge c n) f :=
  (faultless_spend n f).bind fun _ g _ => faultless_modify _ g

theorem faultless_gasLeft (f : Frame) : Faultless gasLeft f := faultless_of_ok (a := f.gasLeft) rfl

/-- Operands are checked by `Memory.range` before anything is computed from them. -/
theorem faultless_touch (a b : Word) (f : Frame) : Faultless (touch a b) f := by
  unfold touch
  split
  · rename_i t ht
    rw [Memory.eq_of_range_error ht]
    exact faultless_throw Trap.noConfusion f
  · exact faultless_pure _ f
  · rename_i o n hr
    have hle : o + n ≤ maxAmount := Nat.le_trans (Memory.le_limit_of_range hr) (by decide)
    exact (faultless_bounded hle f).bind fun _ f _ => (faultless_get f).bind fun _ f _ =>
      (faultless_charge _ _ f).bind fun _ f _ => (faultless_modify _ f).bind fun _ f _ =>
      faultless_pure _ f

theorem faultless_readMemory {o n : Nat} (h : o + n ≤ f.memory.size) :
    Faultless (readMemory o n) f :=
  faultless_of_ok <| (bind_ok rfl).trans <| (bind_ok (ensure_ok .fault (decide_eq_true h) f)).trans
    (bind_ok rfl)

theorem faultless_loadWord {o : Nat} (h : o + 32 ≤ f.memory.size) : Faultless (loadWord o) f :=
  faultless_of_ok <| (bind_ok rfl).trans <| (bind_ok (ensure_ok .fault (decide_eq_true h) f)).trans
    (bind_ok rfl)

theorem faultless_writeMemory {o : Nat} {b : ByteArray} (h : o + b.size ≤ f.memory.size) :
    Faultless (writeMemory o b) f := faultless_of_ok (writeMemory_ok h)

/-- A range that was touched lies within the memory. -/
theorem le_size_of_touch {a b : Word} {o n : Nat} {g : Frame}
    (h : touch a b f = .ok (some (o, n)) g) : o + n ≤ g.memory.size := by
  obtain ⟨-, rfl⟩ := touch_inv h
  exact f.memory.le_size_grow o n

theorem faultless_memorySlice (a b : Word) (f : Frame) : Faultless (memorySlice a b) f := by
  refine (faultless_touch a b f).bind fun r g h => ?_
  cases r with
  | none => exact faultless_pure _ g
  | some r => exact faultless_readMemory (le_size_of_touch h)

end Exec

theorem Memory.size_excerpt (source : ByteArray) (start : Word) (n : Nat) :
    (excerpt source start n).size = n := by
  unfold excerpt
  split
  · exact Bytes.size_window _ _ _
  · exact Bytes.size_zeros _

/-- A price per word, at most ten, that is paid for a range of memory comes to an amount. -/
theorem wordCost_le {n c : Nat} (hn : n ≤ Memory.limit) (hc : c ≤ 10) :
    c * wordCount n ≤ maxAmount := by
  have hlimit : Memory.limit = 2 ^ 32 := rfl
  have hmax : maxAmount = 2 ^ 64 - 1 := rfl
  have hwords : wordCount n ≤ 2 ^ 32 := by
    unfold wordCount
    omega
  have := Nat.mul_le_mul hc hwords
  omega

theorem Exec.faultless_copyToMemory (d n : Word) (b : ByteArray) (s : Word) (f : Frame) :
    Faultless (copyToMemory d n b s) f := by
  refine (faultless_touch d n f).bind fun r g h => ?_
  rcases r with _ | ⟨o, k⟩
  · exact faultless_pure _ g
  · have hk : k ≤ Memory.limit :=
      Nat.le_trans (Nat.le_add_left k o) (Memory.le_limit_of_range (touch_inv h).1)
    have hsize := le_size_of_touch h
    refine (faultless_bounded (wordCost_le hk (by decide)) g).bind fun c g' hb => ?_
    obtain ⟨-, rfl, rfl⟩ := bounded_inv hb
    refine (faultless_charge _ _ g).bind fun _ g' hc => ?_
    obtain ⟨-, rfl⟩ := charge_inv hc
    refine faultless_writeMemory ?_
    rw [Memory.size_excerpt]
    exact hsize

theorem Exec.faultless_jump (t : Word) (f : Frame) : Faultless (jump t) f := by
  unfold jump
  split
  · exact faultless_throw Trap.noConfusion f
  · exact (faultless_get f).bind fun _ f _ => (faultless_ensure Trap.noConfusion _ f).bind
      fun _ f _ => faultless_modify _ f

theorem Exec.faultless_requireMutable (s : String) (f : Frame) : Faultless (requireMutable s) f :=
  (faultless_get f).bind fun _ f _ => faultless_ensure Trap.noConfusion _ f

/-! ## Instructions -/

theorem faultless_proceed {x : Exec Unit} {f : Frame} (h : Faultless x f) :
    Faultless (proceed x) f := h.bind fun _ g _ => faultless_pure _ g

theorem faultless_copyFrom (s : CopySource) (f : Frame) : Faultless (copyFrom s) f := by
  cases s with
  | returnData =>
    exact (faultless_pop3 f).bind fun _ f _ => (faultless_get f).bind fun _ f _ =>
      (faultless_get f).bind fun _ f _ => (faultless_ensure Trap.noConfusion _ f).bind fun _ f _ =>
      (faultless_get f).bind fun _ f _ => faultless_copyToMemory _ _ _ _ f
  | callData | code =>
    exact (faultless_pop3 f).bind fun _ f _ => (faultless_get f).bind fun _ f _ =>
      faultless_copyToMemory _ _ _ _ f
  | accountCode =>
    exact (faultless_pop4 f).bind fun _ f _ => (faultless_get f).bind fun _ f _ =>
      faultless_copyToMemory _ _ _ _ f

theorem faultless_writeSlot (f : Frame) : Faultless writeSlot f :=
  (faultless_requireMutable _ f).bind fun _ f _ => (faultless_gasLeft f).bind fun _ f _ =>
    (faultless_ensure Trap.noConfusion _ f).bind fun _ f _ => (faultless_pop2 f).bind fun _ f _ =>
    (faultless_get f).bind fun _ f _ => (faultless_charge _ _ f).bind fun _ f _ =>
    faultless_modify _ f

theorem faultless_popTopics (n : Nat) (f : Frame) : Faultless (popTopics n) f := by
  induction n generalizing f with
  | zero => exact faultless_pure _ f
  | succ n ih =>
    exact (faultless_pop f).bind fun _ f _ => (ih f).bind fun _ f _ => faultless_pure _ f

theorem faultless_emitLog (n : Fin 5) (f : Frame) : Faultless (emitLog n) f := by
  refine (faultless_requireMutable _ f).bind fun _ f _ => (faultless_pop2 f).bind fun _ f _ =>
    (faultless_popTopics _ f).bind fun _ f _ => (faultless_memorySlice _ _ f).bind fun data f h =>
    Faultless.bind (faultless_bounded ?_ f) fun _ f _ => (faultless_charge _ _ f).bind fun _ f _ =>
    faultless_modify _ f
  have hsize := size_memorySlice h
  have hcost : Price.logByte * Memory.limit ≤ maxAmount := by decide
  exact Nat.le_trans (Nat.mul_le_mul_left _ hsize) hcost

theorem faultless_popEntry (salted : Bool) (f : Frame) : Faultless (popEntry salted) f := by
  cases salted with
  | false => exact faultless_pure _ f
  | true => exact (faultless_pop f).bind fun _ f _ => faultless_pure _ f

theorem faultless_startCreate (salted : Bool) (f : Frame) : Faultless (startCreate salted) f := by
  refine (faultless_requireMutable _ f).bind fun _ f _ => (faultless_pop3 f).bind fun _ f _ =>
    (faultless_popEntry salted f).bind fun _ f _ => (faultless_memorySlice _ _ f).bind
    fun init f h => (faultless_ensure Trap.noConfusion _ f).bind fun _ f _ =>
    (faultless_bounded (wordCost_le (size_memorySlice h) (by decide)) f).bind fun _ f _ =>
    (faultless_charge _ _ f).bind fun _ f _ => Faultless.bind (faultless_bounded ?_ f) fun _ f _ =>
    (faultless_charge _ _ f).bind fun _ f _ => (faultless_gasLeft f).bind fun _ f _ =>
    (faultless_spend _ f).bind fun _ f _ => (faultless_get f).bind fun _ f _ => faultless_pure _ f
  split
  · exact wordCost_le (size_memorySlice h) (by decide)
  · exact Nat.zero_le _

theorem faultless_popValue (k : CallKind) (f : Frame) : Faultless (popValue k) f := by
  cases k with
  | call | callCode => exact faultless_pop f
  | delegateCall | staticCall => exact faultless_pure _ f

theorem frugal_popValue (k : CallKind) : Frugal (popValue k) := by
  cases k with
  | call | callCode => exact frugal_onStack _
  | delegateCall | staticCall => exact .pure

/-- A first step that adds no gas, in an action whose gas is bounded. -/
theorem Faultless.bind_frugal {α β : Type} {x : Exec α} {k : α → Exec β} {f : Frame} {n : Nat}
    (hx : Faultless x f) (hg : Frugal x) (hf : f.gasLeft ≤ n)
    (hk : ∀ a g, g.gasLeft ≤ n → Faultless (k a) g) : Faultless (x >>= k) f :=
  hx.bind fun a g h => hk a g <| by
    have := hg f
    rw [h] at this
    exact Nat.le_trans this hf

/-- The stipend of a call is part of its surcharge, so the callee gets no more gas than the frame
has before it pays for the call. -/
theorem faultless_startCall (k : CallKind) {f : Frame} (hf : f.gasLeft ≤ maxAmount) :
    Faultless (startCall k) f := by
  refine (faultless_pop f).bind_frugal (frugal_onStack _) hf fun requested f hf =>
    (faultless_pop f).bind_frugal (frugal_onStack _) hf fun callee f hf =>
    (faultless_popValue k f).bind_frugal (frugal_popValue k) hf fun value f hf =>
    (faultless_pop4 f).bind_frugal (frugal_onStack _) hf fun _ f hf =>
    (faultless_get f).bind_frugal .get hf fun _ f hf =>
    (faultless_ensure Trap.noConfusion _ f).bind_frugal (frugal_ensure _ _) hf fun _ f hf =>
    (faultless_memorySlice _ _ f).bind_frugal (frugal_memorySlice _ _) hf fun _ f hf =>
    (faultless_touch _ _ f).bind_frugal (frugal_touch _ _) hf fun _ f hf =>
    (faultless_get f).bind_frugal .get hf fun v f hf =>
    (faultless_charge _ _ f).bind fun _ g hc => ?_
  obtain ⟨hpaid, rfl⟩ := charge_inv hc
  refine (faultless_gasLeft _).bind fun left g hl => ?_
  obtain ⟨hleft, rfl⟩ := gasLeft_inv hl
  refine (faultless_spend _ _).bind fun _ g _ => Faultless.bind (faultless_bounded ?_ g)
    fun _ g _ => (faultless_get g).bind fun _ g _ => faultless_pure _ g
  have hsplit : left = f.gasLeft - callSurcharge v.view k (.ofWord callee) value := hleft.symm
  have hstipend := stipend_le_surcharge v.view k (.ofWord callee) value
  have hforward := Nat.min_le_right (requested.size?.getD (allButOne64th left)) (allButOne64th left)
  have hshare : allButOne64th left ≤ left := Nat.sub_le _ _
  omega

/-! ### Numbers of the other instructions -/

/-- An instruction does not fault, if the gas of its frame fits into 64 bits and its program
counter is within `lengthLimit`. -/
theorem faultless_perform (tx : Tx) (offset : Nat) (op : Opcode) {f : Frame}
    (hgas : f.gasLeft ≤ maxAmount) (hpc : f.pc ≤ lengthLimit) :
    Faultless (perform tx offset op) f := by
  cases op with
  | stop | jumpDest => exact faultless_pure _ f
  | invalid => exact faultless_throw Trap.noConfusion f
  | binary =>
    exact faultless_proceed ((faultless_pop2 f).bind fun _ f _ => faultless_push _ f)
  | isZero | not | blockHash =>
    exact faultless_proceed ((faultless_pop f).bind fun _ f _ => faultless_push _ f)
  | addMod | mulMod =>
    exact faultless_proceed ((faultless_pop3 f).bind fun _ f _ => faultless_push _ f)
  | exp =>
    refine faultless_proceed ((faultless_pop2 f).bind fun a f _ =>
      Faultless.bind (faultless_bounded ?_ f) fun _ f _ => (faultless_charge _ _ f).bind
      fun _ f _ => faultless_push _ f)
    exact Nat.le_trans (Nat.mul_le_mul_left _ a.2.byteLength_le) (by decide)
  | keccak =>
    exact faultless_proceed ((faultless_pop2 f).bind fun _ f _ =>
      (faultless_memorySlice _ _ f).bind fun data f h =>
      (faultless_bounded (wordCost_le (size_memorySlice h) (by decide)) f).bind fun _ f _ =>
      (faultless_charge _ _ f).bind fun _ f _ => faultless_push _ f)
  | query => exact faultless_proceed ((faultless_get f).bind fun _ f _ => faultless_push _ f)
  | account | callDataLoad | sload =>
    exact faultless_proceed ((faultless_pop f).bind fun _ f _ => (faultless_get f).bind
      fun _ f _ => faultless_push _ f)
  | copy s => exact faultless_proceed (faultless_copyFrom s f)
  | pop => exact faultless_proceed ((faultless_pop f).bind fun _ f _ => faultless_pure _ f)
  | mload =>
    refine faultless_proceed ((faultless_pop f).bind fun _ f _ =>
      (faultless_touch _ _ f).bind fun r f h => ?_)
    rcases r with _ | ⟨o, n⟩
    · exact faultless_push _ f
    · cases (Memory.range_inv (touch_inv h).1).2.1
      exact (faultless_loadWord (le_size_of_touch h)).bind fun _ f _ => faultless_push _ f
  | mstore =>
    refine faultless_proceed ((faultless_pop2 f).bind fun _ f _ =>
      (faultless_touch _ _ f).bind fun r f h => ?_)
    rcases r with _ | ⟨o, n⟩
    · exact faultless_pure _ f
    · cases (Memory.range_inv (touch_inv h).1).2.1
      refine faultless_writeMemory ?_
      rw [Word.size_toBytes]
      exact le_size_of_touch h
  | mstore8 =>
    refine faultless_proceed ((faultless_pop2 f).bind fun _ f _ =>
      (faultless_touch _ _ f).bind fun r f h => ?_)
    rcases r with _ | ⟨o, n⟩
    · exact faultless_pure _ f
    · cases (Memory.range_inv (touch_inv h).1).2.1
      exact faultless_writeMemory (le_size_of_touch h)
  | sstore => exact faultless_proceed (faultless_writeSlot f)
  | log n => exact faultless_proceed (faultless_emitLog n f)
  | selfDestruct =>
    exact (faultless_requireMutable _ f).bind fun _ f _ => (faultless_pop f).bind fun _ f _ =>
      (faultless_get f).bind fun _ f _ => (faultless_get f).bind fun _ f _ =>
      (faultless_charge _ _ f).bind fun _ f _ => (faultless_modify _ f).bind fun _ f _ =>
      faultless_pure _ f
  | jump => exact faultless_proceed ((faultless_pop f).bind fun _ f _ => faultless_jump _ f)
  | jumpIf =>
    refine faultless_proceed ((faultless_pop2 f).bind fun _ f _ => ?_)
    dsimp only
    split
    · exact faultless_pure _ f
    · exact faultless_jump _ f
  | push n =>
    refine faultless_proceed ((faultless_get f).bind fun g f' h => ?_)
    obtain ⟨rfl, rfl⟩ := get_inv h
    refine (faultless_get f).bind fun _ g _ => (faultless_push _ g).bind fun _ g _ =>
      Faultless.bind (faultless_bounded ?_ g) fun _ g _ => faultless_modify _ g
    have hn := n.isLt
    have hlimit : lengthLimit = 2 ^ 48 := rfl
    have hmax : maxAmount = 2 ^ 64 - 1 := rfl
    omega
  | dup n => exact faultless_proceed (faultless_onStack (Stack.faultless_dup _) f)
  | swap n => exact faultless_proceed (faultless_onStack (Stack.faultless_swap _) f)
  | create | create2 => exact faultless_startCreate _ f
  | call k => exact faultless_startCall k hgas
  | ret | revert =>
    exact (faultless_pop2 f).bind fun _ f _ => (faultless_memorySlice _ _ f).bind fun _ f _ =>
      faultless_pure _ f

theorem faultless_prepare (op : Opcode) (offset : Nat) (f : Frame) :
    Faultless (prepare op offset) f :=
  (faultless_onStack (Stack.faultless_require _ _ _) f).bind fun _ f _ =>
    (faultless_charge _ _ f).bind fun _ f _ => faultless_modify _ f

theorem faultless_step (tx : Tx) {f : Frame} (hgas : f.gasLeft ≤ maxAmount)
    (hcode : f.code.size < lengthLimit) : Faultless (step tx) f := by
  refine (faultless_get f).bind fun _ g h => ?_
  obtain ⟨rfl, rfl⟩ := get_inv h
  refine (faultless_get f).bind fun _ g h => ?_
  obtain ⟨rfl, rfl⟩ := get_inv h
  dsimp only
  split
  · rename_i hpc
    split
    · exact faultless_throw Trap.noConfusion f
    · refine (faultless_prepare _ _ f).bind fun _ g h => ?_
      obtain ⟨-, -, rfl⟩ := prepare_inv h
      exact faultless_perform tx _ _ (Nat.le_trans (Nat.sub_le _ _) hgas)
        (Nat.le_of_lt (Nat.lt_of_le_of_lt hpc hcode))
  · exact faultless_pure _ f

/-! ## Reports and deposits -/

theorem faultless_finish {r : Resume} {f : Frame} (o : Outcome)
    (h : ∀ out, r = .call out → Memory.Holds f.memory.size out) : Faultless (r.finish o) f := by
  cases r with
  | create => exact (faultless_modify _ f).bind fun _ f _ => faultless_push _ f
  | call out =>
    refine (faultless_modify _ f).bind fun _ g hg => ?_
    cases hg
    exact (faultless_of_ok (storeOutput_ok (f := f.takeBack o) o.output (h out rfl))).bind
      fun _ g _ => faultless_push _ g

/-- The range that the output goes to was touched by the call. -/
theorem faultless_answered {tx : Tx} {f g k : Frame} {m : Message} {r : Resume}
    (h : step tx f = .ok (.enter m r) g) : g.answered tx m r ≠ .error .fault k := by
  refine faultless_finish _ (fun out hr => ?_) k
  subst hr
  obtain ⟨op, -, -, ⟨k, -, h⟩ | ⟨salted, -, h⟩⟩ := enter_inv h
  · obtain ⟨a, ws, i, o, input, gas, hc⟩ := startCall_inv h
    cases hc.flow
    change Memory.Holds g.memory.size out
    rw [hc.memory]
    exact Memory.holds_cover _ out
  · obtain ⟨-, _, _, _, _, -, -, hfl⟩ := startCreate_inv h
    cases hfl

theorem faultless_deposit (code : ByteArray) (f : Frame) : Faultless (deposit code) f := by
  refine (faultless_ensure Trap.noConfusion _ f).bind fun _ f h => ?_
  obtain ⟨hs, -⟩ := ensure_inv h
  have hcost : Price.codeByte * code.size ≤ maxAmount :=
    Nat.le_trans (Nat.mul_le_mul_left _ (of_decide_eq_true hs)) (by decide)
  exact (faultless_ensure Trap.noConfusion _ f).bind fun _ f _ =>
    (faultless_bounded hcost f).bind fun _ f _ => (faultless_charge _ _ f).bind fun _ f _ =>
    (faultless_get f).bind fun _ f _ => faultless_modify _ f

/-! ## The end of a run -/

/-- A run whose instructions do not fault does not end by a fault. -/
theorem run_ne_fault (tx : Tx) (f : Frame) :
    (∀ g, f.Reaches tx g → Faultless (step tx) g) → (f.run tx).halt ≠ .error .fault := by
  refine f.run_induction tx
    (motive := fun f e => (∀ g, f.Reaches tx g → Faultless (step tx) g) → e.halt ≠ .error .fault)
    ?trap ?halt ?next ?back ?stuck
  case trap =>
    intro f g t h hf he
    cases he
    exact hf f (.refl f) g h
  case halt =>
    intro f g x h hf he
    cases he
  case next =>
    intro f g h ih hf
    exact ih fun k hk => hf k (.turn (.next h) hk)
  case back =>
    intro f g k m r h _ hk ih hf
    exact ih fun d hd => hf d (.turn (.back h hk) hd)
  case stuck =>
    intro f g k m r t h _ hk hf he
    cases he
    exact faultless_answered h hk

namespace Ended

variable {e : Ended}

theorem settle_ne_fault (h : e.halt ≠ .error .fault) : e.settle.halt ≠ .error .fault := by
  unfold settle
  split
  · rename_i code _ _
    split
    · exact nofun
    · rename_i t f hd
      intro he
      cases he
      exact faultless_deposit code e.frame f hd
  · exact h

theorem outcome_ne_fault (h : e.halt ≠ .error .fault) : e.outcome.status ≠ .failed .fault := by
  unfold outcome
  dsimp only
  split
  · exact nofun
  · exact nofun
  · exact nofun
  · rename_i t ht
    intro he
    cases he
    exact h ht

end Ended

/-- A message whose frames do not fault is not answered by a fault. -/
theorem execute_ne_fault {tx : Tx} {m : Message} {v : View} {p : Profile}
    (h : ∀ f, m.Visits tx v p f → Faultless (step tx) f) :
    (execute tx m v p).outcome.status ≠ .failed .fault := by
  cases hm : m.enter v p with
  | answered o w =>
    rw [execute_answered hm]
    cases Message.opens_of hm with
    | turnedDown t gas hg hd ht => exact fun he => ht (Status.failed.inj he)
    | collision | noCode => exact nofun
  | running c =>
    rw [execute_running hm]
    exact Ended.outcome_ne_fault <| Ended.settle_ne_fault <|
      run_ne_fault tx c fun f hf => h f ⟨c, hm, hf⟩

end ParticleChain.Evm
