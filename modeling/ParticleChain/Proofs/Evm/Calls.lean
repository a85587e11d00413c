import ParticleChain.Proofs.Evm.MemoryBytes
import ParticleChain.Proofs.Evm.Runs

/-!
# The instructions that send a message

Calls and creations are the only ones (`enter_inv`). A call that goes through has found its
operands on the stack (`CallOperands`) and has grown the memory over the ranges of its input and
its output (`startCall_inv`). So the frame can always take up what the callee reports
(`finish_call`). Up to where they hand on gas, calls and creations keep what other instructions keep
(`startCall_forwards`, `startCreate_forwards`).
-/

namespace ParticleChain.Evm

open Exec

/-- Whether the call takes a value from the stack. -/
def CallKind.takesValue : CallKind → Bool
  | .call | .callCode => true
  | .delegateCall | .staticCall => false

/-- The operands of a call in the order in which it takes them. The value is zero if it takes
none. -/
structure CallOperands where
  requested : Word
  callee : Word
  value : Word
  inOffset : Word
  inLength : Word
  outOffset : Word
  outLength : Word

/-- The words of a stack with the operands on top. -/
def CallOperands.pushOn (a : CallOperands) (k : CallKind) (ws : Array Word) : Array Word :=
  let ws := (((ws.push a.outLength).push a.outOffset).push a.inLength).push a.inOffset
  ((if k.takesValue then ws.push a.value else ws).push a.callee).push a.requested

theorem CallOperands.size_pushOn (a : CallOperands) (k : CallKind) (ws : Array Word) :
    (a.pushOn k ws).size = ws.size + (Opcode.call k).shape.pops := by
  cases k <;> simp [pushOn, CallKind.takesValue, Opcode.shape]

section

variable {f g : Frame} {k : CallKind} {fl : Flow}

theorem Frame.memory_touched (f : Frame) (r : Option (Nat × Nat)) :
    (f.touched r).memory = f.memory.cover r := by
  cases r <;> rfl

theorem Frame.stack_touched (f : Frame) (r : Option (Nat × Nat)) :
    (f.touched r).stack = f.stack := by
  cases r <;> rfl

theorem Frame.pc_touched (f : Frame) (r : Option (Nat × Nat)) : (f.touched r).pc = f.pc := by
  cases r <;> rfl

theorem popValue_inv {w : Word} (h : popValue k f = .ok w g) :
    ∃ ws, f.stack.words = (if k.takesValue then ws.push w else ws) ∧
      (k.takesValue = false → w = .zero) ∧ g = f.withWords ws := by
  cases k with
  | call | callCode =>
    obtain ⟨ws, hw, rfl⟩ := Exec.pop_inv h
    exact ⟨ws, hw, (fun h => nomatch h), rfl⟩
  | delegateCall | staticCall =>
    obtain ⟨rfl, rfl⟩ := pure_inv h
    exact ⟨f.stack.words, rfl, fun _ => rfl, rfl⟩

/-- A call that goes through: its operands `a` over the words `ws`, the ranges `i` and `o` of its
input and its output, and the message it sends. -/
structure Frame.Calls (f g : Frame) (k : CallKind) (a : CallOperands) (ws : Array Word)
    (i o : Option (Nat × Nat)) (input : ByteArray) (gas : Nat) (fl : Flow) : Prop where
  words : f.stack.words = a.pushOn k ws
  value : k.takesValue = false → a.value = .zero
  mutable : k = .call → f.message.isStatic = true → a.value.isZero = true
  inRange : Memory.range a.inOffset a.inLength = .ok i
  outRange : Memory.range a.outOffset a.outLength = .ok o
  inputSize : input.size ≤ Memory.limit
  flow : fl = .enter (calleeMessage f.message k (.ofWord a.callee) a.value input gas) (.call o)
  quiet : f.Quiet g
  pc : g.pc = f.pc
  rest : g.stack.words = ws
  memory : g.memory = (f.memory.cover i).cover o

theorem startCall_inv (h : startCall k f = .ok fl g) :
    ∃ a ws i o input gas, f.Calls g k a ws i o input gas fl := by
  have quiet : f.Quiet g := (keeps_startCall inert_quiet k).ok h
  unfold startCall at h
  obtain ⟨requested, _, hr, h⟩ := bind_inv h
  obtain ⟨w₁, e₁, rfl⟩ := Exec.pop_inv hr
  obtain ⟨callee, _, hc, h⟩ := bind_inv h
  obtain ⟨w₂, e₂, rfl⟩ := Exec.pop_inv hc
  obtain ⟨value, _, hv, h⟩ := bind_inv h
  obtain ⟨w₃, e₃, hz, rfl⟩ := popValue_inv hv
  obtain ⟨⟨inOffset, inLength, outOffset, outLength⟩, _, hp, h⟩ := bind_inv h
  obtain ⟨ws, e₄, rfl⟩ := Exec.pop4_inv hp
  obtain ⟨_, _, hf, h⟩ := bind_inv h
  obtain ⟨rfl, rfl⟩ := get_inv hf
  obtain ⟨_, _, he, h⟩ := bind_inv h
  obtain ⟨hm, rfl⟩ := ensure_inv he
  obtain ⟨input, _, hi, h⟩ := bind_inv h
  have hsize := size_memorySlice hi
  obtain ⟨i, hri, rfl, -⟩ := memorySlice_inv hi
  obtain ⟨o, _, ho, h⟩ := bind_inv h
  obtain ⟨hro, rfl⟩ := touch_inv ho
  obtain ⟨_, _, hf, h⟩ := bind_inv h
  obtain ⟨rfl, rfl⟩ := get_inv hf
  obtain ⟨_, _, hg, h⟩ := bind_inv h
  obtain ⟨-, rfl⟩ := charge_inv hg
  obtain ⟨_, _, hl, h⟩ := bind_inv h
  obtain ⟨-, rfl⟩ := gasLeft_inv hl
  obtain ⟨_, _, hs, h⟩ := bind_inv h
  obtain ⟨-, rfl⟩ := spend_inv hs
  obtain ⟨gas, _, hb, h⟩ := bind_inv h
  obtain ⟨-, -, rfl⟩ := bounded_inv hb
  obtain ⟨_, _, hf, h⟩ := bind_inv h
  obtain ⟨rfl, rfl⟩ := get_inv hf
  obtain ⟨rfl, rfl⟩ := pure_inv h
  refine ⟨⟨requested, callee, value, inOffset, inLength, outOffset, outLength⟩, ws, i, o, input,
    gas, ?words, hz, ?mutable, hri, hro, hsize, ?flow, quiet, ?pc, ?rest, ?memory⟩
  case words =>
    rw [e₁, show w₁ = _ from e₂, show w₂ = _ from e₃, show w₃ = _ from e₄]
    rfl
  case mutable =>
    intro hk hst
    have hm : (!(k == .call && !value.isZero && f.message.isStatic)) = true := hm
    simpa [hk, hst] using hm
  case flow =>
    exact congrArg (fun m => Flow.enter (calleeMessage m k _ value input gas) (.call o))
      quiet.message
  case pc =>
    change (Frame.touched (Frame.touched _ i) o).pc = _
    rw [Frame.pc_touched, Frame.pc_touched]
    rfl
  case rest =>
    change (Frame.touched (Frame.touched _ i) o).stack.words = _
    rw [Frame.stack_touched, Frame.stack_touched]
    rfl
  case memory =>
    change (Frame.touched (Frame.touched _ i) o).memory = _
    rw [Frame.memory_touched, Frame.memory_touched]
    rfl

/-- The frame with the value of a call paid for. -/
def Frame.surcharged (f : Frame) (k : CallKind) (callee : Address) (value : Word) : Frame :=
  f.paying .callOverhead (callSurcharge f.view k callee value)

/-- What the frame forwards of its gas when this much is requested. -/
def Frame.forwarded (f : Frame) (requested : Word) : Nat :=
  min (requested.size?.getD (allButOne64th f.gasLeft)) (allButOne64th f.gasLeft)

/-- How a call goes through from where its operands are taken and the memory is grown: the value is
paid for, and gas is forwarded, with a stipend on top if the value is not zero. -/
structure Frame.Forwards (f g : Frame) (k : CallKind) (requested value : Word) (callee : Address)
    (fl : Flow) : Prop where
  valueless : k.takesValue = false → value = .zero
  covered : callSurcharge f.view k callee value ≤ f.gasLeft
  flow : ∃ input out, fl = .enter (calleeMessage f.message k callee value input
    ((f.surcharged k callee value).forwarded requested +
      if value.isZero then 0 else Price.stipend)) (.call out)
  rest : g = { f.surcharged k callee value with
    gas := (f.surcharged k callee value).gas.spend
      ((f.surcharged k callee value).forwarded requested) }

/-- Up to where it pays for the value, a call is steady. -/
theorem startCall_forwards {R : Frame → Frame → Prop} (hR : Frame.Steady R)
    (h : startCall k f = .ok fl g) : ∃ j requested callee value,
      f.stack.words.back? = some requested ∧ R f j ∧
        j.Forwards g k requested value callee fl := by
  unfold startCall at h
  obtain ⟨requested, f₁, hr, h⟩ := bind_inv h
  obtain ⟨callee, f₂, hc, h⟩ := bind_inv h
  obtain ⟨value, f₃, hv, h⟩ := bind_inv h
  obtain ⟨⟨inOffset, inLength, outOffset, outLength⟩, f₄, hp, h⟩ := bind_inv h
  obtain ⟨_, _, hf, h⟩ := bind_inv h
  obtain ⟨rfl, rfl⟩ := get_inv hf
  obtain ⟨_, _, he, h⟩ := bind_inv h
  obtain ⟨-, rfl⟩ := ensure_inv he
  obtain ⟨input, f₅, hi, h⟩ := bind_inv h
  obtain ⟨out, j, ho, h⟩ := bind_inv h
  have hj : R f j := hR.trans ((keeps_onStack hR _).ok hr) <| hR.trans ((keeps_onStack hR _).ok hc)
    <| hR.trans ((keeps_popValue hR k).ok hv) <| hR.trans ((keeps_onStack hR _).ok hp)
    <| hR.trans ((keeps_memorySlice hR _ _).ok hi) ((keeps_touch hR _ _).ok ho)
  obtain ⟨ws, hw, -⟩ := Exec.pop_inv hr
  obtain ⟨-, -, hz, -⟩ := popValue_inv hv
  obtain ⟨_, _, hf, h⟩ := bind_inv h
  obtain ⟨rfl, rfl⟩ := get_inv hf
  obtain ⟨_, _, hg, h⟩ := bind_inv h
  obtain ⟨hcovered, rfl⟩ := charge_inv hg
  obtain ⟨_, _, hl, h⟩ := bind_inv h
  obtain ⟨rfl, rfl⟩ := gasLeft_inv hl
  obtain ⟨_, _, hs, h⟩ := bind_inv h
  obtain ⟨-, rfl⟩ := spend_inv hs
  obtain ⟨gas, _, hb, h⟩ := bind_inv h
  obtain ⟨-, rfl, rfl⟩ := bounded_inv hb
  obtain ⟨_, _, hf, h⟩ := bind_inv h
  obtain ⟨rfl, rfl⟩ := get_inv hf
  obtain ⟨rfl, rfl⟩ := pure_inv h
  exact ⟨j, requested, .ofWord callee, value, by rw [hw, Array.back?_push], hj, hz, hcovered,
    ⟨input, out, rfl⟩, rfl⟩

/-- A call that traps is steady, unless it faults. -/
theorem keepsTrap_startCall {R : Frame → Frame → Prop} (hR : Frame.Steady R) (k : CallKind) :
    KeepsTrap R (startCall k) := by
  refine .bind hR (keeps_onStack hR _) fun _ => .bind hR (keeps_onStack hR _) fun _ =>
    .bind hR (keeps_popValue hR k) fun _ => .bind hR (keeps_onStack hR _) fun _ =>
    .bind hR (keeps_get hR) fun _ => .bind hR (keeps_ensure hR _ _) fun _ =>
    .bind hR (keeps_memorySlice hR _ _) fun _ => .bind hR (keeps_touch hR _ _) fun _ =>
    .bind hR (keeps_get hR) fun _ => .bind hR (keeps_charge hR _ _) fun _ =>
    .bind hR (keeps_gasLeft hR) fun _ => keepsTrap_spend_bind hR _ fun _ _ _ =>
      bounded_trap fun _ _ _ _ h => nomatch h

/-- The words under the operands leave room for one more. -/
theorem Frame.Calls.room {a : CallOperands} {ws : Array Word} {i o : Option (Nat × Nat)}
    {input : ByteArray} {gas : Nat} (h : f.Calls g k a ws i o input gas fl)
    (hf : f.Fits (.call k)) : ws.size < Stack.limit := by
  have hs : f.stack.size = ws.size + (Opcode.call k).shape.pops := by
    unfold Stack.size
    rw [h.words, a.size_pushOn]
  have hp : (Opcode.call k).shape.pushes = 1 := by cases k <;> rfl
  have := hf.2
  omega

end

/-! ## Taking up the report of a callee -/

theorem push_ok {f : Frame} (h : f.stack.size < Stack.limit) (w : Word) :
    push w f = .ok () (f.withWords (f.stack.words.push w)) := by
  simp only [push, onStack, Stack.push, if_pos h]
  rfl

theorem storeOutput_ok {f : Frame} {out : Option (Nat × Nat)} (b : ByteArray)
    (h : Memory.Holds f.memory.size out) :
    storeOutput b out f = .ok () { f with memory := f.memory.storing b out } := by
  rcases out with _ | ⟨start, n⟩
  · rfl
  · have h : start + n ≤ f.memory.size := h
    have hs := Memory.size_fitting b n
    exact writeMemory_ok (by omega)

/-- A frame that has room for a word and memory for the output takes up the report of a call. -/
theorem finish_call {f : Frame} {out : Option (Nat × Nat)} (o : Outcome)
    (hs : f.stack.size < Stack.limit) (hm : Memory.Holds f.memory.size out) :
    (Resume.call out).finish o f = .ok ()
      ({ f.takeBack o with memory := f.memory.storing o.output out }.withWords
        (f.stack.words.push (.ofBool o.status.isSuccess))) := by
  have hb : (modify (·.takeBack o) : Exec Unit) f = .ok () (f.takeBack o) := rfl
  have ho := storeOutput_ok (f := f.takeBack o) o.output hm
  have hp := push_ok (f := { f.takeBack o with memory := f.memory.storing o.output out }) hs
    (.ofBool o.status.isSuccess)
  exact (bind_ok hb).trans ((bind_ok ho).trans hp)

/-! ## Which instructions send a message -/

section

variable {tx : Tx} {f g : Frame} {m : Message} {r : Resume}

/-- Only calls and creations send a message. -/
theorem perform_enter_inv {offset : Nat} {op : Opcode}
    (h : perform tx offset op f = .ok (.enter m r) g) :
    (∃ k, op = .call k ∧ startCall k f = .ok (.enter m r) g) ∨
    (∃ salted, op = (if salted then .create2 else .create) ∧
      startCreate salted f = .ok (.enter m r) g) := by
  cases op with
  | call k => exact .inl ⟨k, rfl, h⟩
  | create => exact .inr ⟨false, rfl, h⟩
  | create2 => exact .inr ⟨true, rfl, h⟩
  | stop | jumpDest | invalid => cases h
  | ret | revert =>
    obtain ⟨_, _, _, h⟩ := bind_inv h
    obtain ⟨_, _, _, h⟩ := bind_inv h
    cases h
  | selfDestruct => cases (destroy_inv h).2.1
  | _ => cases (proceed_inv h).1

theorem enter_inv (h : step tx f = .ok (.enter m r) g) :
    ∃ op, f.opcode? = some op ∧ f.Fits op ∧
      ((∃ k, op = .call k ∧ startCall k (f.prepared op) = .ok (.enter m r) g) ∨
      ∃ salted, op = (if salted then .create2 else .create) ∧
        startCreate salted (f.prepared op) = .ok (.enter m r) g) := by
  obtain ⟨-, hn, -⟩ | ⟨op, hop, hf, -, h⟩ := step_inv h
  · cases hn
  · exact ⟨op, hop, hf, perform_enter_inv h⟩

/-- A creation is not started in a static frame, and its init code is not too long. -/
theorem startCreate_inv {salted : Bool} {fl : Flow} (h : startCreate salted f = .ok fl g) :
    f.message.isStatic = false ∧ ∃ (entry : Entry) (value : Word) (init : ByteArray) (gas : Nat),
      entry.creates = true ∧ init.size ≤ maxInitSize ∧
      fl = .enter ⟨entry, f.message.address, .zero, .zero, value, init, gas, false,
        f.message.depth + 1⟩ .create := by
  have quiet : f.Quiet g := (keeps_startCreate inert_quiet salted).ok h
  obtain ⟨_, _, hr, h⟩ := bind_inv h
  obtain ⟨hm, rfl⟩ := requireMutable_inv hr
  obtain ⟨⟨value, offset, length⟩, _, _, h⟩ := bind_inv h
  obtain ⟨entry, _, he, h⟩ := bind_inv h
  obtain ⟨init, _, _, h⟩ := bind_inv h
  obtain ⟨_, _, hn, h⟩ := bind_inv h
  obtain ⟨hs, rfl⟩ := ensure_inv hn
  obtain ⟨_, _, _, h⟩ := bind_inv h
  obtain ⟨_, _, _, h⟩ := bind_inv h
  obtain ⟨_, _, _, h⟩ := bind_inv h
  obtain ⟨_, _, _, h⟩ := bind_inv h
  obtain ⟨left, _, _, h⟩ := bind_inv h
  obtain ⟨_, _, _, h⟩ := bind_inv h
  obtain ⟨_, _, hf, h⟩ := bind_inv h
  obtain ⟨rfl, rfl⟩ := get_inv hf
  obtain ⟨rfl, rfl⟩ := pure_inv h
  refine ⟨hm, entry, value, init, allButOne64th left, ?_, of_decide_eq_true hs, ?_⟩
  · cases salted with
    | false =>
      obtain ⟨rfl, -⟩ := pure_inv he
      rfl
    | true =>
      obtain ⟨salt, _, _, he⟩ := bind_inv he
      cases he
      rfl
  · rw [quiet.message]

/-- Up to where it hands its gas to the new frame, a creation is steady. -/
theorem startCreate_forwards {R : Frame → Frame → Prop} (hR : Frame.Steady R) {salted : Bool}
    {fl : Flow} (h : startCreate salted f = .ok fl g) : ∃ j m, R f j ∧ fl = .enter m .create ∧
      m.gas ≤ j.gasLeft ∧ g = { j with gas := j.gas.spend m.gas } := by
  obtain ⟨_, f₁, hr, h⟩ := bind_inv h
  obtain ⟨⟨value, offset, length⟩, f₂, hp, h⟩ := bind_inv h
  obtain ⟨entry, f₃, he, h⟩ := bind_inv h
  obtain ⟨init, f₄, hi, h⟩ := bind_inv h
  obtain ⟨_, f₅, hn, h⟩ := bind_inv h
  obtain ⟨_, f₆, hb, h⟩ := bind_inv h
  obtain ⟨_, f₇, hc, h⟩ := bind_inv h
  obtain ⟨_, f₈, hb', h⟩ := bind_inv h
  obtain ⟨_, j, hc', h⟩ := bind_inv h
  have hj : R f j := hR.trans ((keeps_requireMutable hR _).ok hr)
    <| hR.trans ((keeps_onStack hR _).ok hp) <| hR.trans ((keeps_popEntry hR _).ok he)
    <| hR.trans ((keeps_memorySlice hR _ _).ok hi) <| hR.trans ((keeps_ensure hR _ _).ok hn)
    <| hR.trans ((keeps_bounded hR _).ok hb) <| hR.trans ((keeps_charge hR _ _).ok hc)
    <| hR.trans ((keeps_bounded hR _).ok hb') ((keeps_charge hR _ _).ok hc')
  obtain ⟨_, _, hl, h⟩ := bind_inv h
  obtain ⟨rfl, rfl⟩ := gasLeft_inv hl
  obtain ⟨_, _, hs, h⟩ := bind_inv h
  obtain ⟨hle, rfl⟩ := spend_inv hs
  obtain ⟨_, _, hf, h⟩ := bind_inv h
  obtain ⟨rfl, rfl⟩ := get_inv hf
  obtain ⟨rfl, rfl⟩ := pure_inv h
  exact ⟨j, _, hj, rfl, hle, rfl⟩

/-- A creation that traps before the new frame is started is steady. -/
theorem keepsTrap_startCreate {R : Frame → Frame → Prop} (hR : Frame.Steady R) (salted : Bool) :
    KeepsTrap R (startCreate salted) :=
  .bind hR (keeps_requireMutable hR _) fun _ => .bind hR (keeps_onStack hR _) fun _ =>
    .bind hR (keeps_popEntry hR _) fun _ => .bind hR (keeps_memorySlice hR _ _) fun _ =>
    .bind hR (keeps_ensure hR _ _) fun _ => .bind hR (keeps_bounded hR _) fun _ =>
    .bind hR (keeps_charge hR _ _) fun _ => .bind hR (keeps_bounded hR _) fun _ =>
    .bind hR (keeps_charge hR _ _) fun _ => .bind hR (keeps_gasLeft hR) fun _ =>
    keepsTrap_spend_bind hR _ fun _ _ _ h => nomatch h

end

end ParticleChain.Evm
