import ParticleChain.Proofs.Evm.Calls

/-!
# A frame that does not succeed leaves no trace

A message that does not succeed leaves its floor (`execute_view`): the view it met, with the
nonce of the deployer moved if the address of a new contract was derived. Its outcome has
neither logs nor a new address (`execute_discards`). The frame that sent it as a call finds a
zero on the stack, the output as return data, and memory for its operands (`answered_failed`).
-/

namespace ParticleChain.Evm

/-! ## The outcome -/

/-- An outcome without logs and new address, and without output if the frame failed. -/
structure Outcome.Discards (o : Outcome) : Prop where
  logs : o.logs = #[]
  created : o.created = none
  output : ∀ t, o.status = .failed t → o.output = .empty

theorem Outcome.failure_discards (t : Trap) (gas : Nat) : (Outcome.failure t gas).Discards :=
  ⟨rfl, rfl, fun _ _ => rfl⟩

theorem Ended.outcome_discards {e : Ended} (h : e.outcome.status ≠ .success) :
    e.outcome.Discards := by
  obtain ⟨halt, f⟩ := e
  cases halt with
  | error t => exact Outcome.failure_discards t 0
  | ok x =>
    cases x with
    | stop => exact absurd rfl h
    | ret data => exact absurd rfl h
    | revert data => exact ⟨rfl, rfl, fun t ht => nomatch ht⟩

section

variable {tx : Tx} {m : Message} {v : View} {p : Profile}

theorem execute_discards (h : (execute tx m v p).outcome.status ≠ .success) :
    (execute tx m v p).outcome.Discards := by
  cases he : m.enter v p with
  | answered o w =>
    rw [execute_answered he] at h ⊢
    cases Message.opens_of he with
    | turnedDown t gas => exact Outcome.failure_discards t gas
    | collision => exact Outcome.failure_discards _ 0
    | noCode => exact absurd rfl h
  | running c =>
    rw [execute_running he] at h ⊢
    exact Ended.outcome_discards h

/-! ## The view -/

theorem execute_failed_view (h : (execute tx m v p).outcome.status ≠ .success) :
    (execute tx m v p).view = m.floor v := by
  obtain ⟨hs, -⟩ | ⟨-, hv⟩ := execute_view tx m v p
  · exact absurd hs h
  · exact hv

theorem Message.account?_floor (m : Message) (v : View) (a : Address) :
    (m.floor v).account? a = if m.Derives v ∧ a = m.caller then
      some { v.account m.caller with nonce := (v.account m.caller).nonce + 1 }
    else v.account? a := by
  by_cases hd : m.Derives v
  · rw [floor_of_derives hd, View.bumpNonce, View.account?_setAccount]
    simp only [hd, true_and]
  · rw [floor_of_not_derives hd, if_neg fun h => hd h.1]

theorem Message.slot_floor (m : Message) (v : View) (s : Slot) : (m.floor v).slot s = v.slot s := by
  by_cases hd : m.Derives v
  · rw [floor_of_derives hd, View.bumpNonce, View.slot_setAccount, if_neg fun h => nomatch h.2.1]
  · rw [floor_of_not_derives hd]

theorem transact_failed {b : Block} {w : World} (h : (transact b w m).outcome.status ≠ .success) :
    (transact b w m).world = w := by
  unfold transact at h ⊢
  dsimp only at h ⊢
  split
  · rfl
  · rename_i hg
    rw [if_neg hg] at h
    exact if_neg (by simpa [Status.isSuccess] using h)

end

/-! ## The frame that called -/

/-- What a frame `f` is after a call that did not succeed and gave `output`. -/
structure Frame.CallFailed (f h : Frame) (k : CallKind) (a : CallOperands) (ws : Array Word)
    (i o : Option (Nat × Nat)) (output : ByteArray) : Prop where
  message : h.message = f.message
  code : h.code = f.code
  dests : h.dests = f.dests
  limit : h.gas.limit = f.gas.limit
  logs : h.logs = f.logs
  view : h.view = f.view
  pc : h.pc = f.pc + 1
  returned : h.returned = output
  operands : f.stack.words = a.pushOn k ws
  stack : h.stack.words = ws.push .zero
  inRange : Memory.range a.inOffset a.inLength = .ok i
  outRange : Memory.range a.outOffset a.outLength = .ok o
  size : h.memory.size = Memory.lengthOver (Memory.lengthOver f.memory.size i) o
  read : ∀ n, h.memory.read n = f.memory.readStored output n o

theorem calleeMessage_creates (m : Message) (k : CallKind) (a : Address) (x : Word)
    (input : ByteArray) (gas : Nat) :
    (calleeMessage m k a x input gas).entry.creates = false := by
  cases k <;> rfl

theorem answered_failed {tx : Tx} {f g : Frame} {k : CallKind} {m : Message} {r : Resume}
    (hop : f.opcode? = some (.call k)) (h : step tx f = .ok (.enter m r) g)
    (hx : (execute tx m g.view g.profile).outcome.status ≠ .success) :
    ∃ h a ws i o, g.answered tx m r = .ok () h ∧
      f.CallFailed h k a ws i o (execute tx m g.view g.profile).outcome.output := by
  obtain ⟨op, hop', hf, ⟨k', rfl, hc⟩ | ⟨salted, rfl, -⟩⟩ := enter_inv h
  · obtain rfl : k = k' := by simpa [hop] using hop'
    obtain ⟨a, ws, i, o, input, gas, hc⟩ := startCall_inv hc
    obtain ⟨rfl, rfl⟩ := Flow.enter.inj hc.flow
    -- A call takes more words than it puts back and has paid for its output range, so what is
    -- done with the report cannot trap.
    have hroom : g.stack.size < Stack.limit := by
      unfold Stack.size
      rw [hc.rest]
      exact hc.room hf
    have hm : g.memory = (f.memory.cover i).cover o := hc.memory
    have hholds : Memory.Holds g.memory.size o := by
      rw [hm]
      exact Memory.holds_cover _ o
    have hview := execute_failed_view hx
    rw [Message.floor_of_calls (calleeMessage_creates _ _ _ _ _ _)] at hview
    have hfail : (execute tx _ g.view g.profile).outcome.status.isSuccess = false :=
      Bool.eq_false_iff.2 fun hs => hx (eq_of_beq hs)
    refine ⟨_, a, ws, i, o, finish_call _ hroom hholds, ?_⟩
    refine {
      message := hc.quiet.message
      code := hc.quiet.code
      dests := hc.quiet.dests
      limit := hc.quiet.limit
      logs := (if_neg (Bool.not_eq_true _ ▸ hfail)).trans hc.quiet.logs
      view := hview.trans hc.quiet.view
      pc := hc.pc
      returned := rfl
      operands := hc.words
      stack := ?stack
      inRange := hc.inRange
      outRange := hc.outRange
      size := ?size
      read := fun n => ?read }
    case stack =>
      show g.stack.words.push (.ofBool _) = _
      rw [hc.rest, hfail]
      rfl
    case size =>
      show (g.memory.storing _ o).size = _
      rw [Memory.size_storing hholds, hm, Memory.size_cover, Memory.size_cover]
    case read =>
      show (g.memory.storing _ o).read n = _
      rw [Memory.read_storing hholds, hm]
      rcases o with _ | ⟨start, l⟩ <;> simp only [Memory.readStored, Memory.read_cover]
  · rw [hop] at hop'
    cases salted <;> cases hop'

/-- A message that does not succeed leaves every account and every slot as it was, but for the
nonce of a deployer whose new address was derived; its outcome shows neither logs nor a new
address, and no output if it failed. A frame that sent it as a call goes on as `CallFailed`
says, and a transaction leaves the world as it was. -/
theorem failure_leaves_no_trace (tx : Tx) :
    (∀ (m : Message) (v : View) (p : Profile),
      let x := execute tx m v p
      x.outcome.status ≠ .success →
        (∀ a, x.view.account? a = if m.Derives v ∧ a = m.caller then
          some { v.account m.caller with nonce := (v.account m.caller).nonce + 1 }
          else v.account? a) ∧
        (∀ s, x.view.slot s = v.slot s) ∧ x.outcome.logs = #[] ∧ x.outcome.created = none ∧
        ∀ t, x.outcome.status = .failed t → x.outcome.output = .empty) ∧
    (∀ (f g : Frame) (k : CallKind) (m : Message) (r : Resume), f.opcode? = some (.call k) →
      step tx f = .ok (.enter m r) g →
      let x := execute tx m g.view g.profile
      x.outcome.status ≠ .success → ∃ h a ws i o, g.answered tx m r = .ok () h ∧
        f.CallFailed h k a ws i o x.outcome.output) ∧
    (∀ (b : Block) (w : World) (m : Message),
      (transact b w m).outcome.status ≠ .success → (transact b w m).world = w) := by
  refine ⟨fun m v p h => ?_, fun f g k m r hop hs h => answered_failed hop hs h,
    fun b w m h => transact_failed h⟩
  have hd := execute_discards h
  have hv := execute_failed_view h
  refine ⟨fun a => ?_, fun s => ?_, hd.logs, hd.created, hd.output⟩
  · rw [hv]
    exact m.account?_floor v a
  · rw [hv]
    exact m.slot_floor v s

/-- Code that reverts at once. -/
def refuserCode : ByteArray := Bytes.ofList [0x5f, 0x5f, 0xfd]

/-- The account at zero has a balance of one, the contract has none. -/
def refuserView : View :=
  .ofWorld ((World.ofContract ⟨7, 0, 0⟩ .zero refuserCode).setAccount .zero
    (some (.withBalance .one)))

def refuserCall : Message := .plainCall .zero ⟨7, 0, 0⟩ .empty 100 .one

/-- Code that calls the account at zero. -/
def diverCode : ByteArray := Bytes.ofList [0x5f, 0x5f, 0x5f, 0x5f, 0x5f, 0x5f, 0x5a, 0xf1]

def diverView : View := .ofWorld (.ofContract ⟨7, 0, 0⟩ .zero diverCode)

/-- A call so deep that no frame can lie below it. -/
def diverCall : Message :=
  { Message.plainCall .zero ⟨7, 0, 0⟩ .empty 500 .zero with depth := maxDepth }

/-- The value of a call that reverts goes back to the sender. A frame whose call lies too deep
goes on with a zero on its stack. -/
theorem failure_leaves_no_trace_refused :
    (let x := execute ⟨.standard, .zero⟩ refuserCall refuserView .empty
    x.outcome.status = .reverted ∧ x.view.account? .zero = some (.withBalance .one)) ∧
    ∃ (f g : Frame) (m : Message) (r : Resume),
      diverCall.Visits ⟨.standard, .zero⟩ diverView .empty f ∧
      step ⟨.standard, .zero⟩ f = .ok (.enter m r) g ∧
      (execute ⟨.standard, .zero⟩ m g.view g.profile).outcome.status = .failed .callTooDeep ∧
      ∃ h, g.answered ⟨.standard, .zero⟩ m r = .ok () h ∧ h.stack.words = #[.zero] := by
  obtain ⟨hx, hcall, -⟩ := failure_leaves_no_trace ⟨.standard, .zero⟩
  constructor
  · have hc : refuserCall.enter refuserView .empty =
        .running (.start refuserCall refuserCode (refuserCall.calleeView refuserView) .empty) := rfl
    have hr : Frame.run ⟨.standard, .zero⟩
        (.start refuserCall refuserCode (refuserCall.calleeView refuserView) .empty) = _ :=
      (Frame.run_next rfl).trans ((Frame.run_next rfl).trans (Frame.run_halt rfl))
    have hs : (execute ⟨.standard, .zero⟩ refuserCall refuserView .empty).outcome.status =
        .reverted := by
      rw [execute_running hc, hr]
      rfl
    obtain ⟨ha, -⟩ := hx refuserCall refuserView .empty (by rw [hs]; exact Status.noConfusion)
    refine ⟨hs, ?_⟩
    rw [ha, if_neg fun h => nomatch h.1.2.1]
    rfl
  · have hc : diverCall.enter diverView .empty =
        .running (.start diverCall diverCode diverView.enter .empty) := rfl
    have hv : diverCall.Visits ⟨.standard, .zero⟩ diverView .empty _ :=
      ⟨_, hc, .turn (.next rfl) <| .turn (.next rfl) <| .turn (.next rfl) <| .turn (.next rfl) <|
        .turn (.next rfl) <| .turn (.next rfl) <| .turn (.next rfl) <| .refl _⟩
    have key : ∀ {f g : Frame} {m : Message} {r : Resume},
        diverCall.Visits ⟨.standard, .zero⟩ diverView .empty f →
        step ⟨.standard, .zero⟩ f = .ok (.enter m r) g → f.opcode? = some (.call .call) →
        f.stack.words.size = 7 →
        (execute ⟨.standard, .zero⟩ m g.view g.profile).outcome.status ≠ .success →
        ∃ h, g.answered ⟨.standard, .zero⟩ m r = .ok () h ∧ h.stack.words = #[.zero] := by
      intro f g m r _ hs hop hsize hx
      obtain ⟨h, a, ws, i, o, hk, hf⟩ := hcall f g .call m r hop hs hx
      have hws : ws.size + 7 = f.stack.words.size := by
        rw [hf.operands]
        exact (a.size_pushOn .call ws).symm
      refine ⟨h, hk, ?_⟩
      rw [hf.stack, Array.eq_empty_of_size_eq_zero (show ws.size = 0 by omega)]
      rfl
    exact ⟨_, _, _, _, hv, rfl, rfl, key hv rfl rfl rfl Status.noConfusion⟩

end ParticleChain.Evm
