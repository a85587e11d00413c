import ParticleChain.Proofs.Evm.Calls
import ParticleChain.Proofs.Evm.Evaluation

/-!
# A stipend changes nothing

With no more gas than a stipend a frame can run, call others and emit logs, but it writes nothing:
each instruction that does costs more or asks for more. Writing a slot wants more gas than a stipend
left, removing an account and creating one cost more, and so does moving a value. The callees of
such a frame have no more gas than it has, so what holds of one frame holds of all below it
(`run_stipend`). The value that a call moves on entry is all that is left of it
(`stipend_changes_nothing`).
-/

namespace ParticleChain.Evm

open Exec

/-! ## Layers without writes -/

namespace View

variable (v : View)

theorem commit_enter : v.enter.commit = v := rfl

/-- A layer that only gives two accounts other values leaves all slots as they are. -/
theorem slot_commit_accounts (a b : Address) (x y : Account) (s : Slot) :
    ((v.enter.setAccount a (some x)).setAccount b (some y)).commit.slot s = v.slot s := by
  refine (slot_commit ⟨((∅ : Std.TreeMap _ _).insert a (some x)).insert b (some y), ∅⟩ v s).trans ?_
  have hkept : ((((∅ : Std.TreeMap Address (Option Account)).insert a (some x)).insert b
      (some y))[s.owner]? == some none) = false := by
    simp only [Std.TreeMap.getElem?_insert, Std.TreeMap.getElem?_emptyc]
    split
    · rfl
    · split <;> rfl
  rw [hkept, Bool.and_false, Std.TreeMap.getElem?_emptyc]
  rfl

/-- A transfer writes no slot and removes no account, so committing it leaves all slots as they
are. -/
theorem slot_commit_transfer (a b : Address) (n : Word) (s : Slot) :
    (v.enter.transfer a b n).commit.slot s = v.slot s := by
  unfold transfer
  split
  · rfl
  · exact v.slot_commit_accounts a b _ _ s

end View

/-! ## Instructions -/

theorem stipend_lt_of_writeSlot {f g : Frame} {u : Unit} (h : writeSlot f = .ok u g) :
    Price.stipend < f.gasLeft := by
  obtain ⟨_, _, hr, h⟩ := bind_inv h
  obtain ⟨-, rfl⟩ := requireMutable_inv hr
  obtain ⟨_, _, hl, h⟩ := bind_inv h
  obtain ⟨rfl, rfl⟩ := gasLeft_inv hl
  obtain ⟨_, _, he, -⟩ := bind_inv h
  exact of_decide_eq_true (ensure_inv he).1

theorem steady_gas : Frame.Steady fun f g => g.gasLeft ≤ f.gasLeft where
  refl _ := Nat.le_refl _
  trans h h' := Nat.le_trans h' h
  stack _ _ := Nat.le_refl _
  pay _ _ _ _ := Nat.sub_le _ _
  grow _ _ _ _ := Nat.le_refl _
  store _ _ _ _ := Nat.le_refl _

/-- A call with a value costs more than a stipend. -/
theorem value_of_surcharge {v : View} {k : CallKind} {callee : Address} {value : Word}
    (h : callSurcharge v k callee value ≤ Price.stipend) : value = .zero := by
  unfold callSurcharge at h
  split at h
  · exact Word.isZero_iff.1 ‹_›
  · split at h <;> exact absurd h (by decide)

section

variable {tx : Tx} {f g : Frame} {m : Message} {r : Resume}

/-- An instruction that goes through on a stipend writes nothing. -/
theorem view_of_stipend {fl : Flow} (h : step tx f = .ok fl g) (hf : f.gasLeft ≤ Price.stipend) :
    g.view = f.view := by
  have prepared : ∀ op, (f.prepared op).gasLeft ≤ f.gasLeft := fun op => Nat.sub_le _ _
  cases step_effect h with
  | quiet hq | log _ _ _ _ hq => exact hq.view
  | store _ _ _ hop _ _ _ =>
    obtain ⟨-, -, hp⟩ := step_performs hop h
    obtain ⟨-, u, hw⟩ := proceed_inv hp
    have := stipend_lt_of_writeSlot hw
    have := prepared .sstore
    omega
  | destroy _ _ hop _ _ _ =>
    obtain ⟨-, hgas, -⟩ := step_performs hop h
    exact absurd (Nat.le_trans hgas hf) (by decide)

/-- A message that is sent on a stipend is a call, gets no more than that, and moves no value. -/
theorem message_of_stipend (h : step tx f = .ok (.enter m r) g) (hf : f.gasLeft ≤ Price.stipend) :
    m.entry.creates = false ∧ m.gas ≤ Price.stipend ∧
      (m.entry.movesValue = true → m.value = .zero) := by
  have hgas : m.gas ≤ Price.stipend := by
    have := step_enter h
    omega
  obtain ⟨-, hn, -⟩ | ⟨op, hop, -, hcost, hp⟩ := step_inv h
  · cases hn
  obtain ⟨k, rfl, hc⟩ | ⟨salted, rfl, -⟩ := perform_enter_inv hp
  · obtain ⟨j, requested, callee, value, -, hj, hfw⟩ := startCall_forwards steady_gas hc
    have hj' : j.gasLeft ≤ f.gasLeft := Nat.le_trans hj (Nat.sub_le _ _)
    have hvalue := value_of_surcharge (Nat.le_trans hfw.covered (Nat.le_trans hj' hf))
    obtain ⟨input, out, he⟩ := hfw.flow
    cases he
    refine ⟨?_, hgas, ?_⟩
    · cases k <;> rfl
    · intro hm
      cases k with
      | call | callCode => exact hvalue
      | delegateCall | staticCall => cases hm
  · exact absurd (Nat.le_trans hcost hf) (by cases salted <;> decide)

/-- A call with a value for which no gas is requested gets just the stipend. -/
theorem gas_of_value_call {k : CallKind} (hop : f.opcode? = some (.call k))
    (hw : f.stack.words.back? = some .zero) (h : step tx f = .ok (.enter m r) g)
    (hm : m.entry.movesValue = true) (hv : m.value ≠ .zero) : m.gas = Price.stipend := by
  obtain ⟨-, -, hp⟩ := step_performs hop h
  obtain ⟨j, requested, callee, value, hr, -, hfw⟩ := startCall_forwards steady_gas hp
  obtain rfl : requested = .zero := Option.some.inj (hr.symm.trans hw)
  obtain ⟨input, out, he⟩ := hfw.flow
  cases he
  have hvalue : value.isZero = false := by
    cases k with
    | call | callCode => exact Bool.eq_false_iff.2 fun hz => hv (Word.isZero_iff.1 hz)
    | delegateCall | staticCall => cases hm
  rw [calleeMessage_gas, hvalue]
  exact (Nat.add_eq_right).2 (Nat.zero_min _)

end

/-! ## Runs -/

theorem Ended.settle_of_calls {e : Ended} (h : e.frame.message.entry.creates = false) :
    e.settle = e := by
  unfold settle
  rw [h]

section

variable {tx : Tx} {f g k : Frame} {m : Message} {r : Resume} {v : View} {p : Profile}

/-- If the frame that a call starts writes nothing, the call moves its value, and that is all. -/
theorem execute_of_idle_run (hc : m.entry.creates = false)
    (hrun : ∀ c, m.enter v p = .running c → (c.run tx).frame.view = c.view) :
    (execute tx m v p).view =
      if (execute tx m v p).outcome.status = .success then (m.calleeView v).commit else v := by
  cases h : m.enter v p with
  | answered o w =>
    rw [execute_answered h]
    cases Message.opens_of h with
    | turnedDown => rfl
    | collision hd => exact absurd hd (Message.not_derives_of_calls hc v)
    | noCode => rfl
  | running c =>
    rw [execute_running h]
    have hend := hrun c h
    have hover := Message.over_floor h
    rw [Message.floor_of_calls hc, ← hend] at hover
    have hmessage := run_message tx c
    cases Message.opens_of h with
    | init hd => exact absurd hd (Message.not_derives_of_calls hc v)
    | call =>
      obtain ⟨hs, he⟩ | ⟨hs, he⟩ := Ended.close_view hover
      · rw [if_pos hs, he, Ended.settle_of_calls (by rw [hmessage]; exact hc), hend]
        rfl
      · rw [if_neg hs, he]

theorem calleeView_of_no_value (hm : m.entry.movesValue = true → m.value = .zero) :
    m.calleeView v = v.enter := by
  unfold Message.calleeView
  split
  · rw [hm ‹_›]
    rfl
  · rfl

/-- A message that is sent on a stipend leaves the view as it is. -/
theorem answered_of_stipend (h : step tx f = .ok (.enter m r) g) (hf : f.gasLeft ≤ Price.stipend)
    (hrun : ∀ c, m.enter g.view g.profile = .running c → c.gasLeft ≤ Price.stipend →
      (c.run tx).frame.view = c.view) :
    (execute tx m g.view g.profile).view = f.view := by
  obtain ⟨hc, hgas, hvalue⟩ := message_of_stipend h hf
  have hidle := execute_of_idle_run hc fun c he => hrun c he <| by
    have hu := m.enter_uses g.view g.profile
    rw [he] at hu
    exact Nat.le_trans (Nat.le_of_eq hu) hgas
  rw [hidle, calleeView_of_no_value hvalue, View.commit_enter, ite_self, view_of_stipend h hf]

/-- On a stipend a frame writes nothing. -/
theorem run_stipend (tx : Tx) (f : Frame) :
    f.gasLeft ≤ Price.stipend → (f.run tx).frame.view = f.view := by
  refine f.run_induction tx
    (motive := fun f e => f.gasLeft ≤ Price.stipend → e.frame.view = f.view)
    ?trap ?halt ?next ?back ?stuck
  case trap =>
    intro f g t h _
    exact (step_trap_quiet h).view
  case halt =>
    intro f g x h hf
    exact view_of_stipend h hf
  case next =>
    intro f g h ih hf
    have hg := step_next h
    exact (ih (by omega)).trans (view_of_stipend h hf)
  case back =>
    intro f g k m r h hc hk ih hf
    have hg := f.resumed_lt h (execute_gas tx m _ _) hk
    rw [ih (by omega), (Frame.resumed_ok hk).view, answered_of_stipend h hf hc]
  case stuck =>
    intro f g k m r t h hc hk hf
    exact (Frame.resumed_error hk).view.trans (answered_of_stipend h hf hc)

/-- The view a call leaves if it moves its value and nothing else is written. -/
theorem same_commit_calleeView (m : Message) (v : View) :
    View.Same (if m.entry.movesValue then v.transfer m.caller m.address m.value else v)
      (m.calleeView v).commit := by
  unfold Message.calleeView
  split
  · refine ⟨fun a => ?_, fun s => ?_⟩
    · rw [(v.over_enter.transfer _ _ _).account?_commit]
      exact v.account?_transfer_congr v.account?_enter _ _ _ a
    · rw [View.slot_commit_transfer, View.slot_transfer]
  · exact .refl v

end

/-- A stipend is not enough to change anything. A call with no more gas than that, whatever code it
runs and whatever else that calls, leaves the world as it was, but for the value that it moves to
begin with, and this only if it succeeds. And a stipend is just what the callee has if a value is
sent and no gas is requested. -/
theorem stipend_changes_nothing (tx : Tx) (m : Message) (v : View) (p : Profile)
    (hc : m.entry.creates = false) (hg : m.gas ≤ Price.stipend) :
    let x := execute tx m v p
    (x.outcome.status = .success → View.Same
      (if m.entry.movesValue then v.transfer m.caller m.address m.value else v) x.view) ∧
    (x.outcome.status ≠ .success → x.view = v) ∧
    (∀ s, x.view.slot s = v.slot s) ∧
    ∀ (k : CallKind) (f g : Frame) (m' : Message) (r : Resume),
      f.opcode? = some (.call k) → f.stack.words.back? = some .zero →
      step tx f = .ok (.enter m' r) g → m'.entry.movesValue = true → m'.value ≠ .zero →
      m'.gas = Price.stipend := by
  intro x
  have hx : x.view = if x.outcome.status = .success then (m.calleeView v).commit else v := by
    refine execute_of_idle_run hc fun c he => run_stipend tx c ?_
    have hu := m.enter_uses v p
    rw [he] at hu
    exact Nat.le_trans (Nat.le_of_eq hu) hg
  have hsame := same_commit_calleeView m v
  refine ⟨fun hs => ?_, fun hs => ?_, fun s => ?_, fun k f g m' r => gas_of_value_call⟩
  · rw [hx, if_pos hs]
    exact hsame
  · rw [hx, if_neg hs]
  · rw [hx]
    split
    · refine (hsame.2 s).trans ?_
      split
      · exact v.slot_transfer _ _ _ s
      · rfl
    · rfl

/-! ## A contract that thanks -/

/-- A contract that emits a log, and an account that can pay it. -/
def tipJar : View :=
  .ofWorld ((World.ofContract ⟨7, 0, 0⟩ .zero (Bytes.ofList [0x5f, 0x5f, 0xa0])).setAccount .zero
    (some (.withBalance .one)))

def tip : Message := .plainCall .zero ⟨7, 0, 0⟩ .empty Price.stipend .one

theorem tip_succeeds : (execute? (Frame.run? ⟨.standard, .zero⟩ 4) tip tipJar .empty).any
    (fun x => x.outcome.status == .success && x.outcome.logs.size == 1) = true := by
  decide +kernel

/-- The contract runs and has the value, and its slots are as they were. -/
theorem stipend_changes_nothing_tip :
    let x := execute ⟨.standard, .zero⟩ tip tipJar .empty
    tip.entry.creates = false ∧ tip.gas ≤ Price.stipend ∧ x.outcome.logs.size = 1 ∧
    x.view.balance ⟨7, 0, 0⟩ = .one ∧ (∀ key, x.view.slot ⟨⟨7, 0, 0⟩, key⟩ = .zero) := by
  intro x
  obtain ⟨hmoved, -, hslots, -⟩ := stipend_changes_nothing ⟨.standard, .zero⟩ tip tipJar .empty rfl
    (Nat.le_refl _)
  obtain ⟨y, hrun, hy⟩ := (Option.any_eq_true _ _).1 tip_succeeds
  obtain rfl : x = y := execute_of_execute? (fun _ _ => Frame.run_of_run?) hrun
  obtain ⟨hs, hlogs⟩ := Bool.and_eq_true_iff.1 hy
  have hsame := hmoved (eq_of_beq hs)
  refine ⟨rfl, Nat.le_refl _, eq_of_beq hlogs, ?_, fun key => (hslots _).trans rfl⟩
  rw [View.balance, hsame.account]
  rfl

end ParticleChain.Evm
