import ParticleChain.Proofs.Evm.Faults

/-!
# The books of a frame

What is booked in the profile and what is left on the meter are the balance of a frame. A charge
moves gas from the meter to the profile, and this is all that an instruction does to the balance
(`Frame.Books`), unless it sends a message: then gas goes to the callee, and a stipend is added
for a call that passes a value (`step_books`).

The profile must not reach its cap for that. A stipend adds gas that nobody has paid for, but the
call books more than that, so `Balance.worth`, where booked gas counts less, never grows.
-/

namespace ParticleChain.Evm

open Exec

/-! ## Sums of a profile -/

theorem saturate_of_le {n : Nat} (h : n ≤ maxAmount) : saturate n = n := Nat.min_eq_left h

theorem saturate_saturate_add (a b : Nat) : saturate (saturate a + b) = saturate (a + b) := by
  simp only [saturate]
  omega

namespace Profile

/-- What is booked in all categories. -/
def sum (p : Profile) : Nat := (Category.all.map p.get).sum

theorem foldl_saturate (p : Profile) (l : List Category) (n : Nat) :
    l.foldl (fun n c => saturate (n + p.get c)) (saturate n) =
      saturate (n + (l.map p.get).sum) := by
  induction l generalizing n with
  | nil => rfl
  | cons c l ih =>
    rw [List.foldl_cons, saturate_saturate_add, ih, List.map_cons, List.sum_cons, Nat.add_assoc]

theorem total_eq (p : Profile) : p.total = saturate p.sum := by
  refine (p.foldl_saturate Category.all 0).trans ?_
  rw [Nat.zero_add]
  rfl

theorem sum_add {p : Profile} {n : Nat} (h : p.sum + n ≤ maxAmount) (c : Category) :
    (p.add c n).sum = p.sum + n := by
  simp only [sum, Category.all, List.map_cons, List.map_nil, List.sum_cons, List.sum_nil] at h ⊢
  cases c <;> simp only [add, get] at h ⊢ <;> rw [saturate_of_le (by omega)] <;> omega

end Profile

/-! ## Balances -/

/-- Gas that is booked and gas that is left. -/
structure Balance where
  booked : Nat
  left : Nat

namespace Balance

def total (b : Balance) : Nat := b.booked + b.left

/-- The balance with more gas left. -/
def credit (b : Balance) (n : Nat) : Balance := { b with left := b.left + n }

/-- Booked gas counts less than gas that is left, just as much less as the stipend of a call is
worth. -/
def worth (b : Balance) : Nat :=
  Price.callValue * b.left + (Price.callValue - Price.stipend) * b.booked

/-- The balance is worth no more than gas that fits into 63 bits. -/
def Fits (b : Balance) : Prop := b.worth < Price.callValue * 2 ^ 63

variable {a b : Balance} {n : Nat}

theorem Fits.total (h : b.Fits) : b.total ≤ maxAmount := by
  simp only [Fits, worth, Price.callValue, Price.stipend] at h
  simp only [Balance.total, maxAmount]
  omega

theorem Fits.of_credit (h : (b.credit n).Fits) : b.Fits := by
  simp only [Fits, worth, credit, Price.callValue, Price.stipend] at h ⊢
  omega

end Balance

/-- From one balance to another this much gas was lost and this many stipends were granted. -/
structure Tally (lost grants : Nat) (a b : Balance) : Prop where
  total : b.total + lost = a.total + Price.stipend * grants
  booked : a.booked + Price.callValue * grants ≤ b.booked

namespace Tally

variable {a b c : Balance} {l l' n n' : Nat}

theorem refl (a : Balance) : Tally 0 0 a a := ⟨rfl, Nat.le_refl _⟩

theorem trans (h : Tally l n a b) (h' : Tally l' n' b c) : Tally (l + l') (n + n') a c := by
  obtain ⟨ht, hb⟩ := h
  obtain ⟨ht', hb'⟩ := h'
  refine ⟨?_, ?_⟩ <;> simp only [Price.stipend, Price.callValue] at * <;> omega

/-- Where nothing is lost or granted, nothing changes. -/
theorem free_trans (h : Tally 0 0 a b) (h' : Tally l n b c) : Tally l n a c := by
  simpa only [Nat.zero_add] using h.trans h'

theorem trans_free (h : Tally l n a b) (h' : Tally 0 0 b c) : Tally l n a c := h.trans h'

theorem total_le (h : Tally 0 0 a b) {k : Nat} (ha : a.total ≤ k) : b.total ≤ k :=
  Nat.le_trans (Nat.le_of_eq h.total) ha

theorem credit (h : Tally l n a b) (k : Nat) : Tally l n (a.credit k) (b.credit k) := by
  obtain ⟨ht, hb⟩ := h
  refine ⟨?_, hb⟩
  simp only [Balance.total, Balance.credit] at *
  omega

/-- A stipend adds gas, but the call that grants it books more. -/
theorem fits (h : Tally l n a b) (ha : a.Fits) : b.Fits := by
  obtain ⟨ht, hb⟩ := h
  simp only [Balance.Fits, Balance.worth, Balance.total, Price.stipend, Price.callValue] at *
  omega

end Tally

/-! ## Instructions -/

/-- What is booked by now, and what the frame has left. -/
def Frame.balance (f : Frame) : Balance := ⟨f.profile.sum, f.gasLeft⟩

/-- The second frame has booked what it has less, provided that amounts suffice for both. -/
def Frame.Books (f g : Frame) : Prop :=
  f.balance.total ≤ maxAmount → Tally 0 0 f.balance g.balance

theorem Frame.balance_paying {f : Frame} {n : Nat} (h : n ≤ f.gasLeft)
    (hf : f.balance.total ≤ maxAmount) (c : Category) :
    (f.paying c n).balance = ⟨f.profile.sum + n, f.gasLeft - n⟩ :=
  congrArg (Balance.mk · _) (Profile.sum_add (Nat.le_trans (Nat.add_le_add_left h _) hf) c)

/-- Gas that is handed on is not booked. -/
theorem Frame.balance_spend {f : Frame} {n : Nat} (h : n ≤ f.gasLeft) (k : Nat) :
    ({ f with gas := f.gas.spend n }.balance.credit (n + k)) = f.balance.credit k := by
  change Balance.mk _ (f.gasLeft - n + (n + k)) = ⟨_, f.gasLeft + k⟩
  rw [← Nat.add_assoc, Nat.sub_add_cancel h]
  rfl

theorem steady_books : Frame.Steady Frame.Books where
  refl f _ := .refl f.balance
  trans := by
    intro f g k a b hf
    have hfg := a hf
    exact hfg.trans (b (hfg.total_le hf))
  stack f _ _ := .refl f.balance
  pay := by
    intro f c n h hf
    rw [Frame.balance_paying h hf]
    refine ⟨?_, Nat.le_add_right _ _⟩
    simp only [Balance.total, Frame.balance]
    omega
  grow f _ _ _ _ := .refl f.balance
  store f _ _ _ _ := .refl f.balance

/-- The message is a call that comes with a value. -/
def Message.passesValue (m : Message) : Bool :=
  !m.entry.creates && m.entry.movesValue && !m.value.isZero

/-- How many stipends a flow grants. -/
def Flow.grants : Flow → Nat
  | enter m _ => if m.passesValue then 1 else 0
  | _ => 0

theorem passesValue_calleeMessage {m : Message} {k : CallKind} {callee : Address} {value : Word}
    {input : ByteArray} {gas : Nat} (h : k.takesValue = false → value = .zero) :
    (calleeMessage m k callee value input gas).passesValue = !value.isZero := by
  cases k with
  | call | callCode => rfl
  | delegateCall | staticCall =>
    rw [h rfl]
    rfl

section

variable {tx : Tx} {f g : Frame} {fl : Flow}

theorem callValue_le_surcharge (v : View) (k : CallKind) (callee : Address) (value : Word) :
    (if value.isZero then 0 else Price.callValue) ≤ callSurcharge v k callee value := by
  unfold callSurcharge
  split
  · exact Nat.le_refl _
  · split <;> decide

/-- What a call pays for its value, with the stipend that it grants for it. -/
theorem Frame.tally_surcharged {f : Frame} {k : CallKind} {callee : Address} {value : Word}
    (h : callSurcharge f.view k callee value ≤ f.gasLeft) (hf : f.balance.total ≤ maxAmount) :
    Tally 0 (if value.isZero then 0 else 1) f.balance
      ((f.surcharged k callee value).balance.credit
        (if value.isZero then 0 else Price.stipend)) := by
  have hprice := callValue_le_surcharge f.view k callee value
  rw [surcharged, balance_paying h hf]
  refine ⟨?total, ?booked⟩
  case total =>
    simp only [Balance.total, Balance.credit, balance]
    split <;> omega
  case booked =>
    refine Nat.add_le_add_left (Nat.le_trans (Nat.le_of_eq ?_) hprice) _
    split <;> rfl

/-- A value that is passed is paid for, and a stipend comes with it. -/
theorem startCall_books {k : CallKind} (h : startCall k f = .ok fl g)
    (hf : f.balance.total ≤ maxAmount) :
    Tally 0 fl.grants f.balance (g.balance.credit fl.handed) := by
  obtain ⟨j, requested, callee, value, -, hj, hfw⟩ := startCall_forwards steady_books h
  have hfj := hj hf
  have htally := Frame.tally_surcharged hfw.covered (hfj.total_le hf)
  have hforward : (j.surcharged k callee value).forwarded requested ≤
      (j.surcharged k callee value).gasLeft :=
    Nat.le_trans (Nat.min_le_right _ _) (Nat.sub_le _ _)
  obtain ⟨input, out, rfl⟩ := hfw.flow
  obtain rfl := hfw.rest
  rw [Flow.handed, calleeMessage_gas, Frame.balance_spend hforward, Flow.grants,
    passesValue_calleeMessage hfw.valueless]
  refine hfj.free_trans ?_
  convert htally using 1
  cases value.isZero <;> rfl

theorem startCreate_books {salted : Bool} (h : startCreate salted f = .ok fl g)
    (hf : f.balance.total ≤ maxAmount) :
    Tally 0 fl.grants f.balance (g.balance.credit fl.handed) := by
  obtain ⟨-, entry, value, init, gas, hc, -, hfl⟩ := startCreate_inv h
  obtain ⟨j, m, hj, rfl, hm, rfl⟩ := startCreate_forwards steady_books h
  have hgrants : (Flow.enter m .create).grants = 0 := by
    have hm' : m.entry.creates = true := by cases hfl; exact hc
    simp only [Flow.grants, Message.passesValue, hm']
    rfl
  rw [hgrants]
  refine (hj hf).trans_free ?_
  change Tally 0 0 j.balance (Balance.credit _ (m.gas + 0))
  rw [Frame.balance_spend hm]
  exact .refl j.balance

theorem keeps_perform_books (tx : Tx) (offset : Nat) {op : Opcode} (h : op.sends = false) :
    Keeps Frame.Books (perform tx offset op) :=
  keeps_perform_unsent steady_books tx offset h (fun _ f _ _ => .refl f.balance)
    fun _ f _ _ _ => .refl f.balance

/-- An instruction books what it spends. What it hands to a callee it does not book, and a stipend
comes on top if a value is passed. -/
theorem step_books (h : step tx f = .ok fl g) (hf : f.balance.total ≤ maxAmount) :
    Tally 0 fl.grants f.balance (g.balance.credit fl.handed) := by
  obtain ⟨-, rfl, rfl⟩ | ⟨op, -, -, hgas, hp⟩ := step_inv h
  · exact .refl f.balance
  have hpaid : Tally 0 0 f.balance (f.prepared op).balance :=
    steady_books.pay f .opcodeBase hgas hf
  have hf' := hpaid.total_le hf
  refine hpaid.free_trans ?_
  cases hop : op.sends with
  | false =>
    have hb := (keeps_perform_books tx f.pc hop).ok hp hf'
    cases fl with
    | next | halt => exact hb
    | enter m r =>
      obtain ⟨k, rfl, -⟩ | ⟨salted, rfl, -⟩ := perform_enter_inv hp
      · cases hop
      · cases salted <;> cases hop
  | true =>
    cases op with
    | call k => exact startCall_books hp hf'
    | create | create2 => exact startCreate_books hp hf'
    | _ => cases hop

/-- An instruction that traps has booked what it has spent. -/
theorem step_trap_books {t : Trap} (h : step tx f = .error t g) : f.Books g := by
  obtain ⟨rfl, -⟩ | ⟨op, -, h | ⟨-, hgas, h⟩⟩ := step_trap_inv h
  · exact steady_books.refl f
  · exact (keeps_prepare steady_books (fun f _ _ => .refl f.balance) op f.pc).trap h
  intro hf
  have hpaid : Tally 0 0 f.balance (f.prepared op).balance :=
    steady_books.pay f .opcodeBase hgas hf
  have hf' := hpaid.total_le hf
  refine hpaid.free_trans ?_
  cases hop : op.sends with
  | false => exact (keeps_perform_books tx f.pc hop).trap h hf'
  | true =>
    cases op with
    | call k =>
      -- only a fault could strike after gas was spent and not booked
      have hleft : (f.prepared (.call k)).gasLeft ≤ maxAmount :=
        Nat.le_trans (Nat.le_add_left _ _) hf'
      refine keepsTrap_startCall steady_books k h (fun ht => ?_) hf'
      subst ht
      exact faultless_startCall k hleft g h
    | create | create2 =>
      refine keepsTrap_startCreate steady_books _ h (fun ht => ?_) hf'
      subst ht
      exact faultless_startCreate _ _ g h
    | _ => cases hop

end

/-! ## Reports -/

/-- What is booked when a message is answered, and what it gives back. -/
def Report.balance (x : Report) : Balance := ⟨x.profile.sum, x.outcome.gasLeft⟩

/-- A frame whose meter takes all gas that its callee gives back books what it does with the
report. -/
theorem finish_books (r : Resume) {x : Report} {f : Frame}
    (hlimit : f.gas.remaining + x.outcome.gasLeft ≤ f.gas.limit)
    (hf : (x.balance.credit f.gasLeft).total ≤ maxAmount) :
    Tally 0 0 (x.balance.credit f.gasLeft) (after (r.finish x.outcome (f.after x))).balance := by
  obtain ⟨output, -, hbooks⟩ := keeps_finish steady_books r x.outcome (f.after x)
  have hback : ((f.after x).takeBack { x.outcome with output }).balance =
      x.balance.credit f.gasLeft := by
    have hgas : f.gas.remaining + x.outcome.gasLeft = x.outcome.gasLeft + f.gasLeft :=
      Nat.add_comm _ _
    refine congrArg (Balance.mk _) ?_
    change min (saturate (f.gas.remaining + x.outcome.gasLeft)) f.gas.limit = _
    rw [saturate_of_le (hgas ▸ Nat.le_trans (Nat.le_add_left _ _) hf), Nat.min_eq_left hlimit, hgas]
    rfl
  rw [← hback] at hf ⊢
  exact hbooks hf

theorem keeps_deposit_books (code : ByteArray) : Keeps Frame.Books (deposit code) :=
  (keeps_ensure steady_books _ _).bind steady_books fun _ =>
    (keeps_ensure steady_books _ _).bind steady_books fun _ =>
    (keeps_bounded steady_books _).bind steady_books fun _ =>
    (keeps_charge steady_books _ _).bind steady_books fun _ =>
    (keeps_get steady_books).bind steady_books fun _ f _ => .refl f.balance

theorem Ended.settle_books (e : Ended) : e.frame.Books e.settle.frame := by
  unfold settle
  split
  · rename_i code _ _
    split
    · exact (keeps_deposit_books code).ok ‹_›
    · exact (keeps_deposit_books code).trap ‹_›
  · exact steady_books.refl e.frame

end ParticleChain.Evm
