import ParticleChain.Proofs.Evm.Books
import ParticleChain.Proofs.Evm.Conservation
import ParticleChain.Proofs.Evm.Evaluation
import ParticleChain.Proofs.Evm.Termination

/-!
# The profile accounts for all gas

`f.sends tx` lists the messages that a frame sends in its run, each followed by those that are sent
below it. Between the start of a frame and its end all gas is booked, but for the stipends that the
messages of the list are granted and for what is lost with those that fail (`run_tally`). So the
profile of a transaction adds up to the gas it used, after the same corrections
(`profile_accounts_for_gas`).
-/

namespace ParticleChain.Evm

open Exec

/-! ## Messages sent in a run -/

/-- A message with the world and the profile at which it is sent. -/
structure Sending where
  message : Message
  view : View
  profile : Profile

/-- A frame that a message starts has less gas than the frame that sends the message. -/
theorem Frame.started_lt {tx : Tx} {f g c : Frame} {m : Message} {r : Resume}
    (h : step tx f = .ok (.enter m r) g) (hc : m.enter g.view g.profile = .running c) :
    c.gasLeft < f.gasLeft := by
  have hu := m.enter_uses g.view g.profile
  rw [hc] at hu
  exact f.callee_lt h hu

/-- The messages sent in the run of a frame, in the order in which they are sent. -/
def Frame.sends (tx : Tx) (f : Frame) : List Sending :=
  match h : step tx f with
  | .error _ _ | .ok (.halt _) _ => []
  | .ok .next g =>
    have := step_next h
    g.sends tx
  | .ok (.enter m r) g =>
    let below := match hc : m.enter g.view g.profile with
      | .running c =>
        have := f.started_lt h hc
        c.sends tx
      | .answered _ _ => []
    let rest := match hk : g.answered tx m r with
      | .ok _ k =>
        have := (Turn.back h hk).gas_lt
        k.sends tx
      | .error _ _ => []
    ⟨m, g.view, g.profile⟩ :: (below ++ rest)
  termination_by f.gasLeft

/-- The messages sent in carrying out a message. -/
def Message.sends (tx : Tx) (m : Message) (v : View) (p : Profile) : List Sending :=
  match m.enter v p with
  | .running c => c.sends tx
  | .answered _ _ => []

section

variable {tx : Tx} {f g k : Frame} {m : Message} {r : Resume} {v : View} {p : Profile}

theorem Message.sends_answered {o : Outcome} {w : View} (h : m.enter v p = .answered o w) :
    m.sends tx v p = [] := by
  rw [sends, h]

theorem Message.sends_running {c : Frame} (h : m.enter v p = .running c) :
    m.sends tx v p = c.sends tx := by
  rw [sends, h]

namespace Frame

theorem sends_trap {t : Trap} (h : step tx f = .error t g) : f.sends tx = [] := by
  rw [sends]
  split <;> rename_i hs <;> first | rfl | cases h.symm.trans hs

theorem sends_halt {x : Halt} (h : step tx f = .ok (.halt x) g) : f.sends tx = [] := by
  rw [sends]
  split <;> rename_i hs <;> first | rfl | cases h.symm.trans hs

theorem sends_next (h : step tx f = .ok .next g) : f.sends tx = g.sends tx := by
  rw [sends]
  split <;> rename_i hs <;> cases h.symm.trans hs
  rfl

theorem sends_enter (h : step tx f = .ok (.enter m r) g) :
    f.sends tx = ⟨m, g.view, g.profile⟩ :: (m.sends tx g.view g.profile ++
      match g.answered tx m r with
      | .ok _ k => k.sends tx
      | .error _ _ => []) := by
  rw [sends]
  split <;> rename_i hs <;> cases h.symm.trans hs
  refine congrArg (List.cons _) (congrArg₂ _ ?below ?rest)
  case below =>
    split <;> rename_i hc
    · exact (Message.sends_running hc).symm
    · exact (Message.sends_answered hc).symm
  case rest => split <;> rename_i hk <;> simp only [hk]

theorem sends_back (h : step tx f = .ok (.enter m r) g) (hk : g.answered tx m r = .ok () k) :
    f.sends tx =
      ⟨m, g.view, g.profile⟩ :: (m.sends tx g.view g.profile ++ k.sends tx) := by
  rw [sends_enter h, hk]

theorem sends_stuck {t : Trap} (h : step tx f = .ok (.enter m r) g)
    (hk : g.answered tx m r = .error t k) :
    f.sends tx = ⟨m, g.view, g.profile⟩ :: m.sends tx g.view g.profile := by
  rw [sends_enter h, hk]
  dsimp only
  rw [List.append_nil]

end Frame

theorem Message.mem_sends {s : Sending} :
    s ∈ m.sends tx v p ↔ ∃ c, m.enter v p = .running c ∧ s ∈ c.sends tx := by
  unfold sends
  split <;> rename_i h <;> simp [h]

/-- The next instruction of the frame sends the message. -/
def Frame.SendsNext (tx : Tx) (f : Frame) (s : Sending) : Prop :=
  ∃ m r g, step tx f = .ok (.enter m r) g ∧ s = ⟨m, g.view, g.profile⟩

/-- What a run has sent is what the frames send that it comes through. -/
theorem Frame.reaches_of_mem_sends {s : Sending} (f : Frame) :
    s ∈ f.sends tx → ∃ g, f.Reaches tx g ∧ g.SendsNext tx s := by
  refine f.run_induction tx
    (motive := fun f _ => s ∈ f.sends tx → ∃ g, f.Reaches tx g ∧ g.SendsNext tx s)
    ?trap ?halt ?next ?back ?stuck
  case trap =>
    intro f g t h hs
    rw [sends_trap h] at hs
    cases hs
  case halt =>
    intro f g x h hs
    rw [sends_halt h] at hs
    cases hs
  case next =>
    intro f g h ih hs
    rw [sends_next h] at hs
    obtain ⟨d, hd, hsend⟩ := ih hs
    exact ⟨d, .turn (.next h) hd, hsend⟩
  case back =>
    intro f g k m r h hc hk ih hs
    rw [sends_back h hk, List.mem_cons, List.mem_append] at hs
    obtain rfl | hs | hs := hs
    · exact ⟨f, .refl f, m, r, g, h, rfl⟩
    · obtain ⟨c, he, hs⟩ := Message.mem_sends.1 hs
      obtain ⟨d, hd, hsend⟩ := hc c he hs
      exact ⟨d, .callee h he hd, hsend⟩
    · obtain ⟨d, hd, hsend⟩ := ih hs
      exact ⟨d, .turn (.back h hk) hd, hsend⟩
  case stuck =>
    intro f g k m r t h hc hk hs
    rw [sends_stuck h hk, List.mem_cons] at hs
    obtain rfl | hs := hs
    · exact ⟨f, .refl f, m, r, g, h, rfl⟩
    · obtain ⟨c, he, hs⟩ := Message.mem_sends.1 hs
      obtain ⟨d, hd, hsend⟩ := hc c he hs
      exact ⟨d, .callee h he hd, hsend⟩

theorem Frame.mem_sends_of_reaches {s : Sending} (h : f.Reaches tx g) (hs : g.SendsNext tx s) :
    s ∈ f.sends tx := by
  induction h with
  | refl f =>
    obtain ⟨m, r, g, h, rfl⟩ := hs
    rw [sends_enter h]
    exact List.mem_cons_self
  | turn ht _ ih =>
    have hmem := ih hs
    cases ht with
    | next h =>
      rw [sends_next h]
      exact hmem
    | back h hk =>
      rw [sends_back h hk]
      exact List.mem_cons_of_mem _ (List.mem_append_right _ hmem)
  | callee h hc _ ih =>
    rw [sends_enter h]
    exact List.mem_cons_of_mem _ (List.mem_append_left _ (Message.mem_sends.2 ⟨_, hc, ih hs⟩))

/-- The list is of the messages that are sent on the way of a message. -/
theorem Message.mem_sends_iff {s : Sending} :
    s ∈ m.sends tx v p ↔ ∃ f, m.Visits tx v p f ∧ f.SendsNext tx s := by
  rw [mem_sends]
  constructor
  · rintro ⟨c, hc, hs⟩
    obtain ⟨f, hf, hsend⟩ := c.reaches_of_mem_sends hs
    exact ⟨f, ⟨c, hc, hf⟩, hsend⟩
  · rintro ⟨f, ⟨c, hc, hf⟩, hsend⟩
    exact ⟨c, hc, Frame.mem_sends_of_reaches hf hsend⟩

end

/-! ## Stipends and losses -/

/-- The frame was trapped, be it while its code ran or when the code that it returned was stored. -/
def Ended.trapped (e : Ended) : Bool :=
  match e.halt with
  | .error _ => true
  | .ok _ => false

/-- A creation was refused because there is an account at the new address. -/
def Outcome.collided (o : Outcome) : Bool :=
  match o.status with
  | .failed (.addressCollision _) => true
  | _ => false

namespace Sending

def sends (tx : Tx) (s : Sending) : List Sending := s.message.sends tx s.view s.profile

/-- The message comes to a frame that traps, or to none because its new address is occupied. -/
def fails (tx : Tx) (s : Sending) : Bool :=
  match s.message.enter s.view s.profile with
  | .running c => (c.run tx).settle.trapped
  | .answered o _ => o.collided

/-- What the frame of the message has left in the end; if there is none, all its gas. -/
def unspent (tx : Tx) (s : Sending) : Nat :=
  match s.message.enter s.view s.profile with
  | .running c => (c.run tx).settle.frame.gasLeft
  | .answered _ _ => s.message.gas

/-- The gas lost with the message. -/
def lost (tx : Tx) (s : Sending) : Nat := if s.fails tx then s.unspent tx else 0

theorem lost_answered {tx : Tx} {s : Sending} {o : Outcome} {w : View}
    (h : s.message.enter s.view s.profile = .answered o w) :
    s.lost tx = if o.collided then s.message.gas else 0 := by
  rw [lost, fails, unspent, h]

theorem lost_running {tx : Tx} {s : Sending} {c : Frame}
    (h : s.message.enter s.view s.profile = .running c) :
    s.lost tx = if (c.run tx).settle.trapped then (c.run tx).settle.frame.gasLeft else 0 := by
  rw [lost, fails, unspent, h]

end Sending

/-- The gas lost with all messages of a list. -/
def lostGas (tx : Tx) (l : List Sending) : Nat := (l.map (·.lost tx)).sum

/-- How many messages of a list are granted a stipend. -/
def stipends (l : List Sending) : Nat := l.countP (·.message.passesValue)

theorem lostGas_cons (tx : Tx) (s : Sending) (l : List Sending) :
    lostGas tx (s :: l) = s.lost tx + lostGas tx l := rfl

theorem lostGas_append (tx : Tx) (l l' : List Sending) :
    lostGas tx (l ++ l') = lostGas tx l + lostGas tx l' := by
  rw [lostGas, List.map_append, List.sum_append]
  rfl

theorem stipends_cons (s : Sending) (l : List Sending) :
    stipends (s :: l) = (if s.message.passesValue then 1 else 0) + stipends l := by
  rw [stipends, List.countP_cons, Nat.add_comm]
  rfl

theorem stipends_append (l l' : List Sending) :
    stipends (l ++ l') = stipends l + stipends l' := List.countP_append

/-! ## Messages -/

section

variable {tx : Tx} {m : Message} {v : View} {p : Profile}

/-- An answer at once gives all gas back, unless the new address is occupied. Init code that is too
long would cost all gas too, but no instruction sends it. -/
theorem Message.answered_gas {o : Outcome} {w : View} (h : m.enter v p = .answered o w)
    (hs : m.entry.creates = true → m.input.size ≤ maxInitSize) :
    o.gasLeft + (if o.collided then m.gas else 0) = m.gas := by
  unfold enter at h
  split at h
  · rename_i t ht
    cases h
    unfold refusal? at ht
    split at ht
    · cases ht
      rfl
    · split at ht <;> cases ht
      rfl
  · split at h
    · rename_i hc
      unfold enterCreate at h
      dsimp only at h
      rw [if_neg (Nat.not_lt.2 (hs hc))] at h
      split at h
      · cases h
        rfl
      · split at h <;> cases h
        exact Nat.zero_add _
    · unfold enterCall at h
      extract_lets w' code at h
      split at h <;> cases h
      rfl

theorem balance_of_enter {c : Frame} (h : m.enter v p = .running c) :
    c.balance = ⟨p.sum, m.gas⟩ := by
  cases Message.opens_of h with
  | call | init => rfl

/-- A frame that traps loses what it has left. -/
theorem Ended.close_tally (e : Ended) :
    Tally (if e.settle.trapped then e.settle.frame.gasLeft else 0) 0 e.settle.frame.balance
      e.close.balance := by
  have hgas : e.close.outcome.gasLeft =
      if e.settle.trapped then 0 else e.settle.frame.gasLeft := by
    unfold close outcome trapped
    dsimp only
    split <;> rename_i hh <;> rw [hh] <;> rfl
  refine ⟨?_, Nat.le_refl _⟩
  change e.settle.frame.profile.sum + e.close.outcome.gasLeft + _ =
    e.settle.frame.profile.sum + e.settle.frame.gasLeft + _
  rw [hgas]
  split <;> omega

/-- What a message has lost and granted by the time it is answered, if the frame that it starts
keeps its books. -/
theorem execute_tally {s : Sending}
    (hs : s.message.entry.creates = true → s.message.input.size ≤ maxInitSize)
    (hfits : Balance.Fits ⟨s.profile.sum, s.message.gas⟩)
    (hrun : ∀ c, s.message.enter s.view s.profile = .running c → c.balance.Fits →
      Tally (lostGas tx (c.sends tx)) (stipends (c.sends tx)) c.balance (c.run tx).frame.balance) :
    Tally (lostGas tx (s :: s.sends tx)) (stipends (s.sends tx))
      ⟨s.profile.sum, s.message.gas⟩ (execute tx s.message s.view s.profile).balance := by
  rw [lostGas_cons, Sending.sends]
  cases h : s.message.enter s.view s.profile with
  | answered o w =>
    have hgas := Message.answered_gas h hs
    rw [execute_answered h, Message.sends_answered h, Sending.lost_answered h]
    refine ⟨?_, Nat.le_refl _⟩
    change s.profile.sum + o.gasLeft + _ = s.profile.sum + s.message.gas
    rw [Nat.add_assoc]
    exact congrArg _ hgas
  | running c =>
    rw [execute_running h, Message.sends_running h, Sending.lost_running h]
    rw [← balance_of_enter h] at hfits ⊢
    have hend := hrun c h hfits
    have hsettle := (c.run tx).settle_books (hend.fits hfits).total
    rw [Nat.add_comm]
    exact (hend.trans_free hsettle).trans (c.run tx).close_tally

end

/-! ## Runs -/

section

variable {tx : Tx} {f g : Frame} {m : Message} {r : Resume}

/-- An instruction sends no init code that is too long. -/
theorem size_of_sent (h : step tx f = .ok (.enter m r) g) (hc : m.entry.creates = true) :
    m.input.size ≤ maxInitSize := by
  obtain ⟨op, -, -, ⟨k, -, h⟩ | ⟨salted, -, h⟩⟩ := enter_inv h
  · obtain ⟨a, ws, i, o, input, gas, hcall⟩ := startCall_inv h
    cases hcall.flow
    cases k <;> cases hc
  · obtain ⟨-, entry, value, init, gas, -, hsize, hfl⟩ := startCreate_inv h
    cases hfl
    exact hsize

/-- A frame that sends a message and takes up the answer: what the message has lost and granted, and
those sent below it. -/
theorem answered_tally (h : step tx f = .ok (.enter m r) g) (hf : f.Sound) (hfits : f.balance.Fits)
    (hrun : ∀ c, m.enter g.view g.profile = .running c → c.balance.Fits →
      Tally (lostGas tx (c.sends tx)) (stipends (c.sends tx)) c.balance (c.run tx).frame.balance) :
    let l := ⟨m, g.view, g.profile⟩ :: m.sends tx g.view g.profile
    Tally (lostGas tx l) (stipends l) f.balance (after (g.answered tx m r)).balance := by
  intro l
  have hsent := step_books h hfits.total
  -- while the message is carried out, what the frame has kept is set aside
  have hcredit : g.balance.credit m.gas = Balance.credit ⟨g.profile.sum, m.gas⟩ g.gasLeft :=
    congrArg (Balance.mk _) (Nat.add_comm _ _)
  rw [Flow.handed, hcredit] at hsent
  have hexecute := (execute_tally (s := ⟨m, g.view, g.profile⟩) (size_of_sent h)
    (hsent.fits hfits).of_credit hrun).credit g.gasLeft
  have hreport := hsent.trans hexecute
  have hback := finish_books r (hf.reclaim h) (hreport.fits hfits).total
  rw [Nat.zero_add] at hreport
  rw [stipends_cons]
  exact hreport.trans_free hback

/-- Between the start of a frame and its end all gas is booked, but for what the messages sent on
the way are granted and what is lost with them. -/
theorem run_tally (tx : Tx) (f : Frame) : f.Sound → f.balance.Fits →
    Tally (lostGas tx (f.sends tx)) (stipends (f.sends tx)) f.balance (f.run tx).frame.balance := by
  -- `Fits` keeps the profile from its cap, `Sound` keeps a meter from cutting off what comes back
  refine f.run_induction tx
    (motive := fun f e => f.Sound → f.balance.Fits →
      Tally (lostGas tx (f.sends tx)) (stipends (f.sends tx)) f.balance e.frame.balance)
    ?trap ?halt ?next ?back ?stuck
  case trap =>
    intro f g t h _ hfits
    rw [Frame.sends_trap h]
    exact step_trap_books h hfits.total
  case halt =>
    intro f g x h _ hfits
    rw [Frame.sends_halt h]
    exact step_books h hfits.total
  case next =>
    intro f g h ih hf hfits
    have hstep : Tally 0 0 f.balance g.balance := step_books h hfits.total
    rw [Frame.sends_next h]
    exact hstep.free_trans (ih (hf.turn (.next h)) (hstep.fits hfits))
  case back =>
    intro f g k m r h hc hk ih hf hfits
    have hturn := answered_tally h hf hfits fun c he => hc c he (sound_of_enter he)
    rw [hk] at hturn
    rw [Frame.sends_back h hk, ← List.cons_append, lostGas_append, stipends_append]
    exact hturn.trans (ih (hf.turn (.back h hk)) (hturn.fits hfits))
  case stuck =>
    intro f g k m r t h hc hk hf hfits
    have hturn := answered_tally h hf hfits fun c he => hc c he (sound_of_enter he)
    rw [hk] at hturn
    rw [Frame.sends_stuck h hk]
    exact hturn

end

/-! ## Transactions -/

section

variable {b : Block} {w : World} {m : Message}

theorem size_of_status {tx : Tx} {v : View} {p : Profile}
    (h : ∀ t, (execute tx m v p).outcome.status ≠ .failed t) (hc : m.entry.creates = true) :
    m.input.size ≤ maxInitSize := by
  cases he : m.enter v p with
  | answered o u =>
    rw [execute_answered he] at h
    cases Message.opens_of he with
    | turnedDown t => exact absurd rfl (h t)
    | collision hd => exact hd.2.2.1
    | noCode _ hn => cases hc.symm.trans hn
  | running c =>
    cases Message.opens_of he with
    | call _ hn => cases hc.symm.trans hn
    | init hd => exact hd.2.2.1

/-- Nothing is lost with a message that does not fail. -/
theorem lost_of_status {tx : Tx} {s : Sending}
    (h : ∀ t, (execute tx s.message s.view s.profile).outcome.status ≠ .failed t) :
    s.lost tx = 0 := by
  cases he : s.message.enter s.view s.profile with
  | answered o u =>
    rw [execute_answered he] at h
    rw [Sending.lost_answered he]
    unfold Outcome.collided
    split
    · rename_i hs
      exact absurd hs (h _)
    · rfl
  | running c =>
    rw [execute_running he] at h
    rw [Sending.lost_running he]
    unfold Ended.trapped
    split
    · rename_i t hh
      refine absurd ?_ (h t)
      unfold Ended.close Ended.outcome
      dsimp only
      rw [hh]
      rfl
    · rfl

theorem sum_bill (hgas : m.gas < 2 ^ 63) (hg : intrinsicGas m.input m.entry.creates ≤ m.gas) :
    m.bill.sum = intrinsicGas m.input m.entry.creates := by
  have hmax : maxAmount = 2 ^ 64 - 1 := rfl
  have hempty : Profile.empty.sum = 0 := rfl
  rw [Message.bill, Profile.sum_add (by omega), hempty, Nat.zero_add]

theorem fits_of_charged (hgas : m.gas < 2 ^ 63)
    (hg : intrinsicGas m.input m.entry.creates ≤ m.gas) :
    Balance.Fits ⟨m.bill.sum, m.charged.gas⟩ := by
  rw [sum_bill hgas hg]
  simp only [Balance.Fits, Balance.worth, Message.charged, Price.callValue, Price.stipend]
  omega

/-- A transaction that does not fail has paid its intrinsic gas, and reports what its message comes
to. -/
theorem transact_of_status (h : ∀ t, (transact b w m).outcome.status ≠ .failed t) :
    intrinsicGas m.input m.entry.creates ≤ m.gas ∧
      let x := execute ⟨b, m.caller⟩ m.charged (View.ofWorld w).enter m.bill
      (transact b w m).outcome = x.outcome ∧ (transact b w m).profile = x.profile := by
  unfold transact at h ⊢
  dsimp only at h ⊢
  split at h
  · exact absurd rfl (h _)
  · rename_i hg
    rw [if_neg hg]
    exact ⟨Nat.not_lt.1 hg, rfl, rfl⟩

/-- What a transaction that does not fail has lost and granted. -/
theorem transact_tally (hgas : m.gas < 2 ^ 63)
    (hs : ∀ t, (transact b w m).outcome.status ≠ .failed t) :
    let x := transact b w m
    let l := m.charged.sends ⟨b, m.caller⟩ (View.ofWorld w).enter m.bill
    Tally (lostGas ⟨b, m.caller⟩ l) (stipends l) ⟨m.bill.sum, m.charged.gas⟩
      ⟨x.profile.sum, x.outcome.gasLeft⟩ := by
  intro x l
  obtain ⟨hg, ho, hp⟩ := transact_of_status hs
  have hstatus := fun t => ho ▸ hs t
  have htally := execute_tally (s := ⟨m.charged, (View.ofWorld w).enter, m.bill⟩)
    (size_of_status hstatus) (fits_of_charged hgas hg)
    fun c hc => run_tally ⟨b, m.caller⟩ c (sound_of_enter hc)
  rw [lostGas_cons, lost_of_status hstatus, Nat.zero_add, Report.balance, ← ho, ← hp] at htally
  exact htally

end

/-- Where no message fails, nothing is lost. -/
theorem lostGas_eq_zero {tx : Tx} {l : List Sending} (h : ∀ s ∈ l, s.fails tx = false) :
    lostGas tx l = 0 := by
  refine List.sum_eq_zero fun n hn => ?_
  obtain ⟨s, hs, rfl⟩ := List.mem_map.1 hn
  rw [Sending.lost, h s hs]
  rfl

theorem stipends_eq_zero {l : List Sending} (h : ∀ s ∈ l, s.message.passesValue = false) :
    stipends l = 0 :=
  List.countP_eq_zero.2 fun s hs => Bool.eq_false_iff.1 (h s hs)

/-- The gas profile of a transaction that does not fail accounts for all gas. It adds up to the gas
used, with a stipend more for each call that passes a value, and less what is lost with the
messages that fail: what a frame has left when it traps, and all gas of a creation whose address is
occupied. -/
theorem profile_accounts_for_gas (b : Block) (w : World) (m : Message) (hgas : m.gas < 2 ^ 63)
    (hs : ∀ t, (transact b w m).outcome.status ≠ .failed t) :
    let x := transact b w m
    let l := m.charged.sends ⟨b, m.caller⟩ (View.ofWorld w).enter m.bill
    (x.profile.total : Int) = (m.gas - x.outcome.gasLeft) + Price.stipend * stipends l -
      lostGas ⟨b, m.caller⟩ l ∧
    ((∀ s ∈ l, s.fails ⟨b, m.caller⟩ = false ∧ s.message.passesValue = false) →
      x.profile.total = m.gas - x.outcome.gasLeft) := by
  intro x l
  have hg := (transact_of_status hs).1
  have htally := transact_tally hgas hs
  have hsum : x.profile.total = x.profile.sum := by
    have hfits := (htally.fits (fits_of_charged hgas hg)).total
    rw [Profile.total_eq, saturate_of_le (Nat.le_trans (Nat.le_add_right _ _) hfits)]
  have hbooked : x.profile.total + x.outcome.gasLeft + lostGas ⟨b, m.caller⟩ l =
      m.gas + Price.stipend * stipends l := by
    have htotal := htally.total
    rw [Balance.total, Balance.total, sum_bill hgas hg, ← hsum] at htotal
    refine htotal.trans (congrArg (· + _) ?_)
    exact Nat.add_sub_cancel' hg
  refine ⟨by omega, fun h => ?_⟩
  rw [lostGas_eq_zero fun s hs => (h s hs).1, stipends_eq_zero fun s hs => (h s hs).2] at hbooked
  omega

/-! ## A value lost on a trap -/

/-- Code that calls the account at address eight with all the gas it may forward and a value of
one. -/
def tosserCode : ByteArray :=
  Bytes.ofList [0x5f, 0x5f, 0x5f, 0x5f, 0x60, 0x01, 0x60, 0x08, 0x5a, 0xf1]

/-- A contract with that code, which has the value, and one that always traps. -/
def tosser : World :=
  (World.ofContract ⟨7, 0, 0⟩ .one tosserCode).setAccount ⟨8, 0, 0⟩
    (some ((Account.withBalance .zero).setCode (Bytes.ofList [0xfe])))

def toss : Message := .plainCall .zero ⟨7, 0, 0⟩ .empty 40000 .zero

theorem toss_succeeds : (transact? 12 .standard tosser toss).any (fun x =>
    x.outcome.status == .success && x.outcome.gasLeft == 154 && x.profile.total == 30116) =
      true := by
  decide +kernel

def tossStart : Frame :=
  .start toss.charged tosserCode (View.ofWorld tosser).enter.enter toss.bill

/-- After seven instructions the contract passes its value. -/
theorem toss_passes : (tossStart.turns? ⟨.standard, .zero⟩ 0 7).any (fun f =>
    match step ⟨.standard, .zero⟩ f with
    | .ok (.enter m _) _ => m.passesValue
    | _ => false) = true := by
  decide +kernel

/-- The callee has the 9730 gas that were forwarded, and a stipend. All of it is lost. -/
theorem profile_accounts_for_gas_toss :
    let tx : Tx := ⟨.standard, .zero⟩
    let x := transact .standard tosser toss
    let l := toss.charged.sends tx (View.ofWorld tosser).enter toss.bill
    toss.gas < 2 ^ 63 ∧ x.outcome.status = .success ∧ x.outcome.gasLeft = 154 ∧
    x.profile.total = 30116 ∧ 0 < stipends l ∧
    lostGas tx l = 9730 + Price.stipend * stipends l := by
  intro tx x l
  obtain ⟨y, hrun, hy⟩ := (Option.any_eq_true _ _).1 toss_succeeds
  obtain rfl : x = y := transact_of_transact? hrun
  simp only [Bool.and_eq_true, beq_iff_eq] at hy
  obtain ⟨⟨hs, hleft⟩, htotal⟩ := hy
  refine ⟨by decide, hs, hleft, htotal, ?_, ?_⟩
  · obtain ⟨f, hf, h⟩ := (Option.any_eq_true _ _).1 toss_passes
    have hv : toss.charged.Visits tx (View.ofWorld tosser).enter toss.bill f :=
      ⟨tossStart, rfl, Frame.reaches_of_turns? hf⟩
    split at h
    · rename_i m r g hstep
      exact List.countP_pos_iff.2 ⟨_, Message.mem_sends_iff.2 ⟨f, hv, m, r, g, hstep, rfl⟩, h⟩
    · cases h
  · obtain ⟨hbooks, -⟩ := profile_accounts_for_gas .standard tosser toss (by decide) fun t ht =>
      Status.noConfusion (hs.symm.trans ht)
    change (x.profile.total : Int) = (40000 - x.outcome.gasLeft) + Price.stipend * stipends l -
      lostGas tx l at hbooks
    omega

end ParticleChain.Evm
