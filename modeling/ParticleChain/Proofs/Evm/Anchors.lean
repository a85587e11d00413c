import ParticleChain.Proofs.Evm.Lasting
import ParticleChain.Proofs.Evm.Rollback

/-!
# Slots belong to accounts

In an anchored view every slot that is not zero belongs to an account with a property `Q`, or to
an address that is excused. The property lasts as long as the account does
(`Account.Abiding`), so only the removal of an account, or code that runs at an address without
such an account, can loosen a slot. A frame is anchored if its view is and it runs at an account
with `Q`, or at an excused address; then so are the frames that it starts and the frame that goes
on (`run_anchored`).

`f.Behind tx g h` says which frames `g` have ended before the run of `f` comes to `h`. For a frame
on the way only the addresses that such frames removed are excused (`Reaches.anchored`).
-/

namespace ParticleChain.Evm

open Message (occupied)

/-! ## Views -/

/-- A property that lasts as long as an account does, and that every occupied account has. -/
structure Account.Abiding (Q : Account → Prop) : Prop where
  continues : ∀ {x y : Account}, x.Continues y → Q x → Q y
  occupied : ∀ {x : Account}, Message.occupied x = true → Q x

theorem Account.abiding_true : Abiding fun _ => True := ⟨fun _ _ => trivial, fun _ => trivial⟩

theorem Account.abiding_occupied : Abiding fun x => Message.occupied x = true :=
  ⟨fun h hx => h.remains hx, id⟩

namespace View

variable {Q : Account → Prop} {X Y : Address → Prop} {u v w : View} {a : Address}

/-- The address is excused, or has an account with `Q`. -/
def Holds (Q : Account → Prop) (X : Address → Prop) (v : View) (a : Address) : Prop :=
  X a ∨ ∃ x, v.account? a = some x ∧ Q x

/-- Every slot that is not zero belongs to an address that holds. -/
def Anchored (Q : Account → Prop) (X : Address → Prop) (v : View) : Prop :=
  ∀ s, v.slot s ≠ .zero → v.Holds Q X s.owner

theorem Holds.mono (h : v.Holds Q X a) (hXY : ∀ a, X a → Y a) : v.Holds Q Y a := h.imp_left (hXY a)

theorem Anchored.mono (h : v.Anchored Q X) (hXY : ∀ a, X a → Y a) : v.Anchored Q Y :=
  fun s hs => (h s hs).mono hXY

theorem Holds.lasts (hQ : ∀ x y : Account, x.Continues y → Q x → Q y) (h : v.Holds Q X a)
    (hl : v.Lasts X w) : w.Holds Q X a := by
  obtain hX | ⟨x, hx, hq⟩ := h
  · exact .inl hX
  · obtain hX | ⟨y, hy, hxy⟩ := hl a x hx
    · exact .inl hX
    · exact .inr ⟨y, hy, hQ x y hxy hq⟩

/-- Slots may be cleared, as long as the accounts last. -/
theorem Anchored.lasts (hQ : Account.Abiding Q) (h : v.Anchored Q X) (hl : v.Lasts X w)
    (hs : ∀ s, w.slot s = v.slot s ∨ w.slot s = .zero) : w.Anchored Q X := by
  intro s hne
  obtain he | hz := hs s
  · rw [he] at hne
    exact (h s hne).lasts (fun _ _ => hQ.continues) hl
  · exact absurd hz hne

end View

/-! ## Messages -/

namespace Message

variable {Q : Account → Prop} {X Y : Address → Prop} {m : Message} {v : View} {p : Profile}
  {c : Frame}

theorem slot_calleeView (m : Message) (v : View) (s : Slot) :
    (m.calleeView v).slot s = v.slot s := by
  unfold calleeView
  split
  · exact (View.slot_transfer _ _ _ _ s).trans (v.slot_enter s)
  · exact v.slot_enter s

theorem slot_initView (m : Message) (v : View) (s : Slot) : (m.initView v).slot s = v.slot s := by
  unfold initView freshView View.bumpNonce
  rw [View.slot_transfer, View.slot_setAccount_some, View.slot_enter, View.slot_setAccount_some]

/-- A creation, a call of an account by its own address, or a call at an address that holds. -/
def Grounded (Q : Account → Prop) (X : Address → Prop) (m : Message) (v : View) : Prop :=
  m.entry.creates = true ∨ m.codeAddress = m.address ∨ v.Holds Q X m.address

theorem Grounded.mono (h : m.Grounded Q X v) (hXY : ∀ a, X a → Y a) : m.Grounded Q Y v :=
  h.imp_right (.imp_right (·.mono hXY))

/-- Init code runs at an account with a nonce. -/
theorem holds_initView (m : Message) (v : View) :
    (m.initView v).Holds (fun x => x.nonce ≠ 0) X (m.target v) := by
  refine View.Holds.lasts (v := m.freshView v) ?_ ?_ (View.lasts_transfer _ _ _ _)
  · intro x y h hx
    have := h.nonce
    omega
  · refine .inr ⟨_, (View.account?_setAccount _ _ _ _).trans (if_pos rfl), Nat.one_ne_zero⟩

/-- Where there is code, there is an account that is occupied. -/
theorem holds_of_code (hQ : Account.Abiding Q) {a : Address}
    (h : (v.account a).code.size ≠ 0) : v.Holds Q X a := by
  unfold View.account at h
  cases hx : v.account? a with
  | none =>
    rw [hx] at h
    exact absurd rfl h
  | some x =>
    rw [hx] at h
    exact .inr ⟨x, hx, hQ.occupied (Account.occupied_iff.2 (.inr h))⟩

end Message

/-! ## Frames -/

/-- The view is anchored, and the frame runs at an address that holds. -/
structure Frame.Anchored (Q : Account → Prop) (X : Address → Prop) (f : Frame) : Prop where
  view : f.view.Anchored Q X
  self : f.view.Holds Q X f.message.address

section

variable {tx : Tx} {Q : Account → Prop} {X Y : Address → Prop} {f g c k h : Frame} {m : Message}
  {r : Resume} {v : View} {p : Profile}

theorem Frame.Anchored.mono (hf : f.Anchored Q X) (hXY : ∀ a, X a → Y a) : f.Anchored Q Y :=
  ⟨hf.view.mono hXY, hf.self.mono hXY⟩

theorem Frame.Anchored.quiet (hf : f.Anchored Q X) (hq : f.Quiet g) : g.Anchored Q X := by
  constructor
  · rw [hq.view]
    exact hf.view
  · rw [hq.view, hq.message]
    exact hf.self

theorem Message.anchored_of_enter (hQ : Account.Abiding Q) (hv : v.Anchored Q X)
    (hm : m.Grounded Q X v) (he : m.enter v p = .running c) : c.Anchored Q X := by
  have hl : v.Lasts X c.view := m.lasts_of_enter he
  cases opens_of he with
  | call _ hc hz =>
    refine ⟨hv.lasts hQ hl fun s => .inl (m.slot_calleeView v s), ?_⟩
    rcases hm with hn | ha | hh
    · rw [hc] at hn
      cases hn
    · rw [ha] at hz
      exact holds_of_code hQ hz
    · exact hh.lasts (fun _ _ => hQ.continues) hl
  | init _ ho =>
    refine ⟨hv.lasts hQ hl fun s => .inl (m.slot_initView v s), ?_⟩
    exact (m.holds_initView v).imp_right fun ⟨x, hx, hn⟩ =>
      ⟨x, hx, hQ.occupied (Account.occupied_iff.2 (.inl hn))⟩

/-- An anchored frame sends only messages that are grounded. -/
theorem Frame.Anchored.grounded (hf : f.Anchored Q X) (hs : step tx f = .ok (.enter m r) g) :
    m.Grounded Q X g.view := by
  rw [(step_enter_quiet hs).view]
  obtain ⟨op, -, -, ⟨k, rfl, hc⟩ | ⟨salted, -, hc⟩⟩ := enter_inv hs
  · obtain ⟨a, ws, i, o, input, gas, hc⟩ := startCall_inv hc
    obtain ⟨rfl, -⟩ := Flow.enter.inj hc.flow
    cases k with
    | call | staticCall => exact .inr (.inl rfl)
    | callCode | delegateCall => exact .inr (.inr hf.self)
  · obtain ⟨-, entry, value, init, gas, he, -, hm⟩ := startCreate_inv hc
    obtain ⟨rfl, -⟩ := Flow.enter.inj hm
    exact .inl he

theorem step_anchored (hQ : Account.Abiding Q) (hX : ∀ a, f.Destroys tx a → X a) {fl : Flow}
    (hf : f.Anchored Q X) (hs : step tx f = .ok fl g) : g.Anchored Q X := by
  have hl := step_lasts hX hs
  have self : g.view.Holds Q X g.message.address := by
    rw [(step_effect hs).message]
    exact hf.self.lasts (fun _ _ => hQ.continues) hl
  refine ⟨?_, self⟩
  cases step_effect hs with
  | quiet hq | log _ _ _ _ hq =>
    exact hf.view.lasts hQ hl fun s => .inl (congrArg (View.slot · s) hq.view)
  | store _ key _ _ _ _ hq =>
    intro s hne
    by_cases he : s = ⟨f.message.address, key⟩
    · rw [he, ← (show g.message = f.message from hq.message)]
      exact self
    · have hold : g.view.slot s = f.view.slot s := by
        rw [hq.view]
        exact (View.slot_setSlot _ _ _ _).trans (if_neg he)
      rw [hold] at hne
      exact (hf.view s hne).lasts (fun _ _ => hQ.continues) hl
  | destroy _ _ _ _ _ hq =>
    refine hf.view.lasts hQ hl fun s => ?_
    rw [hq.view]
    simp only [Frame.destroying, View.slot_setAccount, View.slot_transfer]
    split
    · exact .inr rfl
    · exact .inl rfl

/-! ## Runs -/

theorem Ended.settle_anchored (hQ : Account.Abiding Q) {e : Ended} (he : e.frame.view.Anchored Q X)
    (hn : e.frame.message.entry.creates = true →
      e.frame.view.Holds (fun x => x.nonce ≠ 0) X e.frame.message.address) :
    e.settle.frame.view.Anchored Q X := by
  match e.settle, e.settles with
  | _, .same _ => exact he
  | _, .trapped _ _ _ hq =>
    rw [hq.view]
    exact he
  | _, .deposited code _ hc _ _ _ hq =>
    -- The account gets its code; as it has a nonce, it stays occupied even if that is empty.
    rw [hq.view]
    intro s hne
    have hne : e.frame.view.slot s ≠ .zero := by
      rwa [Frame.depositing, View.slot_setAccount_some] at hne
    by_cases ha : s.owner = e.frame.message.address
    · rw [ha]
      obtain hX | ⟨x, hx, hn⟩ := hn hc
      · exact .inl hX
      · refine .inr ⟨_, (View.account?_setAccount _ _ _ _).trans (if_pos rfl), ?_⟩
        rw [View.account_of_some hx]
        exact hQ.occupied (Account.occupied_iff.2 (.inl hn))
    · obtain hX | ⟨x, hx, hq⟩ := he s hne
      · exact .inl hX
      · refine .inr ⟨x, ?_, hq⟩
        rw [Frame.depositing, View.account?_setAccount, if_neg ha]
        exact hx

theorem execute_anchored_of (hQ : Account.Abiding Q) (hv : v.Anchored Q X)
    (hm : m.Grounded Q X v) (hX : ∀ f, m.Visits tx v p f → ∀ a, f.Destroys tx a → X a)
    (hrun : ∀ c, m.enter v p = .running c → c.Anchored Q X → (c.run tx).frame.Anchored Q X) :
    (execute tx m v p).view.Anchored Q X := by
  cases he : m.enter v p with
  | answered o w =>
    rw [execute_answered he]
    cases Message.opens_of he with
    | turnedDown => exact hv
    | collision =>
      exact hv.lasts hQ (v.lasts_bumpNonce m.caller) fun s => .inl (View.slot_setAccount_some _ _ _ s)
    | noCode =>
      have ho := m.over_calleeView v
      refine hv.lasts hQ ((m.lasts_calleeView v).trans ho.lasts_commit) fun s => ?_
      rw [← m.slot_calleeView v s]
      exact ho.slot_commit s
  | running c =>
    rw [execute_running he]
    have hover := run_over tx c _ (Message.over_floor he)
    obtain ⟨-, hw⟩ | ⟨-, hw⟩ := Ended.close_view hover
    · rw [hw]
      have hend := hrun c he (m.anchored_of_enter hQ hv hm he)
      have hl := (carried_lasts tx X).run c fun f hf => hX f ⟨c, he, hf.reaches⟩
      have ho := Ended.over_settle hover
      refine View.Anchored.lasts hQ (Ended.settle_anchored hQ hend.view fun hc => ?_)
        ho.lasts_commit ho.slot_commit
      rw [run_message] at hc ⊢
      refine View.Holds.lasts (fun x y hxy hx => ?_) ?_ hl
      · have := hxy.nonce
        omega
      · cases Message.opens_of he with
        | call _ hn =>
          rw [show m.entry.creates = true from hc] at hn
          cases hn
        | init => exact m.holds_initView v
    · rw [hw]
      exact hv.lasts hQ ((carried_lasts tx X).floor m v) fun s => .inl (m.slot_floor v s)

/-- An anchored frame that goes on after a message, or traps then, is anchored. -/
theorem Frame.Anchored.resumed (hQ : Account.Abiding Q) (hf : f.Anchored Q X)
    (hs : step tx f = .ok (.enter m r) g)
    (hX : ∀ h, m.Visits tx g.view g.profile h → ∀ a, h.Destroys tx a → X a)
    (hrun : ∀ c, m.enter g.view g.profile = .running c → c.Anchored Q X →
      (c.run tx).frame.Anchored Q X)
    (hk : g.Resumed k (execute tx m g.view g.profile)) : k.Anchored Q X := by
  have hg := hf.quiet (step_enter_quiet hs)
  constructor
  · rw [hk.view]
    exact execute_anchored_of hQ hg.view (hf.grounded hs) hX hrun
  · rw [hk.view, hk.message]
    exact hg.self.lasts (fun _ _ => hQ.continues)
      ((carried_lasts tx X).execute m g.view g.profile fun f hf => hX f hf.visits)

/-- An anchored frame ends anchored, if all addresses that its run removes are excused. -/
theorem run_anchored (tx : Tx) (hQ : Account.Abiding Q) (f : Frame) :
    (∀ g, f.Reaches tx g → ∀ a, g.Destroys tx a → X a) → f.Anchored Q X →
      (f.run tx).frame.Anchored Q X := by
  refine f.run_induction tx (motive := fun f e =>
    (∀ g, f.Reaches tx g → ∀ a, g.Destroys tx a → X a) → f.Anchored Q X → e.frame.Anchored Q X)
    ?trap ?halt ?next ?back ?stuck
  case trap =>
    intro f g t h _ hf
    exact hf.quiet (step_trap_quiet h)
  case halt =>
    intro f g x h hX hf
    exact step_anchored hQ (hX f (.refl f)) hf h
  case next =>
    intro f g h ih hX hf
    exact ih (fun k hk => hX k (.turn (.next h) hk)) (step_anchored hQ (hX f (.refl f)) hf h)
  case back =>
    intro f g k m r h hc hk ih hX hf
    refine ih (fun d hd => hX d (.turn (.back h hk) hd)) ?_
    exact hf.resumed hQ h (fun d ⟨c, he, hd⟩ => hX d (.callee h he hd))
      (fun c he => hc c he fun d hd => hX d (.callee h he hd)) (Frame.resumed_ok hk)
  case stuck =>
    intro f g k m r t h hc hk hX hf
    exact hf.resumed hQ h (fun d ⟨c, he, hd⟩ => hX d (.callee h he hd))
      (fun c he => hc c he fun d hd => hX d (.callee h he hd)) (Frame.resumed_error hk)

theorem execute_anchored (hQ : Account.Abiding Q) (hv : v.Anchored Q X) (hm : m.Grounded Q X v)
    (hX : ∀ f, m.Visits tx v p f → ∀ a, f.Destroys tx a → X a) :
    (execute tx m v p).view.Anchored Q X :=
  execute_anchored_of hQ hv hm hX fun c he => run_anchored tx hQ c fun f hf => hX f ⟨c, he, hf⟩

/-! ## On the way -/

/-- The run of the first frame comes through the second, in a frame that has ended by then, before
it comes through the third. -/
inductive Frame.Behind (tx : Tx) : Frame → Frame → Frame → Prop
  | callee {f g c d k h : Frame} {m : Message} {r : Resume}
      (hs : step tx f = .ok (.enter m r) g) (hc : m.enter g.view g.profile = .running c)
      (hd : c.Reaches tx d) (hk : g.answered tx m r = .ok () k) (hh : k.Reaches tx h) :
    Behind tx f d h
  | turn {f g d h : Frame} (ht : f.Turn tx g) (hb : Behind tx g d h) : Behind tx f d h
  | inside {f g c d h : Frame} {m : Message} {r : Resume} (hs : step tx f = .ok (.enter m r) g)
      (hc : m.enter g.view g.profile = .running c) (hb : Behind tx c d h) : Behind tx f d h

/-- A frame that goes on has not removed its account. -/
theorem Frame.not_destroys {fl : Flow} (hs : step tx f = .ok fl g) (hfl : fl.goesOn = true)
    (a : Address) : ¬ f.Destroys tx a := by
  intro hd
  obtain ⟨-, -, hp⟩ := step_performs hd.opcode hs
  rw [(destroy_inv hp).2.1] at hfl
  cases hfl

/-- A frame on the way of an anchored one is anchored, with the addresses excused besides that
were removed before. -/
theorem Frame.Reaches.anchored (hQ : Account.Abiding Q) (hr : f.Reaches tx h) :
    ∀ X : Address → Prop, f.Anchored Q X →
      h.Anchored Q fun a => X a ∨ ∃ d, f.Behind tx d h ∧ d.Destroys tx a := by
  induction hr with
  | refl => exact fun X hf => hf.mono fun _ => .inl
  | @turn f g h ht hr ih =>
    intro X hf
    cases ht with
    | next hs =>
      refine (ih X ?_).mono fun a => .imp_right fun ⟨d, hb, hd⟩ => ⟨d, .turn (.next hs) hb, hd⟩
      exact step_anchored hQ (fun a hd => absurd hd (not_destroys hs rfl a)) hf hs
    | @back g' _ m r hs hk =>
      have hg := (hf.mono (Y := fun a => X a ∨ ∃ d, m.Visits tx g'.view g'.profile d ∧
        d.Destroys tx a) fun _ => .inl).resumed hQ hs (fun d hd a ha => .inr ⟨d, hd, ha⟩)
        (fun c he => run_anchored tx hQ c fun d hd a ha => .inr ⟨d, ⟨c, he, hd⟩, ha⟩)
        (Frame.resumed_ok hk)
      refine (ih _ hg).mono fun a => ?_
      rintro ((hX | ⟨d, ⟨c, he, hd⟩, ha⟩) | ⟨d, hb, ha⟩)
      · exact .inl hX
      · exact .inr ⟨d, .callee hs he hd hk hr, ha⟩
      · exact .inr ⟨d, .turn (.back hs hk) hb, ha⟩
  | @callee f g c h m r hs hc _ ih =>
    intro X hf
    refine (ih X ?_).mono fun a => .imp_right fun ⟨d, hb, hd⟩ => ⟨d, .inside hs hc hb, hd⟩
    exact m.anchored_of_enter hQ (hf.quiet (step_enter_quiet hs)).view (hf.grounded hs) hc

end

/-! ## Transactions -/

/-- Every slot that is not zero belongs to an account with `Q`. -/
def World.Anchored (Q : Account → Prop) (w : World) : Prop :=
  ∀ s, w.slot s ≠ .zero → ∃ x, w.account? s.owner = some x ∧ Q x

/-- The message runs the code of another account at the address `a`, where there is no account
with `Q`. -/
def Message.Squats (Q : Account → Prop) (m : Message) (w : World) (a : Address) : Prop :=
  m.entry.creates = false ∧ m.codeAddress ≠ m.address ∧ m.address = a ∧
    ∀ x, w.account? a = some x → ¬ Q x

section

variable {Q : Account → Prop} {w : World}

theorem World.Anchored.enter {X : Address → Prop} (hw : w.Anchored Q) :
    (View.ofWorld w).enter.Anchored Q X := by
  intro s hs
  rw [View.slot_enter] at hs
  unfold View.Holds
  rw [View.account?_enter]
  exact .inr (hw s hs)

/-- The message of a transaction is grounded, with the address excused where it squats. -/
theorem Message.grounded_ofWorld (m : Message) (w : World) :
    m.Grounded Q (m.Squats Q w) (View.ofWorld w).enter := by
  by_cases hc : m.entry.creates = true
  · exact .inl hc
  by_cases ha : m.codeAddress = m.address
  · exact .inr (.inl ha)
  refine .inr (.inr ?_)
  unfold View.Holds
  rw [View.account?_enter]
  by_cases hx : ∃ x, w.account? m.address = some x ∧ Q x
  · exact .inr hx
  · exact .inl ⟨Bool.eq_false_iff.2 hc, ha, rfl, fun x hw hq => hx ⟨x, hw, hq⟩⟩

end

end ParticleChain.Evm
