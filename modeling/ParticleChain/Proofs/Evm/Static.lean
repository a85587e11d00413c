import ParticleChain.Proofs.Evm.Calls
import ParticleChain.Proofs.Word.Carry

/-!
# Static frames write nothing

The layer of a static frame is not always empty: a `CALLCODE` with value moves it from an account
to itself, and a callee that succeeds commits its layer. But each account in the layer is as it
is below, none is removed, and no slot is written (`View.Idle`). Such layers stay so under
commits (`Idle.commit`), and a static frame sends messages only that are static too and move no
value elsewhere (`Message.Still`).
-/

namespace ParticleChain.Evm

/-! ## Layers that change nothing -/

namespace View

/-- `w` is `v` under a layer that holds no slot, and accounts only as they are in `v`. -/
def Idle (w v : View) : Prop :=
  ∃ l : Layer, w = ⟨l :: v.layers, v.base⟩ ∧ (∀ s : Slot, l.storage[s]? = none) ∧
    ∀ (a : Address) (x : Option Account), l.accounts[a]? = some x → x = v.account? a ∧ x ≠ none

variable {u v w : View}

theorem idle_enter (v : View) : v.enter.Idle v :=
  ⟨.empty, rfl, by simp [Layer.empty], by simp [Layer.empty]⟩

theorem Idle.over (h : w.Idle v) : w.Over v := by
  obtain ⟨l, rfl, -⟩ := h
  exact ⟨l, rfl⟩

theorem Idle.same (h : w.Idle v) : v.Same w := by
  obtain ⟨l, rfl, hs, ha⟩ := h
  refine ⟨fun a => ?_, fun s => ?_⟩
  · simp only [account?, accountIn]
    cases hx : l.accounts[a]? with
    | none => rfl
    | some x => exact (ha a x hx).1
  · simp only [slot, slotIn, hs s]

/-- A layer is idle if it is so but for one account, which is then written as it is below. -/
theorem idle_insert {l : Layer} {a : Address} (hs : ∀ s : Slot, l.storage[s]? = none)
    (hl : ∀ (b : Address) (x : Option Account), b ≠ a → l.accounts[b]? = some x →
      x = v.account? b ∧ x ≠ none) (ha : v.account? a ≠ none) :
    Idle ⟨{ l with accounts := l.accounts.insert a (v.account? a) } :: v.layers, v.base⟩ v := by
  refine ⟨_, rfl, hs, fun b x hb => ?_⟩
  rw [Std.TreeMap.getElem?_insert] at hb
  split at hb
  · rename_i he
    obtain rfl := Std.LawfulEqOrd.eq_of_compare he
    obtain rfl := Option.some.inj hb
    exact ⟨rfl, ha⟩
  · rename_i he
    exact hl b x (fun e => he (by rw [e]; exact Std.ReflOrd.compare_self)) hb

theorem Idle.setAccount (h : w.Idle v) {a : Address} (ha : v.account? a ≠ none) :
    (w.setAccount a (v.account? a)).Idle v := by
  obtain ⟨l, rfl, hs, hl⟩ := h
  exact idle_insert hs (fun b x _ hb => hl b x hb) ha

/-- Whatever is written to an account, writing it again as it is below makes up for it. -/
theorem Idle.restore (h : w.Idle v) {a : Address} (x : Option Account) (ha : v.account? a ≠ none) :
    ((w.setAccount a x).setAccount a (v.account? a)).Idle v := by
  obtain ⟨l, rfl, hs, hl⟩ := h
  refine idle_insert (l := { l with accounts := l.accounts.insert a x }) hs ?_ ha
  intro b y hne hb
  rw [Std.TreeMap.getElem?_insert] at hb
  split at hb
  · rename_i he
    exact absurd (Std.compare_eq_iff_eq.1 he).symm hne
  · exact hl b y hb

/-- Committed to a view under an idle layer, an idle layer leaves that layer idle. -/
theorem Idle.commit (h : w.Idle v) (hv : v.Idle u) : w.commit.Idle u := by
  have hsame := hv.same
  obtain ⟨l, rfl, hs, ha⟩ := h
  refine foldl_keeps (P := (Idle · u)) ?slot (foldl_keeps (P := (Idle · u)) ?account hv)
  case slot =>
    intro _ s x hx _
    rw [hs s] at hx
    cases hx
  case account =>
    intro v' a x hx hv'
    obtain ⟨rfl, hn⟩ := ha a x hx
    rw [hsame.1] at hn ⊢
    exact hv'.setAccount hn

/-- Committing an idle layer changes nothing that is read. -/
theorem Idle.same_commit (h : w.Idle v) : v.Same w.commit := by
  refine ⟨fun a => (h.over.account?_commit a).trans (h.same.1 a), fun s => ?_⟩
  obtain ⟨l, rfl, hs, ha⟩ := h
  have hn : (l.accounts[s.owner]? == some none) = false := by
    cases hx : l.accounts[s.owner]? with
    | none => rfl
    | some x =>
      have := (ha _ x hx).2
      cases x with
      | none => exact absurd rfl this
      | some x => rfl
  rw [slot_commit, hs s, hn, Bool.and_false]
  rfl

/-- Moving a value that is there from an account to itself. -/
theorem Idle.transfer_self (h : w.Idle v) {a : Address} {x : Word}
    (hx : x.toNat ≤ (v.balance a).toNat) : (w.transfer a a x).Idle v := by
  unfold transfer
  split
  · exact h
  · rename_i hz
    cases ha : v.account? a with
    | none =>
      have hb : v.balance a = .zero := by
        unfold View.balance View.account
        rw [ha]
        rfl
      rw [hb] at hx
      exact absurd (Word.isZero_iff_toNat.2 (Nat.le_zero.1 hx)) hz
    | some y =>
      have hy : v.account a = y := by
        unfold View.account
        rw [ha]
        rfl
      have hb : y.balance - x + x = y.balance := by
        rw [View.balance, hy] at hx
        exact Word.sub_add_cancel_of_le hx
      dsimp only
      rw [account_setAccount, if_pos rfl, h.same.account, hy]
      dsimp only [Option.getD_some]
      rw [hb]
      have hr := h.restore (some { y with balance := y.balance - x })
        (by rw [ha]; exact Option.some_ne_none y)
      rw [ha] at hr
      exact hr

end View

/-! ## Messages that write nothing -/

/-- A static call that moves no value, or moves it from an account to itself. -/
structure Message.Still (m : Message) : Prop where
  static : m.isStatic = true
  calls : m.entry.creates = false
  value : m.entry.movesValue = true → m.value.isZero = true ∨ m.caller = m.address

section

variable {tx : Tx} {m : Message} {v u : View} {p : Profile}

theorem Message.Still.idle_calleeView (hm : m.Still) (hr : m.refusal? v = none) :
    (m.calleeView v).Idle v := by
  unfold Message.calleeView
  split
  · rename_i hv
    rcases hm.value hv with hz | he
    · unfold View.transfer
      rw [if_pos hz]
      exact v.idle_enter
    · rw [← he]
      exact v.idle_enter.transfer_self (m.value_le_of_refusal? hr hv)
  · exact v.idle_enter

/-- A static frame sends only messages that write nothing. -/
theorem Message.Still.of_enter {f g : Frame} {r : Resume} (hf : f.message.isStatic = true)
    (h : step tx f = .ok (.enter m r) g) : m.Still := by
  obtain ⟨op, -, -, ⟨k, rfl, hc⟩ | ⟨salted, -, hc⟩⟩ := enter_inv h
  · obtain ⟨a, ws, i, o, input, gas, hc⟩ := startCall_inv hc
    obtain ⟨rfl, -⟩ := Flow.enter.inj hc.flow
    cases k with
    | call => exact ⟨hf, rfl, fun _ => .inl (hc.mutable rfl hf)⟩
    | callCode => exact ⟨hf, rfl, fun _ => .inr rfl⟩
    | delegateCall => exact ⟨hf, rfl, fun hv => nomatch hv⟩
    | staticCall => exact ⟨rfl, rfl, fun hv => nomatch hv⟩
  · obtain ⟨hs, -⟩ := startCreate_inv hc
    rw [Frame.message_prepared, hf] at hs
    cases hs

/-- A static instruction that succeeds is quiet. -/
theorem Frame.Effect.quiet_of_static {f g : Frame} {fl : Flow} (h : f.Effect g fl)
    (hf : f.message.isStatic = true) : f.Quiet g := by
  cases h with
  | quiet h => exact h
  | store _ _ _ _ hm | log _ _ _ hm | destroy _ _ _ hm =>
    rw [hf] at hm
    cases hm

/-! ## Runs of static frames -/

/-- The frame is static, and so far has written nothing to `v` and has no log. -/
structure Frame.Still (f : Frame) (v : View) : Prop where
  message : f.message.Still
  view : f.view.Idle v
  logs : f.logs = #[]

theorem Frame.Still.quiet {f g : Frame} (hf : f.Still v) (h : f.Quiet g) : g.Still v where
  message := by rw [h.message]; exact hf.message
  view := by rw [h.view]; exact hf.view
  logs := by rw [h.logs]; exact hf.logs

/-- The message left the view as it is, or committed a layer to it that changes nothing, and has
no log. -/
structure Report.Still (x : Report) (v : View) : Prop where
  view : x.view = v ∨ ∃ w : View, w.Idle v ∧ x.view = w.commit
  logs : x.outcome.logs = #[]

theorem Ended.close_still {e : Ended} (h : e.frame.Still v) : e.close.Still v := by
  have he : e.settle = e := by
    unfold settle
    rw [h.message.calls]
  constructor
  case view =>
    obtain ⟨-, hv⟩ | ⟨-, hv⟩ := Ended.close_view h.view.over
    · rw [he] at hv
      exact .inr ⟨_, h.view, hv⟩
    · exact .inl hv
  case logs =>
    show e.settle.outcome.logs = #[]
    rw [he]
    obtain ⟨_ | _ | _ | _, f⟩ := e
    case ok.stop | ok.ret => exact h.logs
    all_goals rfl

theorem still_of_enter {c : Frame} (hm : m.Still) (h : m.enter v p = .running c) : c.Still v := by
  cases Message.opens_of h with
  | call hr => exact ⟨hm, hm.idle_calleeView hr, rfl⟩
  | init hd => exact absurd hd (Message.not_derives_of_calls hm.calls v)

theorem execute_still_of (hm : m.Still)
    (hrun : ∀ c, m.enter v p = .running c → c.Still v → (c.run tx).frame.Still v) :
    (execute tx m v p).Still v := by
  cases h : m.enter v p with
  | answered o w =>
    rw [execute_answered h]
    cases Message.opens_of h with
    | turnedDown => exact ⟨.inl rfl, rfl⟩
    | collision hd => exact absurd hd (Message.not_derives_of_calls hm.calls v)
    | noCode hr => exact ⟨.inr ⟨_, hm.idle_calleeView hr, rfl⟩, rfl⟩
  | running c =>
    rw [execute_running h]
    exact Ended.close_still (hrun c h (still_of_enter hm h))

/-- A still frame is so after the report of a message that wrote nothing. -/
theorem Frame.Still.resumed {f g k : Frame} {x : Report} (hf : f.Still v) (hg : f.Quiet g)
    (hx : x.Still g.view) (hk : g.Resumed k x) : k.Still v where
  message := by rw [hk.message, hg.message]; exact hf.message
  view := by
    have hi : g.view.Idle v := (hf.quiet hg).view
    rw [hk.view]
    rcases hx.view with he | ⟨w, hw, he⟩
    · rw [he]
      exact hi
    · rw [he]
      exact hw.commit hi
  logs := by
    rw [hk.logs, hg.logs, hf.logs, hx.logs]
    split <;> rfl

/-- A still frame ends still: the only instructions that succeed in it are quiet, and the layers
that its callees commit are idle. -/
theorem run_still (tx : Tx) (f : Frame) : ∀ v, f.Still v → (f.run tx).frame.Still v := by
  refine f.run_induction tx (motive := fun f e => ∀ v, f.Still v → e.frame.Still v)
    ?trap ?halt ?next ?back ?stuck
  case trap =>
    intro f g t h v hf
    exact hf.quiet (step_trap_quiet h)
  case halt =>
    intro f g x h v hf
    exact hf.quiet ((step_effect h).quiet_of_static hf.message.static)
  case next =>
    intro f g h ih v hf
    exact ih v (hf.quiet ((step_effect h).quiet_of_static hf.message.static))
  case back =>
    intro f g k m r h hc hk ih v hf
    have hm : m.Still := .of_enter hf.message.static h
    have hx := execute_still_of hm fun c h hs => hc c h _ hs
    exact ih v (hf.resumed (step_enter_quiet h) hx (Frame.resumed_ok hk))
  case stuck =>
    intro f g k m r t h hc hk v hf
    have hm : m.Still := .of_enter hf.message.static h
    have hx := execute_still_of hm fun c h hs => hc c h _ hs
    exact hf.resumed (step_enter_quiet h) hx (Frame.resumed_error hk)

theorem execute_still (hm : m.Still) : (execute tx m v p).Still v :=
  execute_still_of hm fun c _ hs => run_still tx c v hs

theorem Report.Still.same {x : Report} (hx : x.Still v) : v.Same x.view := by
  rcases hx.view with he | ⟨w, hw, he⟩
  · rw [he]
    exact .refl v
  · rw [he]
    exact hw.same_commit

/-- No frame that a still message sets off writes anything. -/
theorem Message.Visits.still {f : Frame} (h : m.Visits tx v p f) (hm : m.Still) :
    ∃ u, f.Still u ∧ v.Same u := by
  obtain ⟨c, hc, hr⟩ := h
  refine hr.keeps (I := fun f => ∃ u, f.Still u ∧ v.Same u) ?turn ?callee
    ⟨v, still_of_enter hm hc, .refl v⟩
  case turn =>
    rintro f g ⟨u, hf, hu⟩ ht
    cases ht with
    | next h => exact ⟨u, hf.quiet ((step_effect h).quiet_of_static hf.message.static), hu⟩
    | back h hk =>
      have hm := Message.Still.of_enter hf.message.static h
      refine ⟨u, hf.resumed (step_enter_quiet h) ?_ (Frame.resumed_ok hk), hu⟩
      exact execute_still hm
  case callee =>
    rintro f g c m r ⟨u, hf, hu⟩ h hc
    have hq := (step_enter_quiet h)
    exact ⟨g.view, still_of_enter (.of_enter hf.message.static h) hc,
      hu.trans (hf.quiet hq).view.same⟩

end

/-- After a static call that moves no value on entry, every account and every slot reads as
before, and there is no log. So it is in every frame on the way. -/
theorem static_call_writes_nothing (tx : Tx) (m : Message) (v : View) (p : Profile)
    (hs : m.isStatic = true) (hc : m.entry.creates = false)
    (hv : m.entry.movesValue = false ∨ m.value.isZero = true) :
    let x := execute tx m v p
    (∀ a, x.view.account? a = v.account? a) ∧ (∀ s, x.view.slot s = v.slot s) ∧
    x.outcome.logs = #[] ∧
    ∀ f, m.Visits tx v p f → f.message.isStatic = true ∧ f.logs = #[] ∧ v.Same f.view := by
  have hm : m.Still := by
    refine ⟨hs, hc, fun hmv => ?_⟩
    rcases hv with hv | hv
    · rw [hv] at hmv
      cases hmv
    · exact .inl hv
  have hx : (execute tx m v p).Still v := execute_still hm
  refine ⟨hx.same.1, hx.same.2, hx.logs, fun f hf => ?_⟩
  obtain ⟨u, hu, hsame⟩ := hf.still hm
  exact ⟨hu.message.static, hu.logs, hsame.trans hu.view.same⟩

/-- Code that writes a slot. -/
def scribbleCode : ByteArray := Bytes.ofList [0x5f, 0x5f, 0x55]

def scribbleView : View := .ofWorld (.ofContract ⟨7, 0, 0⟩ .one scribbleCode)

def scribbleCall : Message :=
  { Message.plainCall .zero ⟨7, 0, 0⟩ .empty 100 .zero with isStatic := true }

theorem static_call_writes_nothing_scribble :
    let x := execute ⟨.standard, .zero⟩ scribbleCall scribbleView .empty
    scribbleCall.isStatic = true ∧ scribbleCall.value.isZero = true ∧
    x.outcome.status = .failed (.staticViolation "SSTORE") ∧
    x.view.slot ⟨⟨7, 0, 0⟩, .zero⟩ = .zero := by
  have hc : scribbleCall.enter scribbleView .empty =
      .running (.start scribbleCall scribbleCode scribbleView.enter .empty) := rfl
  have hr : Frame.run ⟨.standard, .zero⟩
      (.start scribbleCall scribbleCode scribbleView.enter .empty) = _ :=
    (Frame.run_next rfl).trans ((Frame.run_next rfl).trans (Frame.run_trap rfl))
  obtain ⟨-, hslot, -⟩ := static_call_writes_nothing ⟨.standard, .zero⟩ scribbleCall scribbleView
    .empty rfl rfl (.inr rfl)
  refine ⟨rfl, rfl, ?_, (hslot _).trans rfl⟩
  rw [execute_running hc, hr]
  rfl

end ParticleChain.Evm
