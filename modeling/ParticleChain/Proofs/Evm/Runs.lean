import ParticleChain.Proofs.Evm.Opening

/-!
# Induction over runs

`Frame.run_induction` follows the recursion of `Frame.run`: a frame traps or halts, goes on to
the next instruction, or carries out a message and takes up its report. `f.Reaches tx g` says
that the run of `f` comes through `g`, in `f` itself or in a frame it starts, and
`Reaches.keeps` carries an invariant along. `f.Retains tx g` says besides that the messages on the
way from `f` to `g` succeed, so that `g` is not rolled back.

Two facts hold of every run: the message of a frame stays (`run_message`), and all its writes go
to the layer of the frame (`run_over`). So a message leaves its floor, or commits one layer to
it (`execute_view`).
-/

namespace ParticleChain.Evm

open Exec

/-! ## Unfolding -/

section

variable {tx : Tx} {m : Message} {v : View} {p : Profile}

theorem execute_answered {o : Outcome} {w : View} (h : m.enter v p = .answered o w) :
    execute tx m v p = ⟨o, w, p⟩ := by
  rw [execute, h, Opening.settle]

theorem execute_running {c : Frame} (h : m.enter v p = .running c) :
    execute tx m v p = (c.run tx).close := by
  rw [execute, h, Opening.settle]

/-- A creation that succeeds has run its init code. -/
theorem init_of_success (hc : m.entry.creates = true)
    (hs : (execute tx m v p).outcome.status = .success) :
    m.Derives v ∧ Message.occupied ((v.bumpNonce m.caller).account (m.target v)) = false ∧
      m.enter v p = .running (.start (m.initMessage v) m.input (m.initView v) p) := by
  cases he : m.enter v p with
  | answered o w =>
    rw [execute_answered he] at hs
    cases Message.opens_of he with
    | turnedDown | collision => cases hs
    | noCode _ hcall => exact absurd hc (Bool.eq_false_iff.1 hcall)
  | running c =>
    cases Message.opens_of he with
    | call _ hcall => exact absurd hc (Bool.eq_false_iff.1 hcall)
    | init hd ho => exact ⟨hd, ho, rfl⟩

end

/-- What a frame that sends a message finds before it goes on. -/
def Frame.answered (tx : Tx) (g : Frame) (m : Message) (r : Resume) :
    EStateM.Result Trap Frame Unit :=
  r.finish (execute tx m g.view g.profile).outcome (g.after (execute tx m g.view g.profile))

section

variable {tx : Tx} {f g k : Frame} {m : Message} {r : Resume}

theorem Frame.run_trap {t : Trap} (h : step tx f = .error t g) : f.run tx = ⟨.error t, g⟩ := by
  rw [run_eq, h]

theorem Frame.run_halt {x : Halt} (h : step tx f = .ok (.halt x) g) : f.run tx = ⟨.ok x, g⟩ := by
  rw [run_eq, h]
  rfl

theorem Frame.run_next (h : step tx f = .ok .next g) : f.run tx = g.run tx := by
  rw [run_eq, h]
  rfl

theorem Frame.run_back (h : step tx f = .ok (.enter m r) g) (hk : g.answered tx m r = .ok () k) :
    f.run tx = k.run tx := by
  unfold answered at hk
  rw [run_eq, h]
  simp only [Frame.continue, hk]

theorem Frame.run_stuck {t : Trap} (h : step tx f = .ok (.enter m r) g)
    (hk : g.answered tx m r = .error t k) : f.run tx = ⟨.error t, k⟩ := by
  unfold answered at hk
  rw [run_eq, h]
  simp only [Frame.continue, hk]

/-- A message gives back no more gas than it got. -/
theorem execute_gas (tx : Tx) (m : Message) (v : View) (p : Profile) :
    (execute tx m v p).outcome.gasLeft ≤ m.gas := by
  have hu := m.enter_uses v p
  cases h : m.enter v p with
  | answered o w =>
    rw [h] at hu
    rw [execute_answered h]
    exact hu
  | running c =>
    rw [h] at hu
    rw [execute_running h]
    exact Nat.le_trans (Ended.close_gas _) (Nat.le_trans (c.runBounded tx).2 (Nat.le_of_eq hu))

/-- Induction over a run. In the cases of a message, the frame it starts is at hand too. -/
theorem Frame.run_induction (tx : Tx) {motive : Frame → Ended → Prop}
    (trap : ∀ {f g t}, step tx f = .error t g → motive f ⟨.error t, g⟩)
    (halt : ∀ {f g x}, step tx f = .ok (.halt x) g → motive f ⟨.ok x, g⟩)
    (next : ∀ {f g}, step tx f = .ok .next g → motive g (g.run tx) → motive f (g.run tx))
    (back : ∀ {f g k m r}, step tx f = .ok (.enter m r) g →
      (∀ c, m.enter g.view g.profile = .running c → motive c (c.run tx)) →
      g.answered tx m r = .ok () k → motive k (k.run tx) → motive f (k.run tx))
    (stuck : ∀ {f g k m r t}, step tx f = .ok (.enter m r) g →
      (∀ c, m.enter g.view g.profile = .running c → motive c (c.run tx)) →
      g.answered tx m r = .error t k → motive f ⟨.error t, k⟩)
    (f : Frame) : motive f (f.run tx) := by
  induction hn : f.gasLeft using Nat.strongRecOn generalizing f with
  | ind n ih =>
    subst hn
    cases hs : step tx f with
    | error t g =>
      rw [f.run_trap hs]
      exact trap hs
    | ok fl g =>
      cases fl with
      | halt x =>
        rw [f.run_halt hs]
        exact halt hs
      | next =>
        rw [f.run_next hs]
        exact next hs (ih _ (step_next hs) g rfl)
      | enter m r =>
        have callee : ∀ c, m.enter g.view g.profile = .running c → motive c (c.run tx) := by
          intro c hc
          have hu := m.enter_uses g.view g.profile
          rw [hc] at hu
          exact ih _ (f.callee_lt hs hu) c rfl
        cases hk : g.answered tx m r with
        | error t k =>
          rw [f.run_stuck hs hk]
          exact stuck hs callee hk
        | ok u k =>
          rw [f.run_back hs hk]
          exact back hs callee hk (ih _ (f.resumed_lt hs (execute_gas tx m _ _) hk) k rfl)

end

/-! ## Taking up a report -/

/-- The frame has taken back the gas and the logs of its callee, and some output. -/
theorem finish_quiet (r : Resume) (o : Outcome) (f : Frame) :
    ∃ output, (output = o.output ∨ output = .empty) ∧
      (f.takeBack { o with output }).Quiet (after (r.finish o f)) :=
  keeps_finish steady_quiet r o f

section

variable {tx : Tx} {g k : Frame} {m : Message} {r : Resume}

/-- The frame that goes on after a report, or traps at it: it has the view of the report. -/
structure Frame.Resumed (g k : Frame) (x : Report) : Prop where
  message : k.message = g.message
  code : k.code = g.code
  dests : k.dests = g.dests
  limit : k.gas.limit = g.gas.limit
  logs : k.logs = if x.outcome.status.isSuccess then g.logs ++ x.outcome.logs else g.logs
  view : k.view = x.view
  returned : k.returned = x.outcome.output ∨ k.returned = .empty

theorem Frame.resumed_of_finish {x : Report} (h : Exec.after (r.finish x.outcome (g.after x)) = k) :
    g.Resumed k x := by
  obtain ⟨output, ho, hq⟩ := finish_quiet r x.outcome (g.after x)
  rw [h] at hq
  exact ⟨hq.message, hq.code, hq.dests, hq.limit, hq.logs, hq.view, hq.returned ▸ ho⟩

theorem Frame.resumed_ok (h : g.answered tx m r = .ok () k) :
    g.Resumed k (execute tx m g.view g.profile) := by
  unfold answered at h
  exact resumed_of_finish (r := r) (by rw [h]; rfl)

theorem Frame.resumed_error {t : Trap} (h : g.answered tx m r = .error t k) :
    g.Resumed k (execute tx m g.view g.profile) := by
  unfold answered at h
  exact resumed_of_finish (r := r) (by rw [h]; rfl)

end

/-! ## What every run keeps -/

theorem Frame.Effect.message {f g : Frame} {fl : Flow} (h : f.Effect g fl) :
    g.message = f.message := by
  cases h with
  | quiet h | store _ _ _ _ _ _ h | log _ _ _ _ h | destroy _ _ _ _ _ h => exact h.message

theorem Frame.Effect.limit {f g : Frame} {fl : Flow} (h : f.Effect g fl) :
    g.gas.limit = f.gas.limit := by
  cases h with
  | quiet h | store _ _ _ _ _ _ h | log _ _ _ _ h | destroy _ _ _ _ _ h => exact h.limit

theorem Frame.Effect.over {f g : Frame} {fl : Flow} (h : f.Effect g fl) {v : View}
    (hv : f.view.Over v) : g.view.Over v := by
  cases h with
  | quiet h | log _ _ _ _ h =>
    rw [h.view]
    exact hv
  | store _ _ _ _ _ _ h =>
    rw [h.view]
    exact hv.setSlot _ _
  | destroy _ _ _ _ _ h =>
    rw [h.view]
    exact (hv.transfer _ _ _).setAccount _ _

/-- An instruction that sends a message writes nothing. -/
theorem step_enter_quiet {tx : Tx} {f g : Frame} {m : Message} {r : Resume}
    (h : step tx f = .ok (.enter m r) g) : f.Quiet g := by
  cases step_effect h
  assumption

/-- The message of a frame stays. -/
theorem run_message (tx : Tx) (f : Frame) : (f.run tx).frame.message = f.message := by
  refine f.run_induction tx (motive := fun f e => e.frame.message = f.message)
    ?trap ?halt ?next ?back ?stuck
  case trap =>
    intro f g t h
    exact (step_trap_quiet h).message
  case halt =>
    intro f g x h
    exact (step_effect h).message
  case next =>
    intro f g h ih
    exact ih.trans (step_effect h).message
  case back =>
    intro f g k m r h _ hk ih
    exact ih.trans ((Frame.resumed_ok hk).message.trans (step_effect h).message)
  case stuck =>
    intro f g k m r t h _ hk
    exact (Frame.resumed_error hk).message.trans (step_effect h).message

/-- The view a message leaves, if the frame it starts keeps to its layer. -/
theorem execute_view_of {tx : Tx} {m : Message} {v : View} {p : Profile}
    (hrun : ∀ c w, m.enter v p = .running c → c.view.Over w → (c.run tx).frame.view.Over w) :
    ((execute tx m v p).outcome.status = .success ∧
      ∃ u : View, u.Over (m.floor v) ∧ (execute tx m v p).view = u.commit) ∨
    ((execute tx m v p).outcome.status ≠ .success ∧ (execute tx m v p).view = m.floor v) := by
  cases h : m.enter v p with
  | answered o w =>
    rw [execute_answered h]
    cases Message.opens_of h with
    | turnedDown t gas hg hd =>
      exact .inr ⟨Status.noConfusion, (Message.floor_of_not_derives hd).symm⟩
    | collision hd _ => exact .inr ⟨Status.noConfusion, (Message.floor_of_derives hd).symm⟩
    | noCode hr hc hz =>
      refine .inl ⟨rfl, m.calleeView v, ?_, rfl⟩
      rw [Message.floor_of_calls hc]
      exact m.over_calleeView v
  | running c =>
    rw [execute_running h]
    have hv := hrun c _ h (Message.over_floor h)
    obtain ⟨hs, he⟩ | ⟨hs, he⟩ := Ended.close_view hv
    · exact .inl ⟨hs, _, Ended.over_settle hv, he⟩
    · exact .inr ⟨hs, he⟩

theorem execute_over_of {tx : Tx} {m : Message} {v u : View} {p : Profile}
    (hrun : ∀ c w, m.enter v p = .running c → c.view.Over w → (c.run tx).frame.view.Over w)
    (hv : v.Over u) : (execute tx m v p).view.Over u := by
  have hf : (m.floor v).Over u := by
    unfold Message.floor
    split
    · exact hv.setAccount _ _
    · exact hv
  obtain ⟨-, w, hw, he⟩ | ⟨-, he⟩ := execute_view_of hrun
  · rw [he]
    exact hw.commit hf
  · rw [he]
    exact hf

/-- All writes of a run go to the layer of its frame. -/
theorem run_over (tx : Tx) (f : Frame) :
    ∀ v : View, f.view.Over v → (f.run tx).frame.view.Over v := by
  refine f.run_induction tx
    (motive := fun f e => ∀ v : View, f.view.Over v → e.frame.view.Over v)
    ?trap ?halt ?next ?back ?stuck
  case trap =>
    intro f g t h v hv
    dsimp only
    rw [(step_trap_quiet h).view]
    exact hv
  case halt =>
    intro f g x h v hv
    exact (step_effect h).over hv
  case next =>
    intro f g h ih v hv
    exact ih v ((step_effect h).over hv)
  case back =>
    intro f g k m r h hc hk ih v hv
    refine ih v ?_
    rw [(Frame.resumed_ok hk).view]
    exact execute_over_of (fun c w h hw => hc c h w hw) ((step_effect h).over hv)
  case stuck =>
    intro f g k m r t h hc hk v hv
    dsimp only
    rw [(Frame.resumed_error hk).view]
    exact execute_over_of (fun c w h hw => hc c h w hw) ((step_effect h).over hv)

section

variable (tx : Tx) (m : Message) (v : View) (p : Profile)

/-- A message that succeeds commits one layer to its floor, any other leaves just the floor. -/
theorem execute_view :
    ((execute tx m v p).outcome.status = .success ∧
      ∃ u : View, u.Over (m.floor v) ∧ (execute tx m v p).view = u.commit) ∨
    ((execute tx m v p).outcome.status ≠ .success ∧ (execute tx m v p).view = m.floor v) :=
  execute_view_of fun c w _ hw => run_over tx c w hw

theorem execute_over {u : View} (hv : v.Over u) : (execute tx m v p).view.Over u :=
  execute_over_of (fun c w _ hw => run_over tx c w hw) hv

end

/-! ## What a run comes through -/

/-- One turn of a frame: an instruction after which it goes on, with all that a message it
sends sets off. -/
inductive Frame.Turn (tx : Tx) (f : Frame) : Frame → Prop
  | next {g : Frame} (h : step tx f = .ok .next g) : Turn tx f g
  | back {g k : Frame} {m : Message} {r : Resume} (h : step tx f = .ok (.enter m r) g)
      (hk : g.answered tx m r = .ok () k) : Turn tx f k

/-- The run of the first frame comes through the second, in the first frame itself or in one
that is started on the way. -/
inductive Frame.Reaches (tx : Tx) : Frame → Frame → Prop
  | refl (f : Frame) : Reaches tx f f
  | turn {f g h : Frame} (ht : f.Turn tx g) (hr : Reaches tx g h) : Reaches tx f h
  | callee {f g c h : Frame} {m : Message} {r : Resume} (hs : step tx f = .ok (.enter m r) g)
      (hc : m.enter g.view g.profile = .running c) (hr : Reaches tx c h) : Reaches tx f h

theorem Frame.Reaches.keeps {tx : Tx} {I : Frame → Prop}
    (turn : ∀ {f g}, I f → f.Turn tx g → I g)
    (callee : ∀ {f g c m r}, I f → step tx f = .ok (.enter m r) g →
      m.enter g.view g.profile = .running c → I c)
    {f h : Frame} (hr : f.Reaches tx h) (hf : I f) : I h := by
  induction hr with
  | refl => exact hf
  | turn ht _ ih => exact ih (turn hf ht)
  | callee hs hc _ ih => exact ih (callee hf hs hc)

/-- Carrying out the message comes through the frame. -/
def Message.Visits (tx : Tx) (m : Message) (v : View) (p : Profile) (f : Frame) : Prop :=
  ∃ c, m.enter v p = .running c ∧ c.Reaches tx f

/-- The run of the first frame comes through the second, and of the messages that lie between
them each succeeds. -/
inductive Frame.Retains (tx : Tx) : Frame → Frame → Prop
  | refl (f : Frame) : Retains tx f f
  | turn {f g h : Frame} (ht : f.Turn tx g) (hr : Retains tx g h) : Retains tx f h
  | callee {f g c h : Frame} {m : Message} {r : Resume} (hs : step tx f = .ok (.enter m r) g)
      (hx : (execute tx m g.view g.profile).outcome.status = .success)
      (hc : m.enter g.view g.profile = .running c) (hr : Retains tx c h) : Retains tx f h

theorem Frame.Retains.reaches {tx : Tx} {f h : Frame} (hr : f.Retains tx h) : f.Reaches tx h := by
  induction hr with
  | refl f => exact .refl f
  | turn ht _ ih => exact .turn ht ih
  | callee hs _ hc _ ih => exact .callee hs hc ih

/-- The message succeeds and comes through the frame, and so does each message between them. -/
def Message.Retains (tx : Tx) (m : Message) (v : View) (p : Profile) (f : Frame) : Prop :=
  (execute tx m v p).outcome.status = .success ∧ ∃ c, m.enter v p = .running c ∧ c.Retains tx f

theorem Message.Retains.visits {tx : Tx} {m : Message} {v : View} {p : Profile} {f : Frame}
    (h : m.Retains tx v p f) : m.Visits tx v p f := by
  obtain ⟨-, c, hc, hr⟩ := h
  exact ⟨c, hc, hr.reaches⟩

/-! ## Relations along a run -/

/-- A relation between views that is kept by all that a message comes to, step by step, where the
instructions that are not rolled back are those of frames with `C`. -/
structure Carried (tx : Tx) (C : Frame → Prop) (R : View → View → Prop) : Prop where
  refl (v : View) : R v v
  trans {u v w : View} (h : R u v) (h' : R v w) : R u w
  step {f g : Frame} {fl : Flow} (hf : C f) (h : step tx f = .ok fl g) : R f.view g.view
  bumpNonce (v : View) (a : Address) : R v (v.bumpNonce a)
  callee (m : Message) (v : View) : R v (m.calleeView v)
  init {m : Message} {v : View}
    (h : Message.occupied ((v.bumpNonce m.caller).account (m.target v)) = false) :
    R v (m.initView v)
  settle {m : Message} {v : View} {p : Profile} {c : Frame} (h : m.enter v p = .running c)
    (hr : R v (c.run tx).frame.view) : R v (c.run tx).settle.frame.view
  commit {u v : View} (h : u.Over v) : R u u.commit

section

variable {tx : Tx} {C : Frame → Prop} {R : View → View → Prop} {m : Message} {v : View}
  {p : Profile}

theorem Carried.floor (hR : Carried tx C R) (m : Message) (v : View) : R v (m.floor v) := by
  unfold Message.floor
  split
  · exact hR.bumpNonce v m.caller
  · exact hR.refl v

theorem Carried.start (hR : Carried tx C R) {c : Frame} (h : m.enter v p = .running c) :
    R v c.view := by
  cases Message.opens_of h with
  | call => exact hR.callee m v
  | init _ ho => exact hR.init ho

/-- A message keeps the relation, if the frame that it starts does: what it wrote counts only if
the message succeeds. -/
theorem Carried.message (hR : Carried tx C R)
    (hrun : (execute tx m v p).outcome.status = .success →
      ∀ c, m.enter v p = .running c → R c.view (c.run tx).frame.view) :
    R v (execute tx m v p).view := by
  cases h : m.enter v p with
  | answered o w =>
    rw [execute_answered h]
    cases Message.opens_of h with
    | turnedDown => exact hR.refl v
    | collision => exact hR.bumpNonce v m.caller
    | noCode => exact hR.trans (hR.callee m v) (hR.commit (m.over_calleeView v))
  | running c =>
    rw [execute_running h] at hrun ⊢
    have hover := run_over tx c _ (Message.over_floor h)
    obtain ⟨hs, he⟩ | ⟨-, he⟩ := Ended.close_view hover
    · rw [he]
      have hend := hR.settle h (hR.trans (hR.start h) (hrun hs c h))
      exact hR.trans hend (hR.commit (Ended.over_settle hover))
    · rw [he]
      exact hR.floor m v

/-- Such a relation holds between the start of a frame and its end, if the run retains frames with
`C` only. -/
theorem Carried.run (hR : Carried tx C R) (f : Frame) :
    (∀ g, f.Retains tx g → C g) → R f.view (f.run tx).frame.view := by
  refine f.run_induction tx
    (motive := fun f e => (∀ g, f.Retains tx g → C g) → R f.view e.frame.view)
    ?trap ?halt ?next ?back ?stuck
  case trap =>
    intro f g t h _
    dsimp only
    rw [(step_trap_quiet h).view]
    exact hR.refl f.view
  case halt =>
    intro f g x h hC
    exact hR.step (hC f (.refl f)) h
  case next =>
    intro f g h ih hC
    exact hR.trans (hR.step (hC f (.refl f)) h) (ih fun k hk => hC k (.turn (.next h) hk))
  case back =>
    intro f g k m r h hc hk ih hC
    have hx := hR.message (p := g.profile) fun hs c he =>
      hc c he fun d hd => hC d (.callee h hs he hd)
    rw [← (Frame.resumed_ok hk).view, (step_enter_quiet h).view] at hx
    exact hR.trans hx (ih fun d hd => hC d (.turn (.back h hk) hd))
  case stuck =>
    intro f g k m r t h hc hk hC
    have hx := hR.message (p := g.profile) fun hs c he =>
      hc c he fun d hd => hC d (.callee h hs he hd)
    rwa [← (Frame.resumed_error hk).view, (step_enter_quiet h).view] at hx

theorem Carried.execute (hR : Carried tx C R) (m : Message) (v : View) (p : Profile)
    (hC : ∀ f, m.Retains tx v p f → C f) : R v (execute tx m v p).view :=
  hR.message fun hs c hc => hR.run c fun f hf => hC f ⟨hs, c, hc, hf⟩

/-- A relation that all instructions keep holds between the start of a frame and wherever its run
comes to. -/
theorem Carried.reaches (hR : Carried tx (fun _ => True) R) {f h : Frame} (hr : f.Reaches tx h) :
    R f.view h.view := by
  induction hr with
  | refl f => exact hR.refl f.view
  | turn ht _ ih =>
    refine hR.trans ?_ ih
    cases ht with
    | next hs => exact hR.step trivial hs
    | back hs hk =>
      rw [(Frame.resumed_ok hk).view]
      exact hR.trans (hR.step trivial hs) (hR.execute _ _ _ fun _ _ => trivial)
  | callee hs hc _ ih => exact hR.trans (hR.step trivial hs) (hR.trans (hR.start hc) ih)

end

/-- A world whose only account is a contract. -/
def World.ofContract (a : Address) (balance : Word) (code : ByteArray) : World :=
  World.empty.setAccount a (some { (Account.withBalance balance).setCode code with nonce := 1 })

end ParticleChain.Evm
