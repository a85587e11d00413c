import ParticleChain.Evm.Metering

/-!
# Running code

`Message.enter` starts a frame, `Frame.run` runs it with the frames it starts, and
`Ended.close` turns how it ended into an outcome and commits or drops its writes. Running ends
because every instruction leaves less gas (`pays_step`); `run_eq` is the equation of `run`
without the bound. `transact` runs a whole transaction on a world.
-/

namespace ParticleChain.Evm

/-- The deepest nesting of frames. -/
def maxDepth : Nat := 1024

/-- What a message comes to: its outcome, the world it leaves and the gas it was booked. -/
structure Report where
  outcome : Outcome
  view : View
  profile : Profile

/-- A message is answered at once or starts a frame. -/
inductive Opening where
  | answered (o : Outcome) (v : View)
  | running (f : Frame)

/-- An answer leaves at most `n` gas, a frame starts with just that. -/
def Opening.Uses (n : Nat) : Opening → Prop
  | answered o _ => o.gasLeft ≤ n
  | running f => f.gasLeft = n

namespace Message

/-- Why a message is turned down before anything happens. -/
def refusal? (m : Message) (v : View) : Option Trap :=
  if maxDepth < m.depth then some .callTooDeep
  else if m.entry.movesValue && !m.value.isZero && (v.balance m.caller).lt m.value then
    some .insufficientBalance
  else none

/-- Enters the code of an account in a layer of its own, the value being moved first. -/
def enterCall (m : Message) (v : View) (p : Profile) : Opening :=
  let w := if m.entry.movesValue then v.enter.transfer m.caller m.address m.value else v.enter
  let code := (w.account m.codeAddress).code
  if code.size = 0 then .answered (.nothingRun m.gas) w.commit
  else .running (.start m code w p)

/-- The address of the contract that a creation makes. -/
def newAddress (m : Message) (nonce : Nat) : Address :=
  match m.entry with
  | .create2 salt => create2Address m.caller salt m.input
  | _ => createAddress m.caller nonce

/-- Whether a contract cannot be created where this account is. -/
def occupied (a : Account) : Bool := a.nonce != 0 || a.code.size != 0

/-- Enters init code. The nonce of the deployer moves even if the creation fails; the new
account starts with nonce one in the layer of the frame. -/
def enterCreate (m : Message) (v : View) (p : Profile) : Opening :=
  if maxInitSize < m.input.size then
    .answered (.failure (.codeTooLarge m.input.size maxInitSize) 0) v
  else
    let deployer := v.account m.caller
    if maxAmount ≤ deployer.nonce then .answered (.failure .nonceOverflow m.gas) v
    else
      let a := m.newAddress deployer.nonce
      let v := v.setAccount m.caller (some { deployer with nonce := deployer.nonce + 1 })
      if occupied (v.account a) then .answered (.failure (.addressCollision a) 0) v
      else
        let w := v.enter
        let w := w.setAccount a (some { w.account a with nonce := 1 })
        let w := w.transfer m.caller a m.value
        .running (.start { m with address := a, codeAddress := a, input := .empty } m.input w p)

def enter (m : Message) (v : View) (p : Profile) : Opening :=
  match m.refusal? v with
  | some t => .answered (.failure t m.gas) v
  | none => if m.entry.creates then m.enterCreate v p else m.enterCall v p

end Message

/-- How a frame ended: by itself, or by a trap. -/
structure Ended where
  halt : Except Trap Halt
  frame : Frame

/-- Makes the code that init code returned the code of the new account. -/
def deposit (code : ByteArray) : Exec Unit := do
  Exec.ensure (code.size ≤ maxCodeSize) (.codeTooLarge code.size maxCodeSize)
  Exec.ensure (Bytes.padded code 0 != 0xef) .reservedCode
  Exec.charge .deployment (← Exec.bounded (Price.codeByte * code.size))
  let a := (← get).message.address
  Exec.onView fun v => v.setAccount a (some ((v.account a).setCode code))

namespace Ended

/-- The end of a creation, with the returned code deposited. -/
def settle (e : Ended) : Ended :=
  match e.frame.message.entry.creates, e.halt with
  | true, .ok (.ret code) => match deposit code e.frame with
    | .ok _ f => ⟨.ok .stop, f⟩
    | .error t f => ⟨.error t, f⟩
  | _, _ => e

def outcome (e : Ended) : Outcome :=
  let f := e.frame
  let created := if f.message.entry.creates then some f.message.address else none
  match e.halt with
  | .ok .stop => ⟨.success, f.gasLeft, .empty, created, f.logs⟩
  | .ok (.ret data) => ⟨.success, f.gasLeft, data, created, f.logs⟩
  | .ok (.revert data) => ⟨.reverted, f.gasLeft, data, none, #[]⟩
  | .error t => .failure t 0

/-- Commits the writes of the frame if it succeeded and drops them otherwise. -/
def close (e : Ended) : Report :=
  let e := e.settle
  let o := e.outcome
  ⟨o, if o.status.isSuccess then e.frame.view.commit else e.frame.view.drop, e.frame.profile⟩

theorem outcome_gas (e : Ended) : e.outcome.gasLeft ≤ e.frame.gasLeft := by
  unfold outcome
  dsimp only
  split <;> first | exact Nat.le_refl _ | exact Nat.zero_le _

theorem frugal_deposit (code : ByteArray) : (deposit code).Frugal :=
  .bind (Exec.frugal_ensure _ _) fun _ => .bind (Exec.frugal_ensure _ _) fun _ =>
    .bind (Exec.frugal_bounded _) fun _ => .bind (Exec.frugal_charge _ _) fun _ =>
    .bind .get fun _ => Exec.frugal_onView _

theorem settle_gas (e : Ended) : e.settle.frame.gasLeft ≤ e.frame.gasLeft := by
  unfold settle
  split
  · rename_i code _ _
    have := frugal_deposit code e.frame
    split <;> rename_i h <;> simpa only [h, Exec.after] using this
  · exact Nat.le_refl _

theorem close_gas (e : Ended) : e.close.outcome.gasLeft ≤ e.frame.gasLeft :=
  Nat.le_trans (outcome_gas _) (settle_gas _)

end Ended

namespace Message

theorem enterCall_uses (m : Message) (v : View) (p : Profile) :
    (m.enterCall v p).Uses m.gas := by
  unfold enterCall
  extract_lets w code
  split
  · exact Nat.le_refl m.gas
  · rfl

theorem enterCreate_uses (m : Message) (v : View) (p : Profile) :
    (m.enterCreate v p).Uses m.gas := by
  unfold enterCreate
  dsimp only
  split
  · exact Nat.zero_le _
  · split
    · exact Nat.le_refl _
    · split
      · exact Nat.zero_le _
      · rfl

theorem enter_uses (m : Message) (v : View) (p : Profile) : (m.enter v p).Uses m.gas := by
  unfold enter
  split
  · exact Nat.le_refl _
  · split
    · exact m.enterCreate_uses v p
    · exact m.enterCall_uses v p

end Message

namespace Opening

/-- What an opening comes to, where `run` ends the frames that use `n` gas. -/
def report {n : Nat} (run : (c : Frame) → c.gasLeft = n → { e : Ended // e.frame.gasLeft ≤ n })
    (p : Profile) : (o : Opening) → o.Uses n → { x : Report // x.outcome.gasLeft ≤ n }
  | answered o v, h => ⟨⟨o, v, p⟩, h⟩
  | running c, h => ⟨(run c h).1.close, Nat.le_trans (run c h).1.close_gas (run c h).2⟩

/-- What an opening comes to, where `run` ends frames. -/
def settle (run : Frame → Ended) (p : Profile) : Opening → Report
  | answered o v => ⟨o, v, p⟩
  | running c => (run c).close

theorem report_val {n : Nat} (r : Frame → Ended)
    (run : (c : Frame) → c.gasLeft = n → { e : Ended // e.frame.gasLeft ≤ n })
    (hr : ∀ c hc, (run c hc).1 = r c) (p : Profile) (o : Opening) (h : o.Uses n) :
    (o.report run p h).1 = o.settle r p := by
  cases o with
  | answered o v => rfl
  | running c =>
    change (run c h).1.close = (r c).close
    rw [hr c h]

end Opening

namespace Frame

/-- The frame with what its callee left behind. -/
def after (f : Frame) (r : Report) : Frame := { f with view := r.view, profile := r.profile }

theorem callee_lt {tx : Tx} {f g c : Frame} {m : Message} {r : Resume}
    (h : step tx f = .ok (.enter m r) g) (hc : c.gasLeft = m.gas) : c.gasLeft < f.gasLeft := by
  have := step_enter h
  omega

theorem failed_le {tx : Tx} {f g k : Frame} {m : Message} {r : Resume} {t : Trap} {x : Report}
    (h : step tx f = .ok (.enter m r) g) (hx : x.outcome.gasLeft ≤ m.gas)
    (hk : r.finish x.outcome (g.after x) = .error t k) : k.gasLeft ≤ f.gasLeft := by
  have := step_enter h
  have := finish_error hk
  have : (g.after x).gasLeft = g.gasLeft := rfl
  omega

theorem resumed_lt {tx : Tx} {f g k : Frame} {m : Message} {r : Resume} {x : Report}
    (h : step tx f = .ok (.enter m r) g) (hx : x.outcome.gasLeft ≤ m.gas)
    (hk : r.finish x.outcome (g.after x) = .ok () k) : k.gasLeft < f.gasLeft := by
  have := step_enter h
  have := finish_ok hk
  have : (g.after x).gasLeft = g.gasLeft := rfl
  omega

/-- Runs a frame to its end; it ends with no more gas than it has. -/
def runBounded (tx : Tx) (f : Frame) : { e : Ended // e.frame.gasLeft ≤ f.gasLeft } :=
  match h : step tx f with
  | .error t g => ⟨⟨.error t, g⟩, step_error h⟩
  | .ok (.halt x) g => ⟨⟨.ok x, g⟩, step_halt h⟩
  | .ok .next g =>
    let e := runBounded tx g
    ⟨e.1, Nat.le_trans e.2 (Nat.le_of_lt (step_next h))⟩
  | .ok (.enter m r) g =>
    let report := (m.enter g.view g.profile).report
      (fun c hc => ⟨(runBounded tx c).1, Nat.le_trans (runBounded tx c).2 (Nat.le_of_eq hc)⟩)
      g.profile (m.enter_uses g.view g.profile)
    match hk : r.finish report.1.outcome (g.after report.1) with
    | .error t k => ⟨⟨.error t, k⟩, failed_le h report.2 hk⟩
    | .ok () k =>
      let e := runBounded tx k
      ⟨e.1, Nat.le_trans e.2 (Nat.le_of_lt (resumed_lt h report.2 hk))⟩
  termination_by f.gasLeft
  decreasing_by
  · exact step_next h
  · exact callee_lt h hc
  · exact resumed_lt h report.2 hk

/-- Runs a frame, with all frames it starts, to its end. -/
def run (tx : Tx) (f : Frame) : Ended := (f.runBounded tx).1

end Frame

/-- Carries out a message. -/
def execute (tx : Tx) (m : Message) (v : View) (p : Profile) : Report :=
  (m.enter v p).settle (Frame.run tx) p

/-- How a frame ends from a flow on. -/
def Frame.continue (tx : Tx) (g : Frame) : Flow → Ended
  | .next => g.run tx
  | .halt x => ⟨.ok x, g⟩
  | .enter m r =>
    let report := execute tx m g.view g.profile
    match r.finish report.outcome (g.after report) with
    | .ok () k => k.run tx
    | .error t k => ⟨.error t, k⟩

theorem Frame.run_eq (tx : Tx) (f : Frame) :
    f.run tx = match step tx f with
      | .ok fl g => g.continue tx fl
      | .error t g => ⟨.error t, g⟩ := by
  unfold run
  rw [runBounded]
  split <;> rename_i h <;> simp only [h]
  · rfl
  · rfl
  · rename_i m r g
    have he : ((m.enter g.view g.profile).report
        (fun c hc => ⟨(runBounded tx c).1, Nat.le_trans (runBounded tx c).2 (Nat.le_of_eq hc)⟩)
        g.profile (m.enter_uses g.view g.profile)).1 = execute tx m g.view g.profile :=
      Opening.report_val (run tx) _ (fun _ _ => rfl) _ _ _
    simp only [Frame.continue]
    split <;> rename_i hk <;> rw [he] at hk <;> simp only [hk, Frame.run]

/-- Outcome and gas profile of a transaction, and the world after it. -/
structure Receipt where
  outcome : Outcome
  profile : Profile
  world : World

/-- Runs one transaction: its intrinsic gas is taken first, and a transaction that does not
succeed leaves the world as it was. -/
def transact (b : Block) (w : World) (m : Message) : Receipt :=
  let intrinsic := intrinsicGas m.input m.entry.creates
  if m.gas < intrinsic then ⟨.failure (.outOfGas intrinsic m.gas) 0, .empty, w⟩
  else
    let report := execute ⟨b, m.caller⟩ { m with gas := m.gas - intrinsic } (View.ofWorld w).enter
      (Profile.empty.add .intrinsic intrinsic)
    ⟨report.outcome, report.profile,
      if report.outcome.status.isSuccess then report.view.commit.base else w⟩

end ParticleChain.Evm
