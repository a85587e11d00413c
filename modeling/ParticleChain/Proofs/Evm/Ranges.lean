import ParticleChain.Proofs.Evm.Accounts
import ParticleChain.Proofs.Evm.Conservation
import ParticleChain.Proofs.Evm.Faults
import ParticleChain.Proofs.Evm.Grid
import ParticleChain.Proofs.Evm.Termination

/-!
# Nothing is out of range

No transaction comes to a fault (`transact_in_range`), and whatever its frames compute and slice
without a check is in range: the checked twins (`excerpt?` and the like) give the same. The twins
need bounds on the lengths of code, call data and return data. `Frame.Measured` says that these are
kept wherever a run comes to: code is that of an account or no longer than memory, and so are call
data and return data.
-/

namespace ParticleChain.Evm

open Exec Machine

/-! ## Lengths along a run -/

/-- What code that ends by itself hands back. -/
def Halt.data : Halt → ByteArray
  | .stop => .empty
  | .ret data | .revert data => data

theorem size_data_of_step {tx : Tx} {f g : Frame} {x : Halt} (h : step tx f = .ok (.halt x) g) :
    x.data.size ≤ Memory.limit := by
  obtain ⟨-, he, -⟩ | ⟨op, -, -, -, h⟩ := step_inv h
  · cases he
    exact Nat.zero_le _
  cases op with
  | stop =>
    cases h
    exact Nat.zero_le _
  | ret | revert =>
    obtain ⟨_, _, _, h⟩ := bind_inv h
    obtain ⟨_, _, hs, h⟩ := bind_inv h
    cases h
    exact size_memorySlice hs
  | selfDestruct =>
    cases (destroy_inv h).2.1
    exact Nat.zero_le _
  | create | create2 =>
    obtain ⟨-, _, _, _, _, -, -, hfl⟩ := startCreate_inv h
    cases hfl
  | call k =>
    obtain ⟨a, ws, i, o, input, gas, hc⟩ := startCall_inv h
    cases hc.flow
  | jumpDest | invalid => cases h
  | _ => cases (proceed_inv h).1

theorem size_data_of_run (tx : Tx) (f : Frame) :
    ∀ x, (f.run tx).halt = .ok x → x.data.size ≤ Memory.limit := by
  refine f.run_induction tx
    (motive := fun _ e => ∀ x, e.halt = .ok x → x.data.size ≤ Memory.limit)
    ?trap ?halt ?next ?back ?stuck
  case trap =>
    intro f g t h x hx
    cases hx
  case halt =>
    intro f g x h y hy
    cases hy
    exact size_data_of_step h
  case next =>
    intro f g h ih
    exact ih
  case back =>
    intro f g k m r h _ hk ih
    exact ih
  case stuck =>
    intro f g k m r t h _ hk x hx
    cases hx

theorem Ended.size_output {e : Ended} {n : Nat} (h : ∀ x, e.halt = .ok x → x.data.size ≤ n) :
    e.close.outcome.output.size ≤ n := by
  have hs : ∀ x, e.settle.halt = .ok x → x.data.size ≤ n := by
    match e.settle, e.settles with
    | _, .same _ => exact h
    | _, .deposited _ _ _ _ _ _ _ =>
      intro x hx
      cases hx
      exact Nat.zero_le n
    | _, .trapped _ _ _ _ => exact fun x hx => nomatch hx
  change e.settle.outcome.output.size ≤ n
  unfold outcome
  dsimp only
  split <;> rename_i hx
  · exact Nat.zero_le n
  · exact hs _ hx
  · exact hs _ hx
  · exact Nat.zero_le n

theorem size_output (tx : Tx) (m : Message) (v : View) (p : Profile) :
    (execute tx m v p).outcome.output.size ≤ Memory.limit := by
  cases h : m.enter v p with
  | answered o w =>
    rw [execute_answered h]
    cases Message.opens_of h <;> exact Nat.zero_le _
  | running c =>
    rw [execute_running h]
    exact Ended.size_output (size_data_of_run tx c)

/-- The code of the account is shorter than `lengthLimit`. -/
def Account.Measured (x : Account) : Prop := x.code.size < lengthLimit

theorem Account.closed_measured : Account.Closed Account.Measured where
  fresh := show ByteArray.empty.size < lengthLimit by decide
  update _ _ h := h
  deposit hs _ _ := Nat.lt_of_le_of_lt hs (by decide)

/-- All byte strings that the frame reads pieces of are shorter than `lengthLimit`. -/
structure Frame.Measured (f : Frame) : Prop where
  code : f.code.size < lengthLimit
  input : f.message.input.size < lengthLimit
  returned : f.returned.size < lengthLimit
  accounts : f.view.Each Account.Measured

section

variable {tx : Tx} {f g c : Frame} {m : Message} {r : Resume} {v : View} {p : Profile}

theorem measured_of_enter (hm : m.input.size < lengthLimit) (hv : v.Each Account.Measured)
    (h : m.enter v p = .running c) : c.Measured := by
  have hempty : ByteArray.empty.size < lengthLimit := by decide
  cases Message.opens_of h with
  | call =>
    have he := m.each_calleeView Account.closed_measured hv
    exact ⟨he.account Account.closed_measured _, hm, hempty, he⟩
  | init => exact ⟨hm, hempty, hempty, m.each_initView Account.closed_measured hv⟩

theorem size_input_of_step (h : step tx f = .ok (.enter m r) g) :
    m.input.size < lengthLimit := by
  have hlimit : Memory.limit < lengthLimit := by decide
  have hinit : maxInitSize < lengthLimit := by decide
  obtain ⟨op, -, -, ⟨k, -, h⟩ | ⟨salted, -, h⟩⟩ := enter_inv h
  · obtain ⟨a, ws, i, o, input, gas, hc⟩ := startCall_inv h
    have hsize : input.size < lengthLimit := Nat.lt_of_le_of_lt hc.inputSize hlimit
    cases hc.flow
    cases k <;> exact hsize
  · obtain ⟨-, _, _, _, _, -, hs, hfl⟩ := startCreate_inv h
    cases hfl
    exact Nat.lt_of_le_of_lt hs hinit

theorem Frame.Effect.returned {fl : Flow} (h : f.Effect g fl) : g.returned = f.returned := by
  cases h with
  | quiet h | store _ _ _ _ _ _ h | log _ _ _ _ h | destroy _ _ _ _ _ h => exact h.returned

theorem Frame.Measured.step {fl : Flow} (hf : f.Measured) (h : step tx f = .ok fl g) :
    g.Measured where
  code := by
    rw [(step_effect h).code]
    exact hf.code
  input := by
    rw [(step_effect h).message]
    exact hf.input
  returned := by
    rw [(step_effect h).returned]
    exact hf.returned
  accounts := step_each Account.closed_measured h hf.accounts

theorem Frame.Measured.turn (hf : f.Measured) (h : f.Turn tx g) : g.Measured := by
  cases h with
  | next h => exact hf.step h
  | back h hk =>
    have hg := hf.step h
    have hr := resumed_ok hk
    refine ⟨?code, ?input, ?returned, ?accounts⟩
    case code =>
      rw [hr.code]
      exact hg.code
    case input =>
      rw [hr.message]
      exact hg.input
    case returned =>
      obtain he | he := hr.returned <;> rw [he]
      · exact Nat.lt_of_le_of_lt (size_output tx _ _ _) (by decide)
      · decide
    case accounts =>
      exact (carried_each Account.closed_measured tx).reaches (.turn (.back h hk) (.refl g))
        hf.accounts

theorem Message.Visits.measured (h : m.Visits tx v p f) (hm : m.input.size < lengthLimit)
    (hv : v.Each Account.Measured) : f.Measured := by
  obtain ⟨c, hc, hr⟩ := h
  exact hr.keeps (fun hf ht => hf.turn ht)
    (fun hf hs hc => measured_of_enter (size_input_of_step hs) (hf.step hs).accounts hc)
    (measured_of_enter hm hv hc)

end

/-! ## Transactions -/

/-- A byte string that the frame can copy to its memory. -/
inductive Frame.Source (f : Frame) : ByteArray → Prop
  | input : Source f f.message.input
  | code : Source f f.code
  | returned : Source f f.returned
  | account (a : Address) : Source f (f.view.account a).code

theorem Frame.Measured.source {f : Frame} {b : ByteArray} (hf : f.Measured) (hb : f.Source b) :
    b.size < lengthLimit := by
  cases hb with
  | input => exact hf.input
  | code => exact hf.code
  | returned => exact hf.returned
  | account a => exact hf.accounts.account Account.closed_measured a

/-- Nothing that the next instruction of the frame comes to is out of range. -/
structure Frame.InRange (tx : Tx) (f : Frame) : Prop where
  /-- It reads and writes within the memory, and its costs are amounts. -/
  instruction : Faultless (step tx) f
  /-- The output of a callee is written within the memory. -/
  report : ∀ m r g, step tx f = .ok (.enter m r) g → ∀ k, g.answered tx m r ≠ .error .fault k
  output : ∀ m r g, step tx f = .ok (.enter m r) g → ∀ n,
    let o := (execute tx m g.view g.profile).outcome.output
    slice? o 0 (min n o.size) = some (o.extract 0 (min n o.size))
  deposit : ∀ code g, step tx f = .ok (.halt (.ret code)) g → Faultless (deposit code) g
  /-- The depth of a callee is a number. -/
  depth : f.message.depth + 1 ≤ maxAmount
  copy : ∀ b, f.Source b → ∀ start n,
    Memory.excerpt? b start n = some (Memory.excerpt b start n)
  load : ∀ start, paddedWord? f.message.input start = some (paddedWord f.message.input start)
  push : ∀ n : Fin 33, f.opcode? = some (.push n) →
    immediateWord? f.code (f.pc + 1) n = some (immediateWord f.code (f.pc + 1) n)
  dests : jumpDests? f.code = some f.dests

theorem Frame.Measured.inRange {tx : Tx} {f : Frame} (hf : f.Measured) (hg : f.OnGrid)
    (hgas : f.gasLeft ≤ maxAmount) (hdepth : f.message.depth ≤ maxDepth) : f.InRange tx where
  instruction := faultless_step tx hgas hf.code
  report _ _ _ h _ := faultless_answered h
  output _ _ _ _ _ := slice?_eq (Nat.zero_le _) (Nat.min_le_right _ _)
  deposit code g _ := faultless_deposit code g
  depth := Nat.le_trans (Nat.succ_le_succ hdepth) (by decide)
  copy _ hb := Memory.excerpt?_eq (hf.source hb)
  load := paddedWord?_eq hf.input
  push n hop := by
    obtain ⟨hpc, -⟩ := opcode?_inv hop
    exact immediateWord?_eq hf.code hpc (Nat.le_of_lt_succ n.isLt)
  dests := by
    rw [hg.dests]
    exact jumpDests?_eq hf.code

/-- Nothing that a transaction computes or reads is out of range, whatever the operands are and
however much gas there is, if call data and the code in the world are shorter than `lengthLimit`.
No frame on the way faults, and what is computed and sliced without a check gives the same when it
is checked. -/
theorem transact_in_range (b : Block) (w : World) (m : Message) (hgas : m.gas ≤ maxAmount)
    (hinput : m.input.size < lengthLimit)
    (hcode : ∀ a x, w.account? a = some x → x.code.size < lengthLimit) :
    (transact b w m).outcome.status ≠ .failed .fault ∧
    intrinsicGas? m.input m.entry.creates = some (intrinsicGas m.input m.entry.creates) ∧
    (∀ f, m.charged.Visits ⟨b, m.caller⟩ (View.ofWorld w).enter m.bill f →
      f.InRange ⟨b, m.caller⟩) ∧
    (∀ (memory : Memory) (offset length : Word) (o n : Nat),
      Memory.range offset length = .ok (some (o, n)) →
      memory.expansionGas? o n = some (memory.expansionGas o n) ∧
      memory.grow? o n = some (memory.grow o n)) ∧
    (∀ n, allButOne64th? n = some (allButOne64th n)) ∧
    ∀ (m' : Message) (v : View), m'.Derives v →
      let nonce := (v.account m'.caller).nonce
      createPreimage? m'.caller nonce = some (createPreimage m'.caller nonce) := by
  have hv : (View.ofWorld w).enter.Each Account.Measured :=
    View.Each.of_read (v := .ofWorld w) hcode (View.account?_enter _)
  have hvisits : ∀ f, m.charged.Visits ⟨b, m.caller⟩ (View.ofWorld w).enter m.bill f →
      f.InRange ⟨b, m.caller⟩ := fun f hf => by
    have hf' : f.OnGrid := by
      obtain ⟨c, hc, hr⟩ := hf
      exact (onGrid_of_enter hc).reaches hr
    exact (hf.measured hinput hv).inRange hf' (Nat.le_trans hf.gas_le
      (Nat.le_trans (Nat.sub_le _ _) hgas)) hf.sound.depth
  refine ⟨?_, intrinsicGas?_eq hinput _, hvisits, fun memory offset length o n h => ?_,
    allButOne64th?_eq, fun m' v h => createPreimage?_eq _ (Nat.le_of_lt h.2.2.2)⟩
  · unfold transact
    dsimp only
    split
    · exact nofun
    · exact execute_ne_fault fun f hf => (hvisits f hf).instruction
  · have hle := Memory.le_limit_of_range h
    exact ⟨Memory.expansionGas?_eq memory hle, Memory.grow?_eq memory hle⟩

/-- A world whose one account is the contract of `relayCode`. -/
def relayWorld : World := .ofContract ⟨7, 0, 0⟩ .one relayCode

/-- A call that has 500 gas left for its frame. -/
def relayTx : Message := .plainCall .zero ⟨7, 0, 0⟩ .empty 21500 .zero

theorem account?_relayWorld {a : Address} {x : Account} (h : relayWorld.account? a = some x) :
    x.code = relayCode := by
  change (World.empty.setAccount _ _).account? a = some x at h
  rw [World.account?_setAccount] at h
  split at h
  · cases h
    rfl
  · cases h

/-- The relay comes to its call, and what the callee reports is taken up. -/
theorem transact_in_range_relay :
    (transact .standard relayWorld relayTx).outcome.status ≠ .failed .fault ∧
    intrinsicGas? .empty false = some 21000 ∧
    ∃ f m r g, relayTx.charged.Visits ⟨.standard, .zero⟩ (View.ofWorld relayWorld).enter
        relayTx.bill f ∧
      step ⟨.standard, .zero⟩ f = .ok (.enter m r) g ∧
      (∀ k, g.answered ⟨.standard, .zero⟩ m r ≠ .error .fault k) ∧
      Memory.excerpt? relayCode (.ofNat 4) 32 = some (Memory.excerpt relayCode (.ofNat 4) 32) := by
  obtain ⟨hstatus, hintrinsic, hvisits, -⟩ := transact_in_range .standard relayWorld relayTx
    (by decide) (by decide) fun a x hx => by
      rw [account?_relayWorld hx]
      decide
  have hc : relayTx.charged.enter (View.ofWorld relayWorld).enter relayTx.bill =
      .running (.start relayTx.charged relayCode (View.ofWorld relayWorld).enter.enter
        relayTx.bill) := rfl
  have hv : relayTx.charged.Visits ⟨.standard, .zero⟩ (View.ofWorld relayWorld).enter
      relayTx.bill _ :=
    ⟨_, hc, .turn (.next rfl) <| .turn (.next rfl) <| .turn (.next rfl) <| .turn (.next rfl) <|
      .turn (.next rfl) <| .turn (.next rfl) <| .turn (.next rfl) <| .refl _⟩
  have hr := hvisits _ hv
  exact ⟨hstatus, hintrinsic, _, _, _, _, hv, rfl, hr.report _ _ _ rfl,
    hr.copy _ .code _ _⟩

end ParticleChain.Evm
