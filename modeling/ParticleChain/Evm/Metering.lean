import ParticleChain.Evm.Step

/-!
# Gas never grows

No action of a frame adds gas to it, and what a callee gets has been paid for: `Pays c x d`
says that after `x`, with `c` spent before, at least `d` is spent in all. The main statement is
`pays_step`: an instruction that does not halt leaves less gas than it found, the gas of the
callee included.
-/

namespace ParticleChain.Evm

/-- The frame after an action, whether it trapped or not. -/
def Exec.after : EStateM.Result Trap Frame α → Frame
  | .ok _ f => f
  | .error _ f => f

/-- With `c` spent before `x`, at least `d` is spent after it. -/
def Exec.Pays (c : Nat) (x : Exec α) (d : α → Nat) : Prop := ∀ f : Frame,
  match x f with
  | .ok a g => d a + g.gasLeft ≤ c + f.gasLeft
  | .error _ g => g.gasLeft ≤ c + f.gasLeft

/-- The action adds no gas. -/
def Exec.Frugal (x : Exec α) : Prop := ∀ f : Frame, (after (x f)).gasLeft ≤ f.gasLeft

namespace Exec

theorem Pays.bind {c : Nat} {x : Exec α} {d : α → Nat} {k : α → Exec β} {e : β → Nat}
    (hx : Pays c x d) (hk : ∀ a, Pays (d a) (k a) e) : Pays c (x >>= k) e := by
  intro f
  have hx := hx f
  change match EStateM.bind x k f with
    | .ok a g => e a + g.gasLeft ≤ c + f.gasLeft
    | .error _ g => g.gasLeft ≤ c + f.gasLeft
  unfold EStateM.bind
  cases h : x f with
  | error t g => rw [h] at hx; exact hx
  | ok a g =>
    rw [h] at hx
    have hk := hk a g
    cases h' : k a g <;> simp only [h'] at hk ⊢ <;> omega

theorem Pays.pure {c : Nat} {a : α} {d : α → Nat} (h : d a ≤ c) : Pays c (pure a) d :=
  fun _ => Nat.add_le_add_right h _

theorem Frugal.pays {c : Nat} {x : Exec α} (h : Frugal x) : Pays c x fun _ => c := by
  intro f
  have := h f
  cases hx : x f <;> simp only [hx, after] at this ⊢ <;> omega

theorem frugal_iff_pays {x : Exec α} : Frugal x ↔ Pays 0 x fun _ => 0 := by
  refine ⟨Frugal.pays, fun h f => ?_⟩
  have := h f
  cases hx : x f <;> simp only [hx, after] at this ⊢ <;> omega

theorem Pays.mono {c : Nat} {x : Exec α} {d e : α → Nat} (h : Pays c x d) (hd : ∀ a, e a ≤ d a) :
    Pays c x e := by
  intro f
  have := h f
  cases hx : x f with
  | ok a g => have := hd a; simp only [hx] at *; omega
  | error t g => simpa only [hx] using this

theorem Pays.credit {x : Exec α} {d : α → Nat} (c : Nat) (h : Pays 0 x d) :
    Pays c x fun a => c + d a := by
  intro f
  have := h f
  cases hx : x f <;> simp only [hx] at this ⊢ <;> omega

/-- A number that fits is handed on as it is. -/
theorem pays_bounded_bind {c n : Nat} {k : Nat → Exec β} {e : β → Nat} (h : Pays c (k n) e) :
    Pays c (bounded n >>= k) e := by
  unfold bounded
  split
  · exact h
  · exact fun _ => Nat.le_add_left _ _

theorem Pays.frugal {x : Exec α} {d : α → Nat} (h : Pays 0 x d) : Frugal x := by
  intro f
  have := h f
  cases hx : x f <;> simp only [hx, after] at this ⊢ <;> omega

theorem pays_spend (c n : Nat) : Pays c (spend n) fun _ => c + n := by
  intro f
  unfold spend onMeter Meter.charge
  by_cases h : f.gas.covers n
  · simp only [h, if_true]
    have h : n ≤ f.gas.remaining := by simpa [Meter.covers] using h
    simp only [Frame.gasLeft, Meter.spend]
    omega
  · simp only [h]
    exact Nat.le_add_left _ _

theorem Frugal.bind {x : Exec α} {k : α → Exec β} (hx : Frugal x) (hk : ∀ a, Frugal (k a)) :
    Frugal (x >>= k) :=
  frugal_iff_pays.2 (hx.pays.bind fun a => (hk a).pays)

theorem Frugal.pure {a : α} : Frugal (pure a) := fun _ => Nat.le_refl _

theorem Frugal.throw {t : Trap} : Frugal (throw t : Exec α) := fun _ => Nat.le_refl _

theorem Frugal.get : Frugal (get : Exec Frame) := fun _ => Nat.le_refl _

theorem Frugal.modify {g : Frame → Frame} (h : ∀ f, (g f).gasLeft ≤ f.gasLeft) :
    Frugal (modify g) := h

theorem frugal_onStack (x : StackM α) : Frugal (onStack x) := by
  intro f
  unfold onStack
  dsimp only
  split <;> exact Nat.le_refl _

theorem pays_charge (c : Nat) (k : Category) (n : Nat) : Pays c (charge k n) fun _ => c + n :=
  (pays_spend c n).bind fun _ => (Frugal.modify fun _ => Nat.le_refl _).pays

theorem frugal_charge (k : Category) (n : Nat) : Frugal (charge k n) := (pays_charge 0 k n).frugal

theorem frugal_ensure (b : Bool) (t : Trap) : Frugal (ensure b t) := by
  unfold ensure
  split
  · exact .pure
  · exact .throw

theorem frugal_bounded (n : Nat) : Frugal (bounded n) := by
  unfold bounded
  split
  · exact .pure
  · exact .throw

theorem frugal_gasLeft : Frugal gasLeft := .bind .get fun _ => .pure

theorem frugal_touch (o n : Word) : Frugal (touch o n) := by
  unfold touch
  split
  · exact .throw
  · exact .pure
  · refine .bind (frugal_bounded _) fun _ => .bind .get fun _ => ?_
    exact .bind (frugal_charge _ _) fun _ => .bind (.modify fun _ => Nat.le_refl _) fun _ => .pure

theorem frugal_readMemory (o n : Nat) : Frugal (readMemory o n) :=
  .bind .get fun _ => .bind (frugal_ensure _ _) fun _ => .bind .get fun _ => .pure

theorem frugal_loadWord (o : Nat) : Frugal (loadWord o) :=
  .bind .get fun _ => .bind (frugal_ensure _ _) fun _ => .bind .get fun _ => .pure

theorem frugal_writeMemory (o : Nat) (b : ByteArray) : Frugal (writeMemory o b) :=
  .bind .get fun _ => .bind (frugal_ensure _ _) fun _ => .modify fun _ => Nat.le_refl _

theorem frugal_memorySlice (o n : Word) : Frugal (memorySlice o n) := by
  refine .bind (frugal_touch _ _) fun r => ?_
  cases r with
  | none => exact .pure
  | some r => exact frugal_readMemory _ _

theorem frugal_copyToMemory (d n : Word) (b : ByteArray) (s : Word) :
    Frugal (copyToMemory d n b s) := by
  refine .bind (frugal_touch _ _) fun r => ?_
  cases r with
  | none => exact .pure
  | some r =>
    exact .bind (frugal_bounded _) fun _ => .bind (frugal_charge _ _) fun _ =>
      frugal_writeMemory _ _

theorem frugal_jump (t : Word) : Frugal (jump t) := by
  unfold jump
  split
  · exact .throw
  · exact .bind .get fun _ => .bind (frugal_ensure _ _) fun _ => .modify fun _ => Nat.le_refl _

theorem frugal_requireMutable (s : String) : Frugal (requireMutable s) :=
  .bind .get fun _ => frugal_ensure _ _

theorem frugal_onView (g : View → View) : Frugal (onView g) := .modify fun _ => Nat.le_refl _

end Exec

open Exec

theorem frugal_copyFrom (s : CopySource) : Frugal (copyFrom s) := by
  cases s with
  | returnData =>
    exact .bind (frugal_onStack _) fun _ => .bind .get fun _ => .bind .get fun _ =>
      .bind (frugal_ensure _ _) fun _ => .bind .get fun _ => frugal_copyToMemory _ _ _ _
  | callData | code | accountCode =>
    exact .bind (frugal_onStack _) fun _ => .bind .get fun _ => frugal_copyToMemory _ _ _ _

/-- Writing a slot costs something, whatever it held. -/
theorem storageCost_pos (before current value : Word) :
    0 < storageCost before current value := by
  unfold storageCost
  split
  · decide
  · split <;> decide

theorem pays_writeSlot : Pays 0 writeSlot fun _ => 1 := by
  refine (frugal_requireMutable _).pays.bind fun _ => frugal_gasLeft.pays.bind fun _ =>
    (frugal_ensure _ _).pays.bind fun _ => (frugal_onStack _).pays.bind fun p =>
    Frugal.get.pays.bind fun f => (pays_charge 0 _ _).bind fun _ => ?_
  have hc := storageCost_pos (f.view.base.slot ⟨f.message.address, p.1⟩)
    (f.view.slot ⟨f.message.address, p.1⟩) p.2
  exact (frugal_onView _).pays.mono fun _ => by omega

theorem frugal_popTopics (n : Nat) : Frugal (popTopics n) := by
  induction n with
  | zero => exact .pure
  | succ n ih => exact .bind (frugal_onStack _) fun _ => .bind ih fun _ => .pure

theorem frugal_emitLog (n : Fin 5) : Frugal (emitLog n) :=
  .bind (frugal_requireMutable _) fun _ => .bind (frugal_onStack _) fun _ =>
    .bind (frugal_popTopics _) fun _ => .bind (frugal_memorySlice _ _) fun _ =>
      .bind (frugal_bounded _) fun _ => .bind (frugal_charge _ _) fun _ =>
        .modify fun _ => Nat.le_refl _

/-- The gas that a flow hands to a callee. -/
def Flow.handed : Flow → Nat
  | enter m _ => m.gas
  | _ => 0

theorem pays_startCreate (salted : Bool) : Pays 0 (startCreate salted) Flow.handed := by
  refine (frugal_requireMutable _).pays.bind fun _ => (frugal_onStack _).pays.bind fun _ =>
    Pays.bind (d := fun _ => 0) ?_ fun _ => (frugal_memorySlice _ _).pays.bind fun _ =>
    (frugal_ensure _ _).pays.bind fun _ => (frugal_bounded _).pays.bind fun _ =>
    (frugal_charge _ _).pays.bind fun _ => (frugal_bounded _).pays.bind fun _ =>
    (frugal_charge _ _).pays.bind fun _ => frugal_gasLeft.pays.bind fun _ =>
    (pays_spend 0 _).bind fun _ => Frugal.get.pays.bind fun _ => .pure ?_
  · unfold popEntry
    split
    · exact Frugal.pays (.bind (frugal_onStack _) fun _ => .pure)
    · exact Frugal.pure.pays
  · exact Nat.le_of_eq (Nat.zero_add _).symm

/-- A stipend is paid for by the surcharge of the call that grants it. -/
theorem stipend_le_surcharge (v : View) (k : CallKind) (callee : Address) (value : Word) :
    (if value.isZero then 0 else Price.stipend) ≤ callSurcharge v k callee value := by
  unfold callSurcharge
  split
  · exact Nat.le_refl _
  · split <;> decide

theorem calleeMessage_gas (m : Message) (k : CallKind) (callee : Address) (value : Word)
    (input : ByteArray) (gas : Nat) : (calleeMessage m k callee value input gas).gas = gas := by
  cases k <;> rfl

theorem pays_startCall (k : CallKind) : Pays 0 (startCall k) Flow.handed := by
  refine (frugal_onStack _).pays.bind fun _ => (frugal_onStack _).pays.bind fun callee =>
    Pays.bind (d := fun _ => 0) ?_ fun value => (frugal_onStack _).pays.bind fun _ =>
    Frugal.get.pays.bind fun _ => (frugal_ensure _ _).pays.bind fun _ =>
    (frugal_memorySlice _ _).pays.bind fun _ => (frugal_touch _ _).pays.bind fun _ =>
    Frugal.get.pays.bind fun f => (pays_charge 0 _ _).bind fun _ =>
    frugal_gasLeft.pays.bind fun _ => (pays_spend _ _).bind fun _ =>
    pays_bounded_bind <| Frugal.get.pays.bind fun _ => .pure ?_
  · cases k with
    | call | callCode => exact (frugal_onStack _).pays
    | delegateCall | staticCall => exact Frugal.pure.pays
  · have := stipend_le_surcharge f.view k (.ofWord callee) value
    simp only [Flow.handed, calleeMessage_gas]
    omega

/-- Whether the frame goes on after the flow. -/
def Flow.goesOn : Flow → Bool
  | halt _ => false
  | _ => true

/-- One unit, if the frame goes on: what an instruction without static gas has to spend. -/
def Flow.due (gas : Nat) (fl : Flow) : Nat :=
  fl.handed + if fl.goesOn && gas == 0 then 1 else 0

theorem pays_proceed {x : Exec Unit} {gas : Nat} (hx : Frugal x) (hg : 0 < gas) :
    Pays 0 (proceed x) (Flow.due gas) := by
  refine hx.pays.bind fun _ => .pure ?_
  have : (gas == 0) = false := beq_eq_false_iff_ne.2 (by omega)
  simp [Flow.due, Flow.handed, this]

theorem Exec.Pays.due {x : Exec Flow} {gas : Nat} (hx : Pays 0 x Flow.handed) (hg : 0 < gas) :
    Pays 0 x (Flow.due gas) := by
  have : (gas == 0) = false := beq_eq_false_iff_ne.2 (by omega)
  intro f
  have := hx f
  cases h : x f <;> simp_all [Flow.due]

theorem pays_destroy (gas : Nat) : Pays 0 destroy (Flow.due gas) :=
  (frugal_requireMutable _).pays.bind fun _ => (frugal_onStack _).pays.bind fun _ =>
    Frugal.get.pays.bind fun _ => Frugal.get.pays.bind fun _ =>
    (frugal_charge _ _).pays.bind fun _ => (frugal_onView _).pays.bind fun _ =>
    .pure (Nat.le_refl _)

theorem pays_perform (tx : Tx) (offset : Nat) (op : Opcode) :
    Pays 0 (perform tx offset op) (Flow.due op.shape.gas) := by
  cases op with
  | stop => exact .pure (by simp [Flow.due, Flow.handed, Flow.goesOn])
  | binary o =>
    refine pays_proceed (.bind (frugal_onStack _) fun _ => frugal_onStack _) ?_
    cases o <;> decide
  | isZero | not | addMod | mulMod =>
    exact pays_proceed (.bind (frugal_onStack _) fun _ => frugal_onStack _) (by decide)
  | exp =>
    exact pays_proceed (.bind (frugal_onStack _) fun _ => .bind (frugal_bounded _) fun _ =>
      .bind (frugal_charge _ _) fun _ => frugal_onStack _) (by decide)
  | keccak =>
    exact pays_proceed (.bind (frugal_onStack _) fun _ => .bind (frugal_memorySlice _ _) fun _ =>
      .bind (frugal_bounded _) fun _ => .bind (frugal_charge _ _) fun _ => frugal_onStack _)
      (by decide)
  | query q =>
    refine pays_proceed (.bind .get fun _ => frugal_onStack _) ?_
    cases q <;> decide
  | account q =>
    refine pays_proceed (.bind (frugal_onStack _) fun _ => .bind .get fun _ => frugal_onStack _) ?_
    cases q <;> decide
  | callDataLoad =>
    exact pays_proceed (.bind (frugal_onStack _) fun _ => .bind .get fun _ => frugal_onStack _)
      (by decide)
  | copy s =>
    refine pays_proceed (frugal_copyFrom s) ?_
    cases s <;> decide
  | blockHash =>
    exact pays_proceed (.bind (frugal_onStack _) fun _ => frugal_onStack _) (by decide)
  | pop => exact pays_proceed (.bind (frugal_onStack _) fun _ => .pure) (by decide)
  | mload =>
    refine pays_proceed (.bind (frugal_onStack _) fun _ => .bind (frugal_touch _ _) fun r => ?_)
      (by decide)
    cases r with
    | none => exact frugal_onStack _
    | some r => exact .bind (frugal_loadWord _) fun _ => frugal_onStack _
  | mstore | mstore8 =>
    refine pays_proceed (.bind (frugal_onStack _) fun _ => .bind (frugal_touch _ _) fun r => ?_)
      (by decide)
    cases r with
    | none => exact .pure
    | some r => exact frugal_writeMemory _ _
  | sload =>
    exact pays_proceed (.bind (frugal_onStack _) fun _ => .bind .get fun _ => frugal_onStack _)
      (by decide)
  | sstore =>
    exact pays_writeSlot.bind fun _ => .pure (by decide)
  | jump => exact pays_proceed (.bind (frugal_onStack _) fun _ => frugal_jump _) (by decide)
  | jumpIf =>
    refine pays_proceed (.bind (frugal_onStack _) fun _ => ?_) (by decide)
    dsimp only
    split
    · exact .pure
    · exact frugal_jump _
  | jumpDest => exact .pure (by decide)
  | push n =>
    refine pays_proceed (.bind .get fun _ => .bind .get fun _ => .bind (frugal_onStack _) fun _ =>
      .bind (frugal_bounded _) fun _ => .modify fun _ => Nat.le_refl _) ?_
    simp only [Opcode.shape]
    split <;> decide
  | dup n | swap n => exact pays_proceed (frugal_onStack _) (Nat.succ_pos 2)
  | log n => exact pays_proceed (frugal_emitLog n) (by simp [Opcode.shape])
  | create | create2 => exact (pays_startCreate _).due (by decide)
  | call k => exact (pays_startCall k).due (by cases k <;> decide)
  | ret | revert =>
    exact (frugal_onStack _).pays.bind fun _ => (frugal_memorySlice _ _).pays.bind fun _ =>
      .pure (Nat.le_refl _)
  | invalid => exact fun _ => Nat.le_add_left _ _
  | selfDestruct => exact pays_destroy _

theorem pays_prepare (op : Opcode) (offset : Nat) :
    Pays 0 (prepare op offset) fun _ => op.shape.gas :=
  (frugal_onStack _).pays.bind fun _ => (pays_charge 0 _ _).bind fun _ =>
    (Frugal.modify fun _ => Nat.le_refl _).pays.mono fun _ => Nat.le_of_eq (Nat.zero_add _).symm

/-- An instruction after which the frame goes on spends at least one unit of gas itself. -/
theorem pays_step (tx : Tx) :
    Pays 0 (step tx) fun fl => fl.handed + if fl.goesOn then 1 else 0 := by
  unfold step
  refine Frugal.get.pays.bind fun f => Frugal.get.pays.bind fun g => ?_
  dsimp only
  split
  · split
    · exact fun _ => Nat.le_add_left _ _
    · rename_i op _
      refine (pays_prepare op _).bind fun _ => ((pays_perform tx _ op).credit _).mono fun fl => ?_
      by_cases h : op.shape.gas = 0
      · simp [Flow.due, h]
      · simp only [Flow.due]
        split <;> omega
  · exact .pure (Nat.le_refl _)

theorem step_error {tx : Tx} {f g : Frame} {t : Trap} (h : step tx f = .error t g) :
    g.gasLeft ≤ f.gasLeft := by
  have := pays_step tx f
  simpa only [h, Nat.zero_add] using this

theorem step_halt {tx : Tx} {f g : Frame} {x : Halt} (h : step tx f = .ok (.halt x) g) :
    g.gasLeft ≤ f.gasLeft := by
  have := pays_step tx f
  simpa [h, Flow.handed, Flow.goesOn] using this

theorem step_next {tx : Tx} {f g : Frame} (h : step tx f = .ok .next g) :
    g.gasLeft < f.gasLeft := by
  have := pays_step tx f
  simp [h, Flow.handed, Flow.goesOn] at this
  omega

theorem step_enter {tx : Tx} {f g : Frame} {m : Message} {r : Resume}
    (h : step tx f = .ok (.enter m r) g) : m.gas + g.gasLeft < f.gasLeft := by
  have := pays_step tx f
  simp [h, Flow.handed, Flow.goesOn] at this
  omega

theorem frugal_storeOutput (b : ByteArray) (out : Option (Nat × Nat)) :
    Frugal (storeOutput b out) := by
  cases out with
  | none => exact .pure
  | some _ => exact frugal_writeMemory _ _

/-- A callee that leaves `n` gives back at most `n`. -/
theorem pays_finish (o : Outcome) (r : Resume) :
    Pays o.gasLeft (r.finish o) fun _ => 0 := by
  have take : ∀ o : Outcome, Pays o.gasLeft (modify (·.takeBack o) : Exec Unit) fun _ => 0 := by
    intro o f
    change 0 + min (saturate (f.gas.remaining + o.gasLeft)) f.gas.limit ≤
      o.gasLeft + f.gas.remaining
    simp only [saturate]
    omega
  cases r with
  | call out =>
    exact (take o).bind fun _ => (frugal_storeOutput _ _).pays.bind fun _ =>
      (frugal_onStack _).pays
  | create =>
    exact (take { o with output := if o.status == .reverted then o.output else .empty }).bind
      fun _ => (frugal_onStack _).pays

theorem finish_error {o : Outcome} {r : Resume} {f g : Frame} {t : Trap}
    (h : r.finish o f = .error t g) : g.gasLeft ≤ o.gasLeft + f.gasLeft := by
  have := pays_finish o r f
  simpa only [h] using this

theorem finish_ok {o : Outcome} {r : Resume} {f g : Frame} (h : r.finish o f = .ok () g) :
    g.gasLeft ≤ o.gasLeft + f.gasLeft := by
  have := pays_finish o r f
  simpa only [h, Nat.zero_add] using this

end ParticleChain.Evm
