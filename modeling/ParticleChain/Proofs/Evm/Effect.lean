import ParticleChain.Proofs.Evm.Primitives

/-!
# What one instruction changes

Most instructions are quiet: they work on program counter, stack, memory, gas and profile of
their frame only. `SSTORE`, `LOGn` and `SELFDESTRUCT` write besides, each in one place, as the
last thing they do and never in a static frame. The main statements are `step_effect`, for an
instruction that succeeds, and `step_trap_quiet`, for one that traps.
-/

namespace ParticleChain.Evm

/-! ## Quiet actions -/

/-- Two frames that differ in program counter, stack, memory, gas and profile at most. -/
structure Frame.Quiet (f g : Frame) : Prop where
  message : g.message = f.message
  code : g.code = f.code
  dests : g.dests = f.dests
  limit : g.gas.limit = f.gas.limit
  returned : g.returned = f.returned
  logs : g.logs = f.logs
  view : g.view = f.view

theorem Frame.Quiet.refl (f : Frame) : f.Quiet f := ⟨rfl, rfl, rfl, rfl, rfl, rfl, rfl⟩

theorem Frame.Quiet.trans {f g h : Frame} (a : f.Quiet g) (b : g.Quiet h) : f.Quiet h where
  message := b.message.trans a.message
  code := b.code.trans a.code
  dests := b.dests.trans a.dests
  limit := b.limit.trans a.limit
  returned := b.returned.trans a.returned
  logs := b.logs.trans a.logs
  view := b.view.trans a.view

theorem inert_quiet : Frame.Inert Frame.Quiet where
  refl := .refl
  trans := .trans
  stack _ _ := ⟨rfl, rfl, rfl, rfl, rfl, rfl, rfl⟩
  spend _ _ := ⟨rfl, rfl, rfl, rfl, rfl, rfl, rfl⟩
  profile _ _ := ⟨rfl, rfl, rfl, rfl, rfl, rfl, rfl⟩
  grow _ _ _ _ := ⟨rfl, rfl, rfl, rfl, rfl, rfl, rfl⟩
  store _ _ _ _ := ⟨rfl, rfl, rfl, rfl, rfl, rfl, rfl⟩

theorem steady_quiet : Frame.Steady Frame.Quiet := inert_quiet.steady

theorem Frame.quiet_paying (f : Frame) (c : Category) (n : Nat) : f.Quiet (f.paying c n) :=
  ⟨rfl, rfl, rfl, rfl, rfl, rfl, rfl⟩

namespace Exec

variable {α β : Type}

/-- The action leaves a quiet frame, whether it succeeds or traps. -/
def Quiet (x : Exec α) : Prop := ∀ f : Frame, f.Quiet (after (x f))

/-- The action leaves a quiet frame if it traps. -/
def QuietTrap (x : Exec α) : Prop := ∀ (f g : Frame) (t : Trap), x f = .error t g → f.Quiet g

theorem Quiet.ok {x : Exec α} (h : Quiet x) {f g : Frame} {a : α} (hx : x f = .ok a g) :
    f.Quiet g := Keeps.ok h hx

theorem Quiet.trap {x : Exec α} (h : Quiet x) : QuietTrap x := fun _ _ _ => Keeps.trap h

theorem QuietTrap.bind {x : Exec α} {k : α → Exec β} (hx : Quiet x) (hk : ∀ a, QuietTrap (k a)) :
    QuietTrap (x >>= k) := by
  intro f g t h
  obtain h | ⟨a, g', hr, h⟩ := bind_error_inv h
  · exact hx.trap f g t h
  · exact (hx.ok hr).trans (hk a g' g t h)

theorem quiet_get : Quiet (get : Exec Frame) := keeps_get steady_quiet

theorem quiet_ensure (b : Bool) (t : Trap) : Quiet (ensure b t) := keeps_ensure steady_quiet b t

theorem quiet_bounded (n : Nat) : Quiet (bounded n) := keeps_bounded steady_quiet n

theorem quiet_onStack (x : StackM α) : Quiet (onStack x) := keeps_onStack steady_quiet x

theorem quiet_charge (c : Category) (n : Nat) : Quiet (charge c n) := keeps_charge steady_quiet c n

theorem quiet_gasLeft : Quiet gasLeft := keeps_gasLeft steady_quiet

theorem quiet_memorySlice (o n : Word) : Quiet (memorySlice o n) :=
  keeps_memorySlice steady_quiet o n

theorem quiet_requireMutable (s : String) : Quiet (requireMutable s) :=
  keeps_requireMutable steady_quiet s

end Exec

open Exec

theorem quiet_popTopics (n : Nat) : Exec.Quiet (popTopics n) := keeps_popTopics steady_quiet n

theorem quiet_perform (tx : Tx) (offset : Nat) {op : Opcode} (h : op.writes = false) :
    Exec.Quiet (perform tx offset op) :=
  keeps_perform inert_quiet tx offset op (fun _ _ _ => ⟨rfl, rfl, rfl, rfl, rfl, rfl, rfl⟩)
    fun hw => absurd (hw.symm.trans h) Bool.noConfusion

/-! ## The instructions that write -/

/-- The frame with a slot of its account written. -/
def Frame.storing (f : Frame) (key value : Word) : Frame :=
  { f with view := f.view.setSlot ⟨f.message.address, key⟩ value }

/-- The frame with one more log. -/
def Frame.logging (f : Frame) (l : Log) : Frame := { f with logs := f.logs.push l }

/-- The frame with its account removed, the balance being moved to the beneficiary. -/
def Frame.destroying (f : Frame) (beneficiary : Address) : Frame :=
  let self := f.message.address
  { f with
    view := (f.view.transfer self beneficiary (f.view.balance self)).setAccount self none }

theorem Frame.Quiet.storing {f g : Frame} (h : f.Quiet g) (key value : Word) :
    (f.storing key value).Quiet (g.storing key value) where
  message := h.message
  code := h.code
  dests := h.dests
  limit := h.limit
  returned := h.returned
  logs := h.logs
  view := by simp only [Frame.storing, h.message, h.view]

theorem Frame.Quiet.logging {f g : Frame} (h : f.Quiet g) (l : Log) :
    (f.logging l).Quiet (g.logging l) where
  message := h.message
  code := h.code
  dests := h.dests
  limit := h.limit
  returned := h.returned
  logs := by simp only [Frame.logging, h.logs]
  view := h.view

theorem Frame.Quiet.destroying {f g : Frame} (h : f.Quiet g) (a : Address) :
    (f.destroying a).Quiet (g.destroying a) where
  message := h.message
  code := h.code
  dests := h.dests
  limit := h.limit
  returned := h.returned
  logs := h.logs
  view := by simp only [Frame.destroying, h.message, h.view]

section

variable {f g : Frame} {u : Unit} {fl : Flow}

theorem writeSlot_inv (h : writeSlot f = .ok u g) :
    f.message.isStatic = false ∧ ∃ (ws : Array Word) (key value : Word),
      f.stack.words = (ws.push value).push key ∧ (f.storing key value).Quiet g := by
  obtain ⟨_, _, hr, h⟩ := bind_inv h
  obtain ⟨hm, rfl⟩ := requireMutable_inv hr
  obtain ⟨_, _, hl, h⟩ := bind_inv h
  obtain ⟨-, rfl⟩ := gasLeft_inv hl
  obtain ⟨_, _, he, h⟩ := bind_inv h
  obtain ⟨-, rfl⟩ := ensure_inv he
  obtain ⟨⟨key, value⟩, _, hp, h⟩ := bind_inv h
  obtain ⟨ws, hw, rfl⟩ := pop2_inv hp
  obtain ⟨_, _, hf, h⟩ := bind_inv h
  obtain ⟨rfl, rfl⟩ := get_inv hf
  obtain ⟨_, _, hc, h⟩ := bind_inv h
  obtain ⟨-, rfl⟩ := charge_inv hc
  cases h
  exact ⟨hm, ws, key, value, hw, rfl, rfl, rfl, rfl, rfl, rfl, rfl⟩

theorem emitLog_inv {n : Fin 5} (h : emitLog n f = .ok u g) :
    f.message.isStatic = false ∧ ∃ l, (f.logging l).Quiet g := by
  obtain ⟨_, _, hr, h⟩ := bind_inv h
  obtain ⟨hm, rfl⟩ := requireMutable_inv hr
  obtain ⟨⟨offset, length⟩, f₁, hp, h⟩ := bind_inv h
  obtain ⟨topics, f₂, ht, h⟩ := bind_inv h
  obtain ⟨data, f₃, hs, h⟩ := bind_inv h
  obtain ⟨n, f₄, hb, h⟩ := bind_inv h
  obtain ⟨_, f₅, hc, h⟩ := bind_inv h
  have q : f.Quiet f₅ := ((quiet_onStack _).ok hp).trans <| ((quiet_popTopics _).ok ht).trans <|
    ((quiet_memorySlice _ _).ok hs).trans <| ((quiet_bounded _).ok hb).trans <|
      (quiet_charge _ _).ok hc
  cases h
  refine ⟨hm, ⟨f₅.message.address, topics, data⟩, { q with logs := ?_ }⟩
  change f₅.logs.push _ = f.logs.push _
  rw [q.logs]

theorem destroy_inv (h : destroy f = .ok fl g) :
    f.message.isStatic = false ∧ fl = .halt .stop ∧ ∃ (ws : Array Word) (w : Word),
      f.stack.words = ws.push w ∧ (f.destroying (.ofWord w)).Quiet g := by
  obtain ⟨_, _, hr, h⟩ := bind_inv h
  obtain ⟨hm, rfl⟩ := requireMutable_inv hr
  obtain ⟨w, _, hp, h⟩ := bind_inv h
  obtain ⟨ws, hw, rfl⟩ := pop_inv hp
  obtain ⟨_, _, hf, h⟩ := bind_inv h
  obtain ⟨rfl, rfl⟩ := get_inv hf
  obtain ⟨_, _, hf, h⟩ := bind_inv h
  obtain ⟨rfl, rfl⟩ := get_inv hf
  obtain ⟨_, _, hc, h⟩ := bind_inv h
  obtain ⟨-, rfl⟩ := charge_inv hc
  obtain ⟨_, _, hv, h⟩ := bind_inv h
  cases hv
  obtain ⟨rfl, rfl⟩ := pure_inv h
  exact ⟨hm, rfl, ws, w, hw, rfl, rfl, rfl, rfl, rfl, rfl, rfl⟩

end

theorem quietTrap_modify (m : Frame → Frame) : QuietTrap (modify m : Exec Unit) :=
  fun _ _ _ h => nomatch h

theorem Exec.QuietTrap.proceed {x : Exec Unit} (hx : QuietTrap x) : QuietTrap (proceed x) := by
  intro f g t h
  obtain h | ⟨a, g', -, h⟩ := bind_error_inv h
  · exact hx f g t h
  · cases h

theorem quietTrap_perform (tx : Tx) (offset : Nat) (op : Opcode) :
    QuietTrap (perform tx offset op) := by
  cases op with
  | sstore =>
    exact .proceed <| .bind (quiet_requireMutable _) fun _ => .bind quiet_gasLeft fun _ =>
      .bind (quiet_ensure _ _) fun _ => .bind (quiet_onStack _) fun _ => .bind quiet_get fun _ =>
      .bind (quiet_charge _ _) fun _ => quietTrap_modify _
  | log n =>
    exact .proceed <| .bind (quiet_requireMutable _) fun _ => .bind (quiet_onStack _) fun _ =>
      .bind (quiet_popTopics _) fun _ => .bind (quiet_memorySlice _ _) fun _ =>
      .bind (quiet_bounded _) fun _ => .bind (quiet_charge _ _) fun _ => quietTrap_modify _
  | selfDestruct =>
    refine .bind (quiet_requireMutable _) fun _ => .bind (quiet_onStack _) fun _ =>
      .bind quiet_get fun _ => .bind quiet_get fun _ => .bind (quiet_charge _ _) fun _ => ?_
    exact fun _ _ _ h => nomatch h
  | _ => exact (quiet_perform tx offset rfl).trap

/-! ## One turn of the program counter -/

/-- The instruction at the program counter. -/
def Frame.opcode? (f : Frame) : Option Opcode :=
  if h : f.pc < f.code.size then Opcode.ofByte? f.code[f.pc] else none

theorem Frame.opcode?_inv {f : Frame} {op : Opcode} (h : f.opcode? = some op) :
    ∃ hpc : f.pc < f.code.size, Opcode.ofByte? f.code[f.pc] = some op := by
  unfold opcode? at h
  split at h
  · rename_i hpc
    exact ⟨hpc, h⟩
  · cases h

/-- The frame after an instruction is checked and its static gas is paid. -/
def Frame.prepared (f : Frame) (op : Opcode) : Frame :=
  { f.paying .opcodeBase op.shape.gas with
    stack := { f.stack with mnemonic := op.shape.mnemonic }, pc := f.pc + 1 }

/-- The stack has the operands of an instruction and room for its results. -/
def Frame.Fits (f : Frame) (op : Opcode) : Prop :=
  op.shape.pops ≤ f.stack.size ∧ f.stack.size - op.shape.pops + op.shape.pushes ≤ Stack.limit

instance (f : Frame) (op : Opcode) : Decidable (f.Fits op) := inferInstanceAs (Decidable (_ ∧ _))

theorem Frame.message_prepared (f : Frame) (op : Opcode) : (f.prepared op).message = f.message :=
  rfl

theorem Frame.words_prepared (f : Frame) (op : Opcode) :
    (f.prepared op).stack.words = f.stack.words := rfl

theorem Frame.quiet_prepared (f : Frame) (op : Opcode) : f.Quiet (f.prepared op) :=
  ⟨rfl, rfl, rfl, rfl, rfl, rfl, rfl⟩

theorem quiet_prepare (op : Opcode) (offset : Nat) : Exec.Quiet (prepare op offset) :=
  keeps_prepare steady_quiet (fun _ _ => ⟨rfl, rfl, rfl, rfl, rfl, rfl, rfl⟩) op offset

section

variable {tx : Tx} {f g : Frame} {fl : Flow}

theorem prepare_inv {op : Opcode} {u : Unit} (h : prepare op f.pc f = .ok u g) :
    f.Fits op ∧ op.shape.gas ≤ f.gasLeft ∧ g = f.prepared op := by
  obtain ⟨_, _, hx, h⟩ := bind_inv h
  obtain ⟨s, hs, rfl⟩ := onStack_inv hx
  obtain ⟨hp, hr, rfl⟩ := Stack.require_inv hs
  obtain ⟨_, _, hc, h⟩ := bind_inv h
  obtain ⟨hg, rfl⟩ := charge_inv hc
  cases h
  exact ⟨⟨hp, hr⟩, hg, rfl⟩

/-- An instruction that succeeds is fetched, fits the stack, is paid for and is performed; at the
end of the code there is none. -/
theorem step_inv (h : step tx f = .ok fl g) :
    (f.opcode? = none ∧ fl = .halt .stop ∧ f = g) ∨
    ∃ op, f.opcode? = some op ∧ f.Fits op ∧ op.shape.gas ≤ f.gasLeft ∧
      perform tx f.pc op (f.prepared op) = .ok fl g := by
  unfold step at h
  obtain ⟨_, _, hf, h⟩ := bind_inv h
  obtain ⟨rfl, rfl⟩ := get_inv hf
  obtain ⟨_, _, hf, h⟩ := bind_inv h
  obtain ⟨rfl, rfl⟩ := get_inv hf
  unfold Frame.opcode?
  dsimp only at h
  split at h
  · rename_i hpc
    rw [dif_pos hpc]
    rcases hop : Opcode.ofByte? f.code[f.pc] with _ | op <;> rw [hop] at h
    · cases h
    · obtain ⟨_, _, hp, h⟩ := bind_inv h
      obtain ⟨hfit, hgas, rfl⟩ := prepare_inv hp
      exact .inr ⟨op, rfl, hfit, hgas, h⟩
  · rename_i hpc
    obtain ⟨rfl, rfl⟩ := pure_inv h
    exact .inl ⟨dif_neg hpc, rfl, rfl⟩

/-- An instruction that traps cannot be fetched, prepared or performed. -/
theorem step_trap_inv {t : Trap} (h : step tx f = .error t g) :
    (f = g ∧ ∃ byte, t = .invalidOpcode byte f.pc) ∨
    ∃ op, f.opcode? = some op ∧ (prepare op f.pc f = .error t g ∨
      f.Fits op ∧ op.shape.gas ≤ f.gasLeft ∧ perform tx f.pc op (f.prepared op) = .error t g) := by
  unfold step at h
  obtain h | ⟨_, _, hf, h⟩ := bind_error_inv h
  · cases h
  obtain ⟨rfl, rfl⟩ := get_inv hf
  obtain h | ⟨_, _, hf, h⟩ := bind_error_inv h
  · cases h
  obtain ⟨rfl, rfl⟩ := get_inv hf
  unfold Frame.opcode?
  dsimp only at h
  split at h
  · rename_i hpc
    rw [dif_pos hpc]
    rcases hop : Opcode.ofByte? f.code[f.pc] with _ | op <;> rw [hop] at h
    · cases h
      exact .inl ⟨rfl, _, rfl⟩
    · obtain h | ⟨_, _, hp, h⟩ := bind_error_inv h
      · exact .inr ⟨op, rfl, .inl h⟩
      · obtain ⟨hfit, hgas, rfl⟩ := prepare_inv hp
        exact .inr ⟨op, rfl, .inr ⟨hfit, hgas, h⟩⟩
  · cases h

theorem prepare_ok {op : Opcode} (hf : f.Fits op) (hg : op.shape.gas ≤ f.gasLeft) :
    prepare op f.pc f = .ok () (f.prepared op) := by
  have hs : onStack (Stack.require op.shape.mnemonic op.shape.pops op.shape.pushes) f =
      .ok () { f with stack := { f.stack with mnemonic := op.shape.mnemonic } } :=
    onStack_ok (Stack.require_ok hf.1 hf.2)
  have hc := charge_ok (k := .opcodeBase)
    (f := { f with stack := { f.stack with mnemonic := op.shape.mnemonic } }) hg
  exact (bind_ok hs).trans (bind_ok hc)

/-- An instruction that has the operands it needs and is paid for is performed. -/
theorem step_eq_perform {op : Opcode} (hop : f.opcode? = some op) (hf : f.Fits op)
    (hg : op.shape.gas ≤ f.gasLeft) : step tx f = perform tx f.pc op (f.prepared op) := by
  obtain ⟨hpc, hb⟩ := Frame.opcode?_inv hop
  unfold step
  refine (bind_ok rfl).trans ((bind_ok rfl).trans ?_)
  dsimp only
  rw [dif_pos hpc, hb]
  exact bind_ok (prepare_ok hf hg)

/-- What is known of an instruction that succeeds, once it is known which one it is. -/
theorem step_performs {op : Opcode} (hop : f.opcode? = some op) (h : step tx f = .ok fl g) :
    f.Fits op ∧ op.shape.gas ≤ f.gasLeft ∧ perform tx f.pc op (f.prepared op) = .ok fl g := by
  obtain ⟨hn, -⟩ | ⟨op', hop', hp⟩ := step_inv h
  · cases hop.symm.trans hn
  · cases hop.symm.trans hop'
    exact hp

/-- What an instruction that succeeds does to its frame, and how the frame goes on. -/
inductive Frame.Effect (f g : Frame) : Flow → Prop
  | quiet {fl : Flow} (h : f.Quiet g) : Effect f g fl
  | store (ws : Array Word) (key value : Word) (hop : f.opcode? = some .sstore)
      (hm : f.message.isStatic = false) (hw : f.stack.words = (ws.push value).push key)
      (h : (f.storing key value).Quiet g) : Effect f g .next
  | log (n : Fin 5) (l : Log) (hop : f.opcode? = some (.log n))
      (hm : f.message.isStatic = false) (h : (f.logging l).Quiet g) : Effect f g .next
  | destroy (ws : Array Word) (w : Word) (hop : f.opcode? = some .selfDestruct)
      (hm : f.message.isStatic = false) (hw : f.stack.words = ws.push w)
      (h : (f.destroying (.ofWord w)).Quiet g) : Effect f g (.halt .stop)

theorem proceed_inv {x : Exec Unit} (h : proceed x f = .ok fl g) :
    fl = .next ∧ ∃ u, x f = .ok u g := by
  obtain ⟨u, _, hx, h⟩ := bind_inv h
  cases h
  exact ⟨rfl, u, hx⟩

theorem step_effect (h : step tx f = .ok fl g) : f.Effect g fl := by
  obtain ⟨-, -, rfl⟩ | ⟨op, hop, -, -, h⟩ := step_inv h
  · exact .quiet (.refl f)
  cases op with
  | sstore =>
    obtain ⟨rfl, u, h⟩ := proceed_inv h
    obtain ⟨hm, ws, key, value, hw, hq⟩ := writeSlot_inv h
    rw [Frame.message_prepared] at hm
    rw [Frame.words_prepared] at hw
    exact .store ws key value hop hm hw (((f.quiet_prepared _).storing key value).trans hq)
  | log n =>
    obtain ⟨rfl, u, h⟩ := proceed_inv h
    obtain ⟨hm, l, hq⟩ := emitLog_inv h
    rw [Frame.message_prepared] at hm
    exact .log n l hop hm (((f.quiet_prepared _).logging l).trans hq)
  | selfDestruct =>
    obtain ⟨hm, rfl, ws, w, hw, hq⟩ := destroy_inv h
    rw [Frame.message_prepared] at hm
    rw [Frame.words_prepared] at hw
    exact .destroy ws w hop hm hw (((f.quiet_prepared _).destroying _).trans hq)
  | _ => exact .quiet ((f.quiet_prepared _).trans ((quiet_perform tx _ rfl).ok h))

/-- An instruction that traps leaves everything but the frame's own registers alone. -/
theorem step_trap_quiet {t : Trap} (h : step tx f = .error t g) : f.Quiet g := by
  have q : QuietTrap (step tx) := by
    unfold step
    refine .bind quiet_get fun _ => .bind quiet_get fun _ => ?_
    dsimp only
    split
    · split
      · exact Quiet.trap (keeps_throw steady_quiet _)
      · exact .bind (quiet_prepare _ _) fun _ => quietTrap_perform _ _ _
    · exact Quiet.trap (keeps_pure steady_quiet _)
  exact q f g t h

end

end ParticleChain.Evm
