import ParticleChain.Proofs.Evm.Actions

/-!
# What every instruction keeps

An instruction is put together from a few changes of its frame: of the stack, the memory, the meter
and the profile and, in a few instructions, of the program counter, the world or the logs. A
relation between frames that these changes keep (`Frame.Steady`) is kept by all instructions but
those that send a message, which spend gas without booking it (`keeps_perform_unsent`), and by
taking up the report of a callee (`keeps_finish`). If the relation looks neither at the meter nor at
the profile (`Frame.Inert`), it is kept by those instructions too (`keeps_perform`).
-/

namespace ParticleChain.Evm

/-- A relation kept by the changes that most instructions are made of. -/
structure Frame.Steady (R : Frame → Frame → Prop) : Prop where
  refl (f : Frame) : R f f
  trans {f g h : Frame} (a : R f g) (b : R g h) : R f h
  stack (f : Frame) (s : Stack) : R f { f with stack := s }
  pay (f : Frame) (c : Category) {n : Nat} (h : n ≤ f.gasLeft) : R f (f.paying c n)
  grow (f : Frame) {o n : Nat} (h : o + n ≤ Memory.limit) :
    R f { f with memory := f.memory.grow o n }
  store (f : Frame) {o : Nat} {b : ByteArray} (h : o + b.size ≤ f.memory.size) :
    R f { f with memory := f.memory.store o b }

/-- A relation kept by such changes, whatever becomes of the meter and the profile. -/
structure Frame.Inert (R : Frame → Frame → Prop) : Prop where
  refl (f : Frame) : R f f
  trans {f g h : Frame} (a : R f g) (b : R g h) : R f h
  stack (f : Frame) (s : Stack) : R f { f with stack := s }
  spend (f : Frame) (n : Nat) : R f { f with gas := f.gas.spend n }
  profile (f : Frame) (p : Profile) : R f { f with profile := p }
  grow (f : Frame) {o n : Nat} (h : o + n ≤ Memory.limit) :
    R f { f with memory := f.memory.grow o n }
  store (f : Frame) {o : Nat} {b : ByteArray} (h : o + b.size ≤ f.memory.size) :
    R f { f with memory := f.memory.store o b }

theorem Frame.Inert.steady {R : Frame → Frame → Prop} (hR : Frame.Inert R) : Frame.Steady R where
  refl := hR.refl
  trans := hR.trans
  stack := hR.stack
  pay f _ n _ := hR.trans (hR.spend f n) (hR.profile _ _)
  grow := hR.grow
  store := hR.store

theorem Memory.eq_of_range_error {a b : Word} {t : Trap} (h : range a b = .error t) :
    t = .memoryLimit := by
  unfold range at h
  split at h
  · cases h
  · split at h
    · split at h <;> cases h
      rfl
    · cases h
      rfl

/-- The operands of a range are its offset and its length, and no byte of it is out of reach. -/
theorem Memory.range_inv {a b : Word} {o n : Nat} (h : range a b = .ok (some (o, n))) :
    a.size? = some o ∧ b.size? = some n ∧ o + n ≤ limit := by
  unfold range at h
  split at h
  · cases h
  · split at h
    · rename_i ha hb
      split at h
      · rename_i hle
        cases h
        exact ⟨ha, hb, hle⟩
      · cases h
    · cases h

theorem Memory.le_limit_of_range {a b : Word} {o n : Nat} (h : range a b = .ok (some (o, n))) :
    o + n ≤ limit := (range_inv h).2.2

namespace Exec

variable {α β : Type} {R : Frame → Frame → Prop} {x : Exec α} {k : α → Exec β} {f g : Frame}

/-- The action leaves a related frame, whether it succeeds or traps. -/
def Keeps (R : Frame → Frame → Prop) (x : Exec α) : Prop := ∀ f : Frame, R f (after (x f))

theorem Keeps.ok (h : Keeps R x) {a : α} (hx : x f = .ok a g) : R f g := by
  have := h f
  rwa [hx] at this

theorem Keeps.trap (h : Keeps R x) {t : Trap} (hx : x f = .error t g) : R f g := by
  have := h f
  rwa [hx] at this

section

variable (hR : Frame.Steady R)

include hR

theorem Keeps.bind (hx : Keeps R x) (hk : ∀ a, Keeps R (k a)) : Keeps R (x >>= k) := by
  intro f
  have hx := hx f
  change R f (after (EStateM.bind x k f))
  unfold EStateM.bind
  cases h : x f with
  | error t g => rwa [h] at hx
  | ok a g =>
    rw [h] at hx
    exact hR.trans hx (hk a g)

theorem keeps_pure (a : α) : Keeps R (pure a) := fun f => hR.refl f

theorem keeps_throw (t : Trap) : Keeps R (throw t : Exec α) := fun f => hR.refl f

theorem keeps_get : Keeps R (get : Exec Frame) := fun f => hR.refl f

theorem keeps_ensure (b : Bool) (t : Trap) : Keeps R (ensure b t) := by
  unfold ensure
  split
  · exact keeps_pure hR _
  · exact keeps_throw hR _

theorem keeps_bounded (n : Nat) : Keeps R (bounded n) := by
  unfold bounded
  split
  · exact keeps_pure hR _
  · exact keeps_throw hR _

theorem keeps_onStack (x : StackM α) : Keeps R (onStack x) := by
  intro f
  unfold onStack
  dsimp only
  split <;> exact hR.stack f _

theorem keeps_charge (c : Category) (n : Nat) : Keeps R (charge c n) := by
  intro f
  by_cases h : n ≤ f.gasLeft
  · rw [charge_ok h]
    exact hR.pay f c h
  · rw [charge_trap h]
    exact hR.refl f

theorem keeps_gasLeft : Keeps R gasLeft := (keeps_get hR).bind hR fun _ => keeps_pure hR _

theorem keeps_touch (o n : Word) : Keeps R (touch o n) := by
  unfold touch
  split
  · exact keeps_throw hR _
  · exact keeps_pure hR _
  · rename_i hr
    exact (keeps_bounded hR _).bind hR fun _ => (keeps_get hR).bind hR fun _ =>
      (keeps_charge hR _ _).bind hR fun _ => Keeps.bind hR
        (fun f => hR.grow f (Memory.le_limit_of_range hr)) fun _ => keeps_pure hR _

theorem keeps_readMemory (o n : Nat) : Keeps R (readMemory o n) :=
  (keeps_get hR).bind hR fun _ => (keeps_ensure hR _ _).bind hR fun _ =>
    (keeps_get hR).bind hR fun _ => keeps_pure hR _

theorem keeps_loadWord (o : Nat) : Keeps R (loadWord o) :=
  (keeps_get hR).bind hR fun _ => (keeps_ensure hR _ _).bind hR fun _ =>
    (keeps_get hR).bind hR fun _ => keeps_pure hR _

theorem keeps_writeMemory (o : Nat) (b : ByteArray) : Keeps R (writeMemory o b) := by
  intro f
  by_cases h : o + b.size ≤ f.memory.size
  · rw [writeMemory_ok h]
    exact hR.store f h
  · rw [writeMemory_fault h]
    exact hR.refl f

theorem keeps_memorySlice (o n : Word) : Keeps R (memorySlice o n) := by
  refine (keeps_touch hR _ _).bind hR fun r => ?_
  cases r with
  | none => exact keeps_pure hR _
  | some r => exact keeps_readMemory hR _ _

theorem keeps_copyToMemory (d n : Word) (b : ByteArray) (s : Word) :
    Keeps R (copyToMemory d n b s) := by
  refine (keeps_touch hR _ _).bind hR fun r => ?_
  cases r with
  | none => exact keeps_pure hR _
  | some r =>
    exact (keeps_bounded hR _).bind hR fun _ => (keeps_charge hR _ _).bind hR fun _ =>
      keeps_writeMemory hR _ _

theorem keeps_requireMutable (s : String) : Keeps R (requireMutable s) :=
  (keeps_get hR).bind hR fun _ => keeps_ensure hR _ _

theorem keeps_jump (hpc : ∀ (f : Frame) (n : Nat), R f { f with pc := n }) (t : Word) :
    Keeps R (jump t) := by
  unfold jump
  split
  · exact keeps_throw hR _
  · exact (keeps_get hR).bind hR fun _ => (keeps_ensure hR _ _).bind hR fun _ f => hpc f _

end

/-- The action leaves a related frame if it traps, unless it faults. -/
def KeepsTrap (R : Frame → Frame → Prop) (x : Exec α) : Prop :=
  ∀ ⦃f g : Frame⦄ ⦃t : Trap⦄, x f = .error t g → t ≠ .fault → R f g

theorem KeepsTrap.bind (hR : Frame.Steady R) (hx : Keeps R x) (hk : ∀ a, KeepsTrap R (k a)) :
    KeepsTrap R (x >>= k) := by
  intro f g t h ht
  obtain h | ⟨a, g', hs, h⟩ := bind_error_inv h
  · exact hx.trap h
  · exact hR.trans (hx.ok hs) (hk a h ht)

/-- Gas that is spent without being booked stays where it is, if it cannot be spent. -/
theorem keepsTrap_spend_bind (hR : Frame.Steady R) (n : Nat) {k : Unit → Exec β}
    (hk : ∀ f g t, k () f = .error t g → t = .fault) : KeepsTrap R (spend n >>= k) := by
  intro f g t h ht
  by_cases hn : n ≤ f.gasLeft
  · rw [bind_ok (spend_ok hn)] at h
    exact absurd (hk _ _ _ h) ht
  · rw [bind_error (spend_trap hn)] at h
    cases h
    exact hR.refl f

theorem bounded_trap {n : Nat} {k : Nat → Exec β} {t : Trap}
    (hk : ∀ n f g t, k n f ≠ .error t g) (h : (bounded n >>= k) f = .error t g) : t = .fault := by
  cases hb : bounded n f with
  | ok m f' =>
    rw [bind_ok hb] at h
    exact absurd h (hk m f' g t)
  | error t' f' =>
    rw [bind_error hb] at h
    cases h
    unfold bounded at hb
    split at hb
    · cases hb
    · cases hb
      rfl

theorem keeps_spend (hR : Frame.Inert R) (n : Nat) : Keeps R (spend n) := by
  intro f
  by_cases h : n ≤ f.gasLeft
  · rw [spend_ok h]
    exact hR.spend f n
  · rw [spend_trap h]
    exact hR.refl f

theorem size_memorySlice {a b : Word} {data : ByteArray} (h : memorySlice a b f = .ok data g) :
    data.size ≤ Memory.limit := by
  obtain ⟨r, hr, -, rfl⟩ := memorySlice_inv h
  rcases r with _ | ⟨o, n⟩
  · exact Nat.zero_le _
  · have hle := Memory.le_limit_of_range hr
    change (ByteArray.extract _ o (o + n)).size ≤ _
    rw [ByteArray.size_extract]
    omega

end Exec

open Exec

/-! ## Instructions -/

/-- Whether the instruction sets the program counter. -/
def Opcode.jumps : Opcode → Bool
  | .jump | .jumpIf | .push _ => true
  | _ => false

/-- Whether the instruction writes to the world or to the logs. -/
def Opcode.writes : Opcode → Bool
  | .sstore | .log _ | .selfDestruct => true
  | _ => false

/-- Whether the instruction sends a message. -/
def Opcode.sends : Opcode → Bool
  | .create | .create2 | .call _ => true
  | _ => false

section

variable {R : Frame → Frame → Prop} (hR : Frame.Steady R)

include hR

theorem keeps_proceed {x : Exec Unit} (h : Keeps R x) : Keeps R (proceed x) :=
  h.bind hR fun _ => keeps_pure hR _

theorem keeps_copyFrom (s : CopySource) : Keeps R (copyFrom s) := by
  cases s with
  | returnData =>
    exact (keeps_onStack hR _).bind hR fun _ => (keeps_get hR).bind hR fun _ =>
      (keeps_get hR).bind hR fun _ => (keeps_ensure hR _ _).bind hR fun _ =>
      (keeps_get hR).bind hR fun _ => keeps_copyToMemory hR _ _ _ _
  | callData | code | accountCode =>
    exact (keeps_onStack hR _).bind hR fun _ => (keeps_get hR).bind hR fun _ =>
      keeps_copyToMemory hR _ _ _ _

theorem keeps_popTopics (n : Nat) : Keeps R (popTopics n) := by
  induction n with
  | zero => exact keeps_pure hR _
  | succ n ih =>
    exact (keeps_onStack hR _).bind hR fun _ => ih.bind hR fun _ => keeps_pure hR _

theorem keeps_popEntry (salted : Bool) : Keeps R (popEntry salted) := by
  unfold popEntry
  split
  · exact (keeps_onStack hR _).bind hR fun _ => keeps_pure hR _
  · exact keeps_pure hR _

theorem keeps_popValue (k : CallKind) : Keeps R (popValue k) := by
  cases k with
  | call | callCode => exact keeps_onStack hR _
  | delegateCall | staticCall => exact keeps_pure hR _

/-- An instruction that sends no message keeps the relation, if it is kept besides by a change of
the program counter where the instruction jumps, and by changes of world and logs where it
writes. -/
theorem keeps_perform_unsent (tx : Tx) (offset : Nat) {op : Opcode} (hop : op.sends = false)
    (hpc : op.jumps = true → ∀ (f : Frame) (n : Nat), R f { f with pc := n })
    (hw : op.writes = true → ∀ (f : Frame) (v : View) (l : Array Log),
      R f { f with view := v, logs := l }) :
    Keeps R (perform tx offset op) := by
  cases op with
  | stop | jumpDest => exact keeps_pure hR _
  | invalid => exact keeps_throw hR _
  | binary | isZero | not | addMod | mulMod | blockHash =>
    exact keeps_proceed hR ((keeps_onStack hR _).bind hR fun _ => keeps_onStack hR _)
  | exp =>
    exact keeps_proceed hR ((keeps_onStack hR _).bind hR fun _ => (keeps_bounded hR _).bind hR
      fun _ => (keeps_charge hR _ _).bind hR fun _ => keeps_onStack hR _)
  | keccak =>
    exact keeps_proceed hR ((keeps_onStack hR _).bind hR fun _ =>
      (keeps_memorySlice hR _ _).bind hR fun _ => (keeps_bounded hR _).bind hR fun _ =>
      (keeps_charge hR _ _).bind hR fun _ => keeps_onStack hR _)
  | query => exact keeps_proceed hR ((keeps_get hR).bind hR fun _ => keeps_onStack hR _)
  | account | callDataLoad | sload =>
    exact keeps_proceed hR ((keeps_onStack hR _).bind hR fun _ => (keeps_get hR).bind hR fun _ =>
      keeps_onStack hR _)
  | copy s => exact keeps_proceed hR (keeps_copyFrom hR s)
  | pop => exact keeps_proceed hR ((keeps_onStack hR _).bind hR fun _ => keeps_pure hR _)
  | mload =>
    refine keeps_proceed hR ((keeps_onStack hR _).bind hR fun _ =>
      (keeps_touch hR _ _).bind hR fun r => ?_)
    cases r with
    | none => exact keeps_onStack hR _
    | some r => exact (keeps_loadWord hR _).bind hR fun _ => keeps_onStack hR _
  | mstore | mstore8 =>
    refine keeps_proceed hR ((keeps_onStack hR _).bind hR fun _ =>
      (keeps_touch hR _ _).bind hR fun r => ?_)
    cases r with
    | none => exact keeps_pure hR _
    | some r => exact keeps_writeMemory hR _ _
  | sstore =>
    exact keeps_proceed hR ((keeps_requireMutable hR _).bind hR fun _ =>
      (keeps_gasLeft hR).bind hR fun _ => (keeps_ensure hR _ _).bind hR fun _ =>
      (keeps_onStack hR _).bind hR fun _ => (keeps_get hR).bind hR fun _ =>
      (keeps_charge hR _ _).bind hR fun _ f => hw rfl f _ f.logs)
  | log n =>
    exact keeps_proceed hR ((keeps_requireMutable hR _).bind hR fun _ =>
      (keeps_onStack hR _).bind hR fun _ => (keeps_popTopics hR _).bind hR fun _ =>
      (keeps_memorySlice hR _ _).bind hR fun _ => (keeps_bounded hR _).bind hR fun _ =>
      (keeps_charge hR _ _).bind hR fun _ f => hw rfl f f.view _)
  | selfDestruct =>
    exact (keeps_requireMutable hR _).bind hR fun _ => (keeps_onStack hR _).bind hR fun _ =>
      (keeps_get hR).bind hR fun _ => (keeps_get hR).bind hR fun _ =>
      (keeps_charge hR _ _).bind hR fun _ =>
      Keeps.bind hR (fun f => hw rfl f _ f.logs) fun _ => keeps_pure hR _
  | jump =>
    exact keeps_proceed hR ((keeps_onStack hR _).bind hR fun _ => keeps_jump hR (hpc rfl) _)
  | jumpIf =>
    refine keeps_proceed hR ((keeps_onStack hR _).bind hR fun _ => ?_)
    dsimp only
    split
    · exact keeps_pure hR _
    · exact keeps_jump hR (hpc rfl) _
  | push n =>
    exact keeps_proceed hR ((keeps_get hR).bind hR fun _ => (keeps_get hR).bind hR fun _ =>
      (keeps_onStack hR _).bind hR fun _ => (keeps_bounded hR _).bind hR fun _ f =>
      hpc rfl f _)
  | dup | swap => exact keeps_proceed hR (keeps_onStack hR _)
  | create | create2 | call => cases hop
  | ret | revert =>
    exact (keeps_onStack hR _).bind hR fun _ => (keeps_memorySlice hR _ _).bind hR fun _ =>
      keeps_pure hR _

theorem keeps_prepare (hpc : ∀ (f : Frame) (n : Nat), R f { f with pc := n }) (op : Opcode)
    (offset : Nat) : Keeps R (prepare op offset) :=
  (keeps_onStack hR _).bind hR fun _ => (keeps_charge hR _ _).bind hR fun _ f => hpc f _

theorem keeps_storeOutput (b : ByteArray) (out : Option (Nat × Nat)) :
    Keeps R (storeOutput b out) := by
  cases out with
  | none => exact keeps_pure hR _
  | some _ => exact keeps_writeMemory hR _ _

/-- What a frame does with a report keeps the relation from where the callee's gas, output and
logs are taken back. A creation may show no output. -/
theorem keeps_finish (r : Resume) (o : Outcome) (f : Frame) :
    ∃ output, (output = o.output ∨ output = .empty) ∧
      R (f.takeBack { o with output }) (after (r.finish o f)) := by
  cases r with
  | call out =>
    have hq := (keeps_storeOutput hR o.output out).bind hR fun _ =>
      keeps_onStack hR (Stack.push (.ofBool o.status.isSuccess))
    exact ⟨o.output, .inl rfl, hq (f.takeBack o)⟩
  | create =>
    refine ⟨if o.status == .reverted then o.output else .empty, ?_,
      keeps_onStack hR (Stack.push _) (f.takeBack _)⟩
    split
    · exact .inl rfl
    · exact .inr rfl

end

/-! ## Instructions that send a message -/

section

variable {R : Frame → Frame → Prop} (hR : Frame.Inert R)

include hR

theorem keeps_startCreate (salted : Bool) : Keeps R (startCreate salted) := by
  have hS := hR.steady
  exact (keeps_requireMutable hS _).bind hS fun _ => (keeps_onStack hS _).bind hS fun _ =>
    (keeps_popEntry hS _).bind hS fun _ => (keeps_memorySlice hS _ _).bind hS fun _ =>
    (keeps_ensure hS _ _).bind hS fun _ => (keeps_bounded hS _).bind hS fun _ =>
    (keeps_charge hS _ _).bind hS fun _ => (keeps_bounded hS _).bind hS fun _ =>
    (keeps_charge hS _ _).bind hS fun _ => (keeps_gasLeft hS).bind hS fun _ =>
    (keeps_spend hR _).bind hS fun _ => (keeps_get hS).bind hS fun _ => keeps_pure hS _

theorem keeps_startCall (k : CallKind) : Keeps R (startCall k) := by
  have hS := hR.steady
  exact (keeps_onStack hS _).bind hS fun _ => (keeps_onStack hS _).bind hS fun _ =>
    (keeps_popValue hS k).bind hS fun _ => (keeps_onStack hS _).bind hS fun _ =>
    (keeps_get hS).bind hS fun _ => (keeps_ensure hS _ _).bind hS fun _ =>
    (keeps_memorySlice hS _ _).bind hS fun _ => (keeps_touch hS _ _).bind hS fun _ =>
    (keeps_get hS).bind hS fun _ => (keeps_charge hS _ _).bind hS fun _ =>
    (keeps_gasLeft hS).bind hS fun _ => (keeps_spend hR _).bind hS fun _ =>
    (keeps_bounded hS _).bind hS fun _ => (keeps_get hS).bind hS fun _ => keeps_pure hS _

/-- Any instruction keeps a relation that is kept besides by a change of the program counter where
the instruction jumps, and by changes of world and logs where it writes. -/
theorem keeps_perform (tx : Tx) (offset : Nat) (op : Opcode)
    (hpc : op.jumps = true → ∀ (f : Frame) (n : Nat), R f { f with pc := n })
    (hw : op.writes = true → ∀ (f : Frame) (v : View) (l : Array Log),
      R f { f with view := v, logs := l }) :
    Keeps R (perform tx offset op) := by
  cases op with
  | create | create2 => exact keeps_startCreate hR _
  | call k => exact keeps_startCall hR k
  | _ => exact keeps_perform_unsent hR.steady tx offset rfl hpc hw

end

end ParticleChain.Evm
