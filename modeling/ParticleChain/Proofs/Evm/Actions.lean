import ParticleChain.Evm.Run

/-!
# Actions of a frame that succeed

An action that succeeds is its steps, each of which succeeds (`bind_inv`). For each step this
module says what it gave and what it did to the frame: `withWords`, `paying` and `touched` are
the frame after operands were taken, a charge was paid and a range of memory was grown over.
-/

namespace ParticleChain.Evm

/-- What an action gives and leaves comes from its first step and the rest. -/
theorem bind_inv {ε σ α β : Type} {x : EStateM ε σ α} {k : α → EStateM ε σ β} {s u : σ} {b : β}
    (h : (x >>= k) s = .ok b u) : ∃ a t, x s = .ok a t ∧ k a t = .ok b u := by
  change EStateM.bind x k s = .ok b u at h
  unfold EStateM.bind at h
  cases hx : x s with
  | error e t => rw [hx] at h; cases h
  | ok a t => rw [hx] at h; exact ⟨a, t, rfl, h⟩

/-- An action whose first step succeeds goes on with the rest. -/
theorem bind_ok {ε σ α β : Type} {x : EStateM ε σ α} {k : α → EStateM ε σ β} {s t : σ} {a : α}
    (h : x s = .ok a t) : (x >>= k) s = k a t := by
  show EStateM.bind x k s = k a t
  unfold EStateM.bind
  rw [h]

/-- An action whose first step traps ends there. -/
theorem bind_error {ε σ α β : Type} {x : EStateM ε σ α} {k : α → EStateM ε σ β} {s t : σ} {e : ε}
    (h : x s = .error e t) : (x >>= k) s = .error e t := by
  show EStateM.bind x k s = .error e t
  unfold EStateM.bind
  rw [h]

/-- An action that traps does so at its first step or in the rest. -/
theorem bind_error_inv {ε σ α β : Type} {x : EStateM ε σ α} {k : α → EStateM ε σ β} {s u : σ}
    {e : ε} (h : (x >>= k) s = .error e u) :
    x s = .error e u ∨ ∃ a t, x s = .ok a t ∧ k a t = .error e u := by
  cases hx : x s with
  | error e' t =>
    rw [bind_error hx] at h
    cases h
    exact .inl rfl
  | ok a t =>
    rw [bind_ok hx] at h
    exact .inr ⟨a, t, rfl, h⟩

theorem pure_inv {ε σ α : Type} {a b : α} {s t : σ} (h : (pure a : EStateM ε σ α) s = .ok b t) :
    a = b ∧ s = t := by
  cases h
  exact ⟨rfl, rfl⟩

/-! ## The stack -/

namespace Stack

variable {s t : Stack} {a b c d w : Word}

theorem pop_inv (h : pop s = .ok w t) :
    ∃ ws, s.words = ws.push w ∧ t = { s with words := ws } := by
  unfold pop at h
  split at h
  · rename_i hs
    obtain ⟨ws, x, e⟩ := Array.exists_push_of_size_pos hs
    simp [e, Array.back] at h
    obtain ⟨rfl, rfl⟩ := h
    exact ⟨ws, e, rfl⟩
  · cases h

theorem need_inv {n : Nat} {u : Unit} (h : need n s = .ok u t) : s = t := by
  unfold need at h
  split at h
  · cases h
  · cases h
    rfl

theorem pop2_inv (h : pop2 s = .ok (a, b) t) :
    ∃ ws, s.words = (ws.push b).push a ∧ t = { s with words := ws } := by
  obtain ⟨_, _, h0, h⟩ := bind_inv h
  cases need_inv h0
  obtain ⟨_, _, ha, h⟩ := bind_inv h
  obtain ⟨_, _, hb, h⟩ := bind_inv h
  cases h
  obtain ⟨wa, ea, rfl⟩ := pop_inv ha
  obtain ⟨wb, eb, rfl⟩ := pop_inv hb
  exact ⟨wb, by rw [ea, ← eb], rfl⟩

theorem pop4_inv (h : pop4 s = .ok (a, b, c, d) t) :
    ∃ ws, s.words = (((ws.push d).push c).push b).push a ∧ t = { s with words := ws } := by
  obtain ⟨_, _, h0, h⟩ := bind_inv h
  cases need_inv h0
  obtain ⟨_, _, ha, h⟩ := bind_inv h
  obtain ⟨_, _, hb, h⟩ := bind_inv h
  obtain ⟨_, _, hc, h⟩ := bind_inv h
  obtain ⟨_, _, hd, h⟩ := bind_inv h
  cases h
  obtain ⟨wa, ea, rfl⟩ := pop_inv ha
  obtain ⟨wb, eb, rfl⟩ := pop_inv hb
  obtain ⟨wc, ec, rfl⟩ := pop_inv hc
  obtain ⟨wd, ed, rfl⟩ := pop_inv hd
  exact ⟨wd, by rw [ea, ← ed, ← ec, ← eb], rfl⟩

theorem require_inv {name : String} {pops pushes : Nat} {u : Unit}
    (h : require name pops pushes s = .ok u t) :
    pops ≤ s.size ∧ s.size - pops + pushes ≤ limit ∧ t = { s with mnemonic := name } := by
  unfold require at h
  dsimp only at h
  split at h
  · cases h
  · split at h
    · cases h
    · rename_i h1 h2
      cases h
      exact ⟨Nat.not_lt.1 h1, Nat.not_lt.1 h2, rfl⟩

theorem pop_ok {ws : Array Word} (h : s.words = ws.push w) :
    pop s = .ok w { s with words := ws } := by
  obtain ⟨words, name⟩ := s
  cases h
  simp [pop]

theorem need_ok {n : Nat} (h : n ≤ s.size) : need n s = .ok () s := if_neg (Nat.not_lt.2 h)

theorem pop2_ok {ws : Array Word} (h : s.words = (ws.push b).push a) :
    pop2 s = .ok (a, b) { s with words := ws } := by
  have hn : 2 ≤ s.size := by simp [size, h]
  exact (bind_ok (need_ok hn)).trans <| (bind_ok (pop_ok h)).trans <| bind_ok (pop_ok rfl)

theorem pop3_ok {ws : Array Word} (h : s.words = ((ws.push c).push b).push a) :
    pop3 s = .ok (a, b, c) { s with words := ws } := by
  have hn : 3 ≤ s.size := by simp [size, h]
  exact (bind_ok (need_ok hn)).trans <| (bind_ok (pop_ok h)).trans <|
    (bind_ok (pop_ok (s := { s with words := (ws.push c).push b }) rfl)).trans <|
    bind_ok (pop_ok rfl)

theorem pop4_ok {ws : Array Word} (h : s.words = (((ws.push d).push c).push b).push a) :
    pop4 s = .ok (a, b, c, d) { s with words := ws } := by
  have hn : 4 ≤ s.size := by simp [size, h]
  exact (bind_ok (need_ok hn)).trans <| (bind_ok (pop_ok h)).trans <|
    (bind_ok (pop_ok (s := { s with words := ((ws.push d).push c).push b }) rfl)).trans <|
    (bind_ok (pop_ok (s := { s with words := (ws.push d).push c }) rfl)).trans <|
    bind_ok (pop_ok rfl)

theorem require_ok {name : String} {pops pushes : Nat} (hp : pops ≤ s.size)
    (hl : s.size - pops + pushes ≤ limit) :
    require name pops pushes s = .ok () { s with mnemonic := name } :=
  (if_neg (Nat.not_lt.2 hp)).trans (if_neg (Nat.not_lt.2 hl))

end Stack

/-! ## Frames after a step -/

namespace Frame

/-- The frame with these words on its stack. -/
def withWords (f : Frame) (ws : Array Word) : Frame :=
  { f with stack := { f.stack with words := ws } }

/-- The frame with a charge paid and booked. -/
def paying (f : Frame) (c : Category) (n : Nat) : Frame :=
  { f with gas := f.gas.spend n, profile := f.profile.add c n }

/-- The frame with its memory grown over a range, and that paid. -/
def touched (f : Frame) : Option (Nat × Nat) → Frame
  | none => f
  | some (o, n) =>
    { f.paying .memory (f.memory.expansionGas o n) with memory := f.memory.grow o n }

end Frame

namespace Exec

variable {α β : Type} {f g h : Frame} {a b c d w : Word}

theorem get_inv {x : Frame} (h : (get : Exec Frame) f = .ok x g) : f = x ∧ f = g := by
  cases h
  exact ⟨rfl, rfl⟩

theorem ensure_inv {b : Bool} {t : Trap} {u : Unit} (h : ensure b t f = .ok u g) :
    b = true ∧ f = g := by
  unfold ensure at h
  split at h
  · rename_i hb
    exact ⟨hb, (pure_inv h).2⟩
  · cases h

theorem ensure_ok {b : Bool} (t : Trap) (h : b = true) (f : Frame) :
    ensure b t f = .ok () f := by
  rw [h]
  rfl

theorem ensure_error {b : Bool} (t : Trap) (h : b = false) (f : Frame) :
    ensure b t f = .error t f := by
  rw [h]
  rfl

theorem bounded_inv {n m : Nat} (h : bounded n f = .ok m g) : n ≤ maxAmount ∧ n = m ∧ f = g := by
  unfold bounded at h
  split at h
  · rename_i hn
    exact ⟨hn, pure_inv h⟩
  · cases h

theorem bounded_ok {n : Nat} (h : n ≤ maxAmount) (f : Frame) : bounded n f = .ok n f := by
  unfold bounded
  rw [if_pos h]
  rfl

theorem gasLeft_inv {n : Nat} (h : gasLeft f = .ok n g) : f.gasLeft = n ∧ f = g := by
  cases h
  exact ⟨rfl, rfl⟩

theorem requireMutable_inv {s : String} {u : Unit} (h : requireMutable s f = .ok u g) :
    f.message.isStatic = false ∧ f = g := by
  obtain ⟨_, _, h0, h⟩ := bind_inv h
  obtain ⟨rfl, rfl⟩ := get_inv h0
  obtain ⟨hb, rfl⟩ := ensure_inv h
  exact ⟨by simpa using hb, rfl⟩

theorem onStack_inv {x : StackM α} {a : α} (h : onStack x f = .ok a g) :
    ∃ s, x f.stack = .ok a s ∧ g = { f with stack := s } := by
  unfold onStack at h
  dsimp only at h
  split at h
  · rename_i hx
    cases h
    exact ⟨_, hx, rfl⟩
  · cases h

theorem pop_inv (h : pop f = .ok w g) :
    ∃ ws, f.stack.words = ws.push w ∧ g = f.withWords ws := by
  obtain ⟨s, hs, rfl⟩ := onStack_inv h
  obtain ⟨ws, hw, rfl⟩ := Stack.pop_inv hs
  exact ⟨ws, hw, rfl⟩

theorem pop2_inv (h : pop2 f = .ok (a, b) g) :
    ∃ ws, f.stack.words = (ws.push b).push a ∧ g = f.withWords ws := by
  obtain ⟨s, hs, rfl⟩ := onStack_inv h
  obtain ⟨ws, hw, rfl⟩ := Stack.pop2_inv hs
  exact ⟨ws, hw, rfl⟩

theorem pop4_inv (h : pop4 f = .ok (a, b, c, d) g) :
    ∃ ws, f.stack.words = (((ws.push d).push c).push b).push a ∧ g = f.withWords ws := by
  obtain ⟨s, hs, rfl⟩ := onStack_inv h
  obtain ⟨ws, hw, rfl⟩ := Stack.pop4_inv hs
  exact ⟨ws, hw, rfl⟩

theorem onStack_ok {x : StackM α} {r : α} {s : Stack} (h : x f.stack = .ok r s) :
    onStack x f = .ok r { f with stack := s } := by
  unfold onStack
  simp only [h]

theorem pop_ok {ws : Array Word} (h : f.stack.words = ws.push w) :
    pop f = .ok w (f.withWords ws) := onStack_ok (Stack.pop_ok h)

theorem pop2_ok {ws : Array Word} (h : f.stack.words = (ws.push b).push a) :
    pop2 f = .ok (a, b) (f.withWords ws) := onStack_ok (Stack.pop2_ok h)

theorem pop3_ok {ws : Array Word} (h : f.stack.words = ((ws.push c).push b).push a) :
    pop3 f = .ok (a, b, c) (f.withWords ws) := onStack_ok (Stack.pop3_ok h)

theorem pop4_ok {ws : Array Word} (h : f.stack.words = (((ws.push d).push c).push b).push a) :
    pop4 f = .ok (a, b, c, d) (f.withWords ws) := onStack_ok (Stack.pop4_ok h)

theorem spend_inv {n : Nat} {u : Unit} (h : spend n f = .ok u g) :
    n ≤ f.gasLeft ∧ g = { f with gas := f.gas.spend n } := by
  unfold spend onMeter Meter.charge at h
  by_cases hn : f.gas.covers n
  · simp only [hn, if_true] at h
    cases h
    exact ⟨of_decide_eq_true hn, rfl⟩
  · simp only [hn] at h
    cases h

theorem charge_inv {k : Category} {n : Nat} {u : Unit} (h : charge k n f = .ok u g) :
    n ≤ f.gasLeft ∧ g = f.paying k n := by
  obtain ⟨_, _, hs, h⟩ := bind_inv h
  obtain ⟨hn, rfl⟩ := spend_inv hs
  cases h
  exact ⟨hn, rfl⟩

theorem spend_ok {n : Nat} (h : n ≤ f.gasLeft) :
    spend n f = .ok () { f with gas := f.gas.spend n } := by
  simp only [spend, onMeter, Meter.charge, show f.gas.covers n = true from decide_eq_true h,
    if_true]

theorem spend_trap {n : Nat} (h : ¬ n ≤ f.gasLeft) :
    spend n f = .error (.outOfGas n f.gasLeft) f := by
  simp only [spend, onMeter, Meter.charge, show f.gas.covers n = false from decide_eq_false h]
  rfl

theorem charge_ok {k : Category} {n : Nat} (h : n ≤ f.gasLeft) :
    charge k n f = .ok () (f.paying k n) := bind_ok (spend_ok h)

theorem charge_trap {k : Category} {n : Nat} (h : ¬ n ≤ f.gasLeft) :
    charge k n f = .error (.outOfGas n f.gasLeft) f := bind_error (spend_trap h)

theorem touch_inv {r : Option (Nat × Nat)} (h : touch a b f = .ok r g) :
    Memory.range a b = .ok r ∧ g = f.touched r := by
  unfold touch at h
  rcases hr : Memory.range a b with t | _ | ⟨o, n⟩ <;> rw [hr] at h
  · cases h
  · obtain ⟨rfl, rfl⟩ := pure_inv h
    exact ⟨rfl, rfl⟩
  · obtain ⟨_, _, hb, h⟩ := bind_inv h
    obtain ⟨-, rfl, rfl⟩ := bounded_inv hb
    obtain ⟨_, _, hf, h⟩ := bind_inv h
    obtain ⟨rfl, rfl⟩ := get_inv hf
    obtain ⟨_, _, hc, h⟩ := bind_inv h
    obtain ⟨-, rfl⟩ := charge_inv hc
    cases h
    exact ⟨rfl, rfl⟩

theorem readMemory_inv {o n : Nat} {x : ByteArray} (h : readMemory o n f = .ok x g) :
    o + n ≤ f.memory.size ∧ x = f.memory.slice o n ∧ f = g := by
  obtain ⟨_, _, hf, h⟩ := bind_inv h
  obtain ⟨rfl, rfl⟩ := get_inv hf
  obtain ⟨_, _, hn, h⟩ := bind_inv h
  obtain ⟨en, rfl⟩ := ensure_inv hn
  cases h
  exact ⟨of_decide_eq_true en, rfl, rfl⟩

theorem writeMemory_ok {o : Nat} {x : ByteArray} (h : o + x.size ≤ f.memory.size) :
    writeMemory o x f = .ok () { f with memory := f.memory.store o x } :=
  (bind_ok rfl).trans (bind_ok (ensure_ok .fault (decide_eq_true h) f))

theorem writeMemory_fault {o : Nat} {x : ByteArray} (h : ¬ o + x.size ≤ f.memory.size) :
    writeMemory o x f = .error .fault f :=
  (bind_ok rfl).trans (bind_error (ensure_error .fault (decide_eq_false h) f))

theorem memorySlice_inv {x : ByteArray} (h : memorySlice a b f = .ok x g) :
    ∃ r, Memory.range a b = .ok r ∧ g = f.touched r ∧
      x = r.elim .empty fun p => g.memory.slice p.1 p.2 := by
  obtain ⟨r, _, ht, h⟩ := bind_inv h
  obtain ⟨hr, rfl⟩ := touch_inv ht
  cases r with
  | none =>
    obtain ⟨rfl, rfl⟩ := pure_inv h
    exact ⟨_, hr, rfl, rfl⟩
  | some p =>
    obtain ⟨-, rfl, rfl⟩ := readMemory_inv h
    exact ⟨_, hr, rfl, rfl⟩

end Exec

end ParticleChain.Evm
