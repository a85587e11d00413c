import ParticleChain.Proofs.Evm.Runs

/-!
# Runs that compute

`Frame.run` recurses on the gas that is left, which the kernel cannot follow. `f.run? tx n` and
`f.turns? tx n k` recurse on a number that bounds the turns on the way, and where they
give a result it is the one of the run (`run_of_run?`, `reaches_of_turns?`).
-/

namespace ParticleChain.Evm

/-- Carries out a message, if `run?` ends the frame that it starts. -/
def execute? (run? : Frame → Option Ended) (m : Message) (v : View) (p : Profile) :
    Option Report :=
  match m.enter v p with
  | .answered o w => some ⟨o, w, p⟩
  | .running c => (run? c).map Ended.close

theorem execute_of_execute? {tx : Tx} {run? : Frame → Option Ended} {m : Message} {v : View}
    {p : Profile} {x : Report} (hr : ∀ c e, run? c = some e → c.run tx = e)
    (h : execute? run? m v p = some x) : execute tx m v p = x := by
  unfold execute? at h
  cases he : m.enter v p with
  | answered o w =>
    rw [he] at h
    cases h
    exact execute_answered he
  | running c =>
    rw [he] at h
    obtain ⟨e, hc, rfl⟩ := Option.map_eq_some_iff.1 h
    rw [execute_running he, hr c e hc]

namespace Frame

/-- One turn of a frame: how it ends, or the frame that goes on. The frame that a message starts is
run by `run?`. -/
def turn? (tx : Tx) (run? : Frame → Option Ended) (f : Frame) : Option (Ended ⊕ Frame) :=
  match step tx f with
  | .error t g => some (.inl ⟨.error t, g⟩)
  | .ok (.halt x) g => some (.inl ⟨.ok x, g⟩)
  | .ok .next g => some (.inr g)
  | .ok (.enter m r) g => (execute? run? m g.view g.profile).map fun x =>
    match r.finish x.outcome (g.after x) with
    | .error t k => .inl ⟨.error t, k⟩
    | .ok () k => .inr k

/-- How the frame ends, if that takes no more than `n` turns, one in another. -/
def run? (tx : Tx) : Nat → Frame → Option Ended
  | 0, _ => none
  | n + 1, f => match f.turn? tx (run? tx n) with
    | none => none
    | some (.inl e) => some e
    | some (.inr g) => run? tx n g

/-- The frame after `k` turns, if no frame that is started on the way takes more than `n`. -/
def turns? (tx : Tx) (n : Nat) : Nat → Frame → Option Frame
  | 0, f => some f
  | k + 1, f => match f.turn? tx (run? tx n) with
    | some (.inr g) => turns? tx n k g
    | _ => none

variable {tx : Tx} {n k : Nat} {f g : Frame} {e : Ended}

/-- What a turn comes to, where `run?` is right. -/
theorem turn_of_turn? {run? : Frame → Option Ended} {x : Ended ⊕ Frame}
    (hr : ∀ c e, run? c = some e → c.run tx = e) (h : f.turn? tx run? = some x) :
    x.elim (f.run tx = ·) (f.Turn tx) := by
  unfold turn? at h
  cases hs : step tx f with
  | error t g =>
    rw [hs] at h
    cases h
    exact run_trap hs
  | ok fl g =>
    rw [hs] at h
    cases fl with
    | halt y =>
      cases h
      exact run_halt hs
    | next =>
      cases h
      exact .next hs
    | enter m r =>
      obtain ⟨y, hy, rfl⟩ := Option.map_eq_some_iff.1 h
      obtain rfl := execute_of_execute? hr hy
      cases hk : r.finish (execute tx m g.view g.profile).outcome
          (g.after (execute tx m g.view g.profile)) with
      | error t k => exact run_stuck hs hk
      | ok u k => exact .back hs hk

theorem run_turn (h : f.Turn tx g) : f.run tx = g.run tx := by
  cases h with
  | next h => exact run_next h
  | back h hk => exact run_back h hk

theorem run_of_run? (h : f.run? tx n = some e) : f.run tx = e := by
  induction n generalizing f e with
  | zero => cases h
  | succ n ih =>
    unfold run? at h
    split at h
    · cases h
    · rename_i ht
      cases h
      exact turn_of_turn? (fun c e => ih) ht
    · rename_i g ht
      exact (run_turn (turn_of_turn? (fun c e => ih) ht)).trans (ih h)

theorem reaches_of_turns? (h : f.turns? tx n k = some g) : f.Reaches tx g := by
  induction k generalizing f with
  | zero =>
    cases h
    exact .refl _
  | succ k ih =>
    unfold turns? at h
    split at h
    · rename_i ht
      exact .turn (turn_of_turn? (fun c e => run_of_run?) ht) (ih h)
    · cases h

end Frame

/-- Runs a transaction, if no frame takes more than `n` turns. -/
def transact? (n : Nat) (b : Block) (w : World) (m : Message) : Option Receipt :=
  let intrinsic := intrinsicGas m.input m.entry.creates
  if m.gas < intrinsic then some ⟨.failure (.outOfGas intrinsic m.gas) 0, .empty, w⟩
  else
    (execute? (Frame.run? ⟨b, m.caller⟩ n) { m with gas := m.gas - intrinsic }
      (View.ofWorld w).enter (Profile.empty.add .intrinsic intrinsic)).map fun report =>
        ⟨report.outcome, report.profile,
          if report.outcome.status.isSuccess then report.view.commit.base else w⟩

theorem transact_of_transact? {n : Nat} {b : Block} {w : World} {m : Message} {x : Receipt}
    (h : transact? n b w m = some x) : transact b w m = x := by
  unfold transact? at h
  unfold transact
  dsimp only at h ⊢
  split at h
  · rename_i hg
    rw [if_pos hg]
    exact Option.some.inj h
  · rename_i hg
    obtain ⟨report, hreport, rfl⟩ := Option.map_eq_some_iff.1 h
    rw [if_neg hg, execute_of_execute? (fun _ _ => Frame.run_of_run?) hreport]

end ParticleChain.Evm
