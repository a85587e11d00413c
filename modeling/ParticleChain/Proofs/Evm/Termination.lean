import ParticleChain.Proofs.Evm.Runs

/-!
# Runs end

`f.Runs tx n e` is a finite derivation that `f` ends as `e` after `n` instructions that do not
halt it, with a derivation of its own for each frame it starts. Each turn costs gas
(`Turn.gas_lt`), so every frame has a derivation (`exists_runs`), of no more turns than it has
gas, and `run` gives its end (`Runs.eq_run`).

Along a run no frame has more gas than its limit and none lies deeper than `maxDepth`
(`Frame.Sound`), so what a frame takes back never passes its limit.
-/

namespace ParticleChain.Evm

/-- The frame ends as given after `n` instructions that do not halt it. -/
inductive Frame.Runs (tx : Tx) : Nat → Frame → Ended → Prop
  | trap {f g : Frame} {t : Trap} (h : step tx f = .error t g) : Runs tx 0 f ⟨.error t, g⟩
  | halt {f g : Frame} {x : Halt} (h : step tx f = .ok (.halt x) g) : Runs tx 0 f ⟨.ok x, g⟩
  | next {n : Nat} {f g : Frame} {e : Ended} (h : step tx f = .ok .next g) (hr : Runs tx n g e) :
    Runs tx (n + 1) f e
  | back {l n : Nat} {f g k : Frame} {m : Message} {r : Resume} {x : Report} {d e : Ended}
      (h : step tx f = .ok (.enter m r) g)
      (hc : ∀ c, m.enter g.view g.profile = .running c → Runs tx l c d)
      (hx : x = (m.enter g.view g.profile).settle (fun _ => d) g.profile)
      (hk : r.finish x.outcome (g.after x) = .ok () k) (hr : Runs tx n k e) :
    Runs tx (n + 1) f e
  | stuck {l : Nat} {f g k : Frame} {m : Message} {r : Resume} {x : Report} {d : Ended} {t : Trap}
      (h : step tx f = .ok (.enter m r) g)
      (hc : ∀ c, m.enter g.view g.profile = .running c → Runs tx l c d)
      (hx : x = (m.enter g.view g.profile).settle (fun _ => d) g.profile)
      (hk : r.finish x.outcome (g.after x) = .error t k) :
    Runs tx 0 f ⟨.error t, k⟩

section

variable {tx : Tx} {f g : Frame} {m : Message} {v : View} {p : Profile}

/-- The report of a message, once the end of the frame it starts is known. -/
theorem execute_eq_settle {d : Ended} (hd : ∀ c, m.enter v p = .running c → d = c.run tx) :
    execute tx m v p = (m.enter v p).settle (fun _ => d) p := by
  cases h : m.enter v p with
  | answered o w => exact execute_answered h
  | running c =>
    rw [execute_running h, ← hd c h]
    rfl

theorem Frame.Turn.gas_lt (h : f.Turn tx g) : g.gasLeft < f.gasLeft := by
  cases h with
  | next h => exact step_next h
  | back h hk => exact f.resumed_lt h (execute_gas tx _ _ _) hk

theorem Frame.Runs.eq_run {n : Nat} {e : Ended} (h : f.Runs tx n e) :
    e = f.run tx ∧ n ≤ f.gasLeft := by
  induction h with
  | trap h => exact ⟨(run_trap h).symm, Nat.zero_le _⟩
  | halt h => exact ⟨(run_halt h).symm, Nat.zero_le _⟩
  | next h _ ih =>
    have hg := step_next h
    exact ⟨ih.1.trans (run_next h).symm, by omega⟩
  | back h _ hx hk _ ihc ih =>
    rw [← execute_eq_settle fun c hc => (ihc c hc).1] at hx
    subst hx
    have hg := (Turn.back h hk).gas_lt
    exact ⟨ih.1.trans (run_back h hk).symm, by omega⟩
  | stuck h _ hx hk ihc =>
    rw [← execute_eq_settle fun c hc => (ihc c hc).1] at hx
    subst hx
    exact ⟨(run_stuck h hk).symm, Nat.zero_le _⟩

/-- A derivation for the frame that a message starts; if it starts none, any end will do. -/
theorem exists_callee_runs
    (hc : ∀ c, m.enter v p = .running c → ∃ n, c.Runs tx n (c.run tx)) (e : Ended) :
    ∃ l d, (∀ c, m.enter v p = .running c → c.Runs tx l d) ∧
      execute tx m v p = (m.enter v p).settle (fun _ => d) p := by
  cases h : m.enter v p with
  | answered o w =>
    refine ⟨0, e, (fun c hc => nomatch hc), ?_⟩
    rw [execute_answered h]
    rfl
  | running c =>
    obtain ⟨l, hl⟩ := hc c h
    refine ⟨l, c.run tx, fun c' hc' => ?_, ?_⟩
    · cases hc'
      exact hl
    · rw [execute_running h]
      rfl

theorem exists_runs (tx : Tx) (f : Frame) : ∃ n, f.Runs tx n (f.run tx) := by
  refine f.run_induction tx (motive := fun f e => ∃ n, f.Runs tx n e) ?trap ?halt ?next ?back ?stuck
  case trap =>
    intro f g t h
    exact ⟨0, .trap h⟩
  case halt =>
    intro f g x h
    exact ⟨0, .halt h⟩
  case next =>
    intro f g h ⟨n, hn⟩
    exact ⟨n + 1, .next h hn⟩
  case back =>
    intro f g k m r h hc hk ⟨n, hn⟩
    obtain ⟨l, d, hl, hx⟩ := exists_callee_runs hc ⟨.ok .stop, g⟩
    exact ⟨n + 1, .back h hl hx hk hn⟩
  case stuck =>
    intro f g k m r t h hc hk
    obtain ⟨l, d, hl, hx⟩ := exists_callee_runs hc ⟨.ok .stop, g⟩
    exact ⟨0, .stuck h hl hx hk⟩

/-! ## Gas and depth along a run -/

/-- The frame has no more gas than its limit and does not lie too deep. -/
structure Frame.Sound (f : Frame) : Prop where
  gas : f.gas.remaining ≤ f.gas.limit
  depth : f.message.depth ≤ maxDepth

theorem sound_of_enter {c : Frame} (h : m.enter v p = .running c) : c.Sound := by
  cases Message.opens_of h with
  | call hr => exact ⟨Nat.le_refl _, m.depth_le_of_refusal? hr⟩
  | init hd => exact ⟨Nat.le_refl _, m.depth_le_of_refusal? hd.1⟩

theorem Frame.Sound.turn (hf : f.Sound) (h : f.Turn tx g) : g.Sound := by
  have hlt : g.gas.remaining < f.gas.remaining := h.gas_lt
  have hle := hf.gas
  cases h with
  | next h =>
    have he := step_effect h
    exact ⟨by rw [he.limit]; omega, by rw [he.message]; exact hf.depth⟩
  | back h hk =>
    have he := step_effect h
    have hr := resumed_ok hk
    exact ⟨by rw [hr.limit, he.limit]; omega, by rw [hr.message, he.message]; exact hf.depth⟩

theorem Message.Visits.sound (h : m.Visits tx v p f) : f.Sound := by
  obtain ⟨c, hc, hr⟩ := h
  exact hr.keeps (fun hf ht => hf.turn ht) (fun _ _ hc => sound_of_enter hc) (sound_of_enter hc)

/-- No frame on the way of a message has more gas than the message. -/
theorem Message.Visits.gas_le (h : m.Visits tx v p f) : f.gasLeft ≤ m.gas := by
  obtain ⟨c, hc, hr⟩ := h
  have hu := m.enter_uses v p
  rw [hc] at hu
  refine hr.keeps (I := fun f => f.gasLeft ≤ m.gas) ?turn ?callee (Nat.le_of_eq hu)
  case turn =>
    intro f g hf ht
    exact Nat.le_trans (Nat.le_of_lt ht.gas_lt) hf
  case callee =>
    intro f g c m' r hf hs hc
    have hu := m'.enter_uses g.view g.profile
    rw [hc] at hu
    exact Nat.le_trans (Nat.le_of_lt (f.callee_lt hs hu)) hf

/-- What a callee gives back fits under the limit of the frame. -/
theorem Frame.Sound.reclaim {m : Message} {r : Resume} (hf : f.Sound)
    (h : step tx f = .ok (.enter m r) g) :
    g.gas.remaining + (execute tx m g.view g.profile).outcome.gasLeft ≤ g.gas.limit := by
  have hx := execute_gas tx m g.view g.profile
  have hs : m.gas + g.gas.remaining < f.gas.remaining := step_enter h
  have hle := hf.gas
  rw [(step_effect h).limit]
  omega

theorem transact_gas (b : Block) (w : World) (m : Message) :
    (transact b w m).outcome.gasLeft ≤ m.gas := by
  unfold transact
  dsimp only
  split
  · exact Nat.zero_le _
  · exact Nat.le_trans (execute_gas _ _ _ _) (Nat.sub_le _ _)

end

/-- Every turn of every frame costs gas, so runs end: after at most as many turns as the frame
has gas. In the course of a message no frame lies deeper than `maxDepth`, nothing gives back
more gas than it got, and what is taken back from a callee is never cut off at the limit. -/
theorem gas_bounds_run (tx : Tx) (m : Message) (v : View) (p : Profile) :
    (∀ f g : Frame, f.Turn tx g → g.gasLeft < f.gasLeft) ∧
    (∀ (f : Frame) (n : Nat) (e : Ended), f.Runs tx n e → e = f.run tx ∧ n ≤ f.gasLeft) ∧
    (∀ c : Frame, m.enter v p = .running c → ∃ n, n ≤ m.gas ∧ c.Runs tx n (c.run tx)) ∧
    (∀ f : Frame, m.Visits tx v p f → f.message.depth ≤ maxDepth) ∧
    (execute tx m v p).outcome.gasLeft ≤ m.gas ∧
    (∀ (b : Block) (w : World), (transact b w m).outcome.gasLeft ≤ m.gas) ∧
    (∀ (f g : Frame) (m' : Message) (r : Resume), m.Visits tx v p f →
      step tx f = .ok (.enter m' r) g →
      let n := (execute tx m' g.view g.profile).outcome.gasLeft
      (g.gas.reclaim n).remaining = saturate (g.gas.remaining + n)) := by
  refine ⟨fun f g h => h.gas_lt, fun f n e h => h.eq_run, fun c hc => ?_,
    fun f hf => hf.sound.depth, execute_gas tx m v p, fun b w => transact_gas b w m,
    fun f g m' r hf h => ?_⟩
  · obtain ⟨n, hn⟩ := exists_runs tx c
    have hu := m.enter_uses v p
    rw [hc] at hu
    exact ⟨n, Nat.le_trans hn.eq_run.2 (Nat.le_of_eq hu), hn⟩
  · have hle := hf.sound.reclaim h
    exact Nat.min_eq_left (Nat.le_trans (Nat.min_le_left _ _) hle)

/-- Code that calls the account at address zero with all the gas it may forward. -/
def relayCode : ByteArray := Bytes.ofList [0x5f, 0x5f, 0x5f, 0x5f, 0x5f, 0x5f, 0x5a, 0xf1]

def relayView : View := .ofWorld (.ofContract ⟨7, 0, 0⟩ .one relayCode)

def relayCall : Message := .plainCall .zero ⟨7, 0, 0⟩ .empty 500 .zero

/-- The account at zero has no code: all of the 380 gas forwarded comes back. -/
theorem gas_bounds_run_relay :
    ∃ (f g : Frame) (m : Message) (r : Resume),
      relayCall.Visits ⟨.standard, .zero⟩ relayView .empty f ∧
      step ⟨.standard, .zero⟩ f = .ok (.enter m r) g ∧ f.message.depth ≤ maxDepth ∧
      m.gas = 380 ∧ g.gasLeft = 6 ∧ (g.gas.reclaim m.gas).remaining = 386 := by
  have hc : relayCall.enter relayView .empty =
      .running (.start relayCall relayCode relayView.enter .empty) := rfl
  have hv : relayCall.Visits ⟨.standard, .zero⟩ relayView .empty _ :=
    ⟨_, hc, .turn (.next rfl) <| .turn (.next rfl) <| .turn (.next rfl) <| .turn (.next rfl) <|
      .turn (.next rfl) <| .turn (.next rfl) <| .turn (.next rfl) <| .refl _⟩
  obtain ⟨-, -, -, hd, -, -, hr⟩ := gas_bounds_run ⟨.standard, .zero⟩ relayCall relayView .empty
  exact ⟨_, _, _, _, hv, rfl, hd _ hv, rfl, rfl, hr _ _ _ _ hv rfl⟩

end ParticleChain.Evm
