import ParticleChain.Proofs.Evm.Effect
import ParticleChain.Proofs.Evm.Layers

/-!
# How messages are opened and closed

`Message.opens` lists what opening a message comes to: an answer at once, or a frame whose view
has one layer of its own over `m.floor v`. That is the view `v` the message meets, with the
nonce of the deployer moved if the message derives the address of a new contract.

The end of a frame commits its layer or drops it: `Ended.close_view`.
-/

namespace ParticleChain.Evm

open Exec

/-! ## The deployer's nonce and the new address -/

/-- The nonce of an account moved by one, an absent account counting as a fresh one. -/
def View.bumpNonce (v : View) (a : Address) : View :=
  v.setAccount a (some { v.account a with nonce := (v.account a).nonce + 1 })

theorem View.account_bumpNonce (v : View) (a b : Address) : (v.bumpNonce a).account b =
    if b = a then { v.account a with nonce := (v.account a).nonce + 1 } else v.account b :=
  v.account_setAccount a b _

namespace Message

/-- The message is a creation that gets as far as deriving the new address. -/
def Derives (m : Message) (v : View) : Prop :=
  m.refusal? v = none ∧ m.entry.creates = true ∧ m.input.size ≤ maxInitSize ∧
    (v.account m.caller).nonce < maxAmount

instance (m : Message) (v : View) : Decidable (m.Derives v) :=
  inferInstanceAs (Decidable (_ ∧ _ ∧ _ ∧ _))

/-- The address that the message derives. -/
def target (m : Message) (v : View) : Address := m.newAddress (v.account m.caller).nonce

/-- The view that stays, whatever becomes of the frame of the message. -/
def floor (m : Message) (v : View) : View := if m.Derives v then v.bumpNonce m.caller else v

/-- What the code of a called account sees: the value is moved. -/
def calleeView (m : Message) (v : View) : View :=
  if m.entry.movesValue then v.enter.transfer m.caller m.address m.value else v.enter

/-- What init code sees before the value is moved: the account is there, with nonce one. -/
def freshView (m : Message) (v : View) : View :=
  let w := (v.bumpNonce m.caller).enter
  w.setAccount (m.target v) (some { w.account (m.target v) with nonce := 1 })

/-- What init code sees. -/
def initView (m : Message) (v : View) : View :=
  (m.freshView v).transfer m.caller (m.target v) m.value

/-- The message of the frame that runs init code. -/
def initMessage (m : Message) (v : View) : Message :=
  { m with address := m.target v, codeAddress := m.target v, input := .empty }

/-- What opening a message at a view comes to. -/
inductive Opens (m : Message) (v : View) (p : Profile) : Opening → Prop
  | turnedDown (t : Trap) (gas : Nat) (hg : gas ≤ m.gas) (h : ¬ m.Derives v) (ht : t ≠ .fault) :
    Opens m v p (.answered (.failure t gas) v)
  | collision (h : m.Derives v)
      (ho : occupied ((v.bumpNonce m.caller).account (m.target v)) = true) :
    Opens m v p (.answered (.failure (.addressCollision (m.target v)) 0) (v.bumpNonce m.caller))
  | noCode (hr : m.refusal? v = none) (hc : m.entry.creates = false)
      (hz : ((m.calleeView v).account m.codeAddress).code.size = 0) :
    Opens m v p (.answered (.nothingRun m.gas) (m.calleeView v).commit)
  | call (hr : m.refusal? v = none) (hc : m.entry.creates = false)
      (hz : ((m.calleeView v).account m.codeAddress).code.size ≠ 0) :
    Opens m v p (.running (.start m ((m.calleeView v).account m.codeAddress).code
      (m.calleeView v) p))
  | init (h : m.Derives v)
      (ho : occupied ((v.bumpNonce m.caller).account (m.target v)) = false) :
    Opens m v p (.running (.start (m.initMessage v) m.input (m.initView v) p))

theorem ne_fault_of_refusal? {m : Message} {v : View} {t : Trap} (h : m.refusal? v = some t) :
    t ≠ .fault := by
  unfold refusal? at h
  split at h
  · cases h
    exact Trap.noConfusion
  · split at h <;> cases h
    exact Trap.noConfusion

theorem opens (m : Message) (v : View) (p : Profile) : m.Opens v p (m.enter v p) := by
  unfold enter
  cases hr : m.refusal? v with
  | some t =>
    exact .turnedDown t _ (Nat.le_refl _) (fun h => by simp [h.1] at hr) (ne_fault_of_refusal? hr)
  | none =>
    dsimp only
    cases hc : m.entry.creates with
    | false =>
      rw [if_neg Bool.false_ne_true]
      change m.Opens v p
        (if ((m.calleeView v).account m.codeAddress).code.size = 0 then _ else _)
      split
      · rename_i hz
        exact .noCode hr hc hz
      · rename_i hz
        exact .call hr hc hz
    | true =>
      rw [if_pos rfl]
      unfold enterCreate
      dsimp only
      split
      · rename_i hs
        exact .turnedDown _ _ (Nat.zero_le _) (fun h => absurd h.2.2.1 (Nat.not_le.2 hs))
          Trap.noConfusion
      · rename_i hs
        split
        · rename_i hn
          exact .turnedDown _ _ (Nat.le_refl _) (fun h => absurd h.2.2.2 (Nat.not_lt.2 hn))
            Trap.noConfusion
        · rename_i hn
          have hd : m.Derives v := ⟨hr, hc, Nat.not_lt.1 hs, Nat.not_le.1 hn⟩
          split
          · rename_i ho
            exact .collision hd ho
          · rename_i ho
            exact .init hd (Bool.eq_false_iff.2 ho)

theorem opens_of {m : Message} {v : View} {p : Profile} {o : Opening} (h : m.enter v p = o) :
    m.Opens v p o := h ▸ m.opens v p

theorem not_derives_of_calls {m : Message} (h : m.entry.creates = false) (v : View) :
    ¬ m.Derives v := fun hd => by simp [hd.2.1] at h

theorem floor_of_derives {m : Message} {v : View} (h : m.Derives v) :
    m.floor v = v.bumpNonce m.caller := if_pos h

theorem floor_of_not_derives {m : Message} {v : View} (h : ¬ m.Derives v) : m.floor v = v :=
  if_neg h

theorem floor_of_calls {m : Message} (h : m.entry.creates = false) (v : View) : m.floor v = v :=
  floor_of_not_derives (not_derives_of_calls h v)

theorem over_calleeView (m : Message) (v : View) : (m.calleeView v).Over v := by
  unfold calleeView
  split
  · exact v.over_enter.transfer _ _ _
  · exact v.over_enter

theorem over_initView (m : Message) (v : View) : (m.initView v).Over (v.bumpNonce m.caller) :=
  ((View.over_enter _).setAccount _ _).transfer _ _ _

/-- The frame that a message starts writes to a layer over the floor of the message. -/
theorem over_floor {m : Message} {v : View} {p : Profile} {c : Frame}
    (h : m.enter v p = .running c) : c.view.Over (m.floor v) := by
  cases opens_of h with
  | call hr hc hz =>
    rw [floor_of_calls hc]
    exact m.over_calleeView v
  | init hd ho =>
    rw [floor_of_derives hd]
    exact m.over_initView v

/-- A message is refused before a frame is started that lies too deep. -/
theorem depth_le_of_refusal? {m : Message} {v : View} (h : m.refusal? v = none) :
    m.depth ≤ maxDepth := by
  unfold refusal? at h
  split at h
  · cases h
  · rename_i hd
    exact Nat.not_lt.1 hd

/-- A message that is not refused has the value that it moves. -/
theorem value_le_of_refusal? {m : Message} {v : View} (h : m.refusal? v = none)
    (hm : m.entry.movesValue = true) : m.value.toNat ≤ (v.balance m.caller).toNat := by
  unfold refusal? at h
  split at h
  · cases h
  · split at h
    · cases h
    · rename_i hb
      cases hz : m.value.isZero with
      | true => rw [Word.isZero_iff.1 hz]; exact Nat.zero_le _
      | false =>
        rw [hm, hz] at hb
        exact Nat.not_lt.1 fun hl => hb (by simpa using Word.lt_iff.2 hl)

end Message

/-! ## The end of a frame -/

/-- The frame with returned code stored as the code of its account. -/
def Frame.depositing (f : Frame) (code : ByteArray) : Frame :=
  let a := f.message.address
  { f with view := f.view.setAccount a (some ((f.view.account a).setCode code)) }

theorem Frame.Quiet.depositing {f g : Frame} (h : f.Quiet g) (code : ByteArray) :
    (f.depositing code).Quiet (g.depositing code) where
  message := h.message
  code := h.code
  dests := h.dests
  limit := h.limit
  returned := h.returned
  logs := h.logs
  view := by simp only [Frame.depositing, h.message, h.view]

/-- What a deposit that succeeds checks, and what it leaves. -/
theorem deposit_inv {f g : Frame} {code : ByteArray} {u : Unit} (h : deposit code f = .ok u g) :
    code.size ≤ maxCodeSize ∧ Bytes.padded code 0 ≠ 0xef ∧
      Price.codeByte * code.size ≤ f.gasLeft ∧
      g = (f.paying .deployment (Price.codeByte * code.size)).depositing code := by
  obtain ⟨_, _, he, h⟩ := bind_inv h
  obtain ⟨hs, rfl⟩ := ensure_inv he
  obtain ⟨_, _, he, h⟩ := bind_inv h
  obtain ⟨hp, rfl⟩ := ensure_inv he
  obtain ⟨_, _, hb, h⟩ := bind_inv h
  obtain ⟨-, rfl, rfl⟩ := bounded_inv hb
  obtain ⟨_, _, hc, h⟩ := bind_inv h
  obtain ⟨hg, rfl⟩ := charge_inv hc
  obtain ⟨_, _, hf, h⟩ := bind_inv h
  obtain ⟨rfl, rfl⟩ := get_inv hf
  cases h
  exact ⟨of_decide_eq_true hs, bne_iff_ne.1 hp, hg, rfl⟩

theorem quietTrap_deposit (code : ByteArray) : QuietTrap (deposit code) :=
  .bind (quiet_ensure _ _) fun _ => .bind (quiet_ensure _ _) fun _ => .bind (quiet_bounded _)
    fun _ => .bind (quiet_charge _ _) fun _ => .bind quiet_get fun _ => quietTrap_modify _

namespace Ended

/-- What settling does to the frame of a creation that returns code: the code is deposited,
or the creation traps. -/
inductive Settles (e : Ended) : Ended → Prop
  | same (h : e.frame.message.entry.creates = true → ∀ code, e.halt ≠ .ok (.ret code)) :
    Settles e e
  | deposited (code : ByteArray) (f : Frame) (hc : e.frame.message.entry.creates = true)
      (hh : e.halt = .ok (.ret code)) (hs : code.size ≤ maxCodeSize)
      (hp : Bytes.padded code 0 ≠ 0xef) (hf : (e.frame.depositing code).Quiet f) :
    Settles e ⟨.ok .stop, f⟩
  | trapped (t : Trap) (f : Frame) (hc : e.frame.message.entry.creates = true)
      (hf : e.frame.Quiet f) : Settles e ⟨.error t, f⟩

theorem settles (e : Ended) : e.Settles e.settle := by
  unfold settle
  split
  · rename_i code hc hh
    cases hd : deposit code e.frame with
    | ok u f =>
      obtain ⟨hs, hp, -, rfl⟩ := deposit_inv hd
      exact .deposited code _ hc hh hs hp ((e.frame.quiet_paying _ _).depositing code)
    | error t f => exact .trapped t f hc (quietTrap_deposit code _ _ _ hd)
  · rename_i hn
    exact .same fun hc code hh => hn code hc hh

variable {e : Ended} {v : View}

theorem over_settle (h : e.frame.view.Over v) : e.settle.frame.view.Over v := by
  match e.settle, e.settles with
  | _, .same _ => exact h
  | _, .deposited code f hc hh hs hp hf =>
    rw [hf.view]
    exact h.setAccount _ _
  | _, .trapped t f hc hf =>
    rw [hf.view]
    exact h

/-- A frame that succeeds commits its layer, any other drops it. -/
theorem close_view (h : e.frame.view.Over v) :
    (e.close.outcome.status = .success ∧ e.close.view = e.settle.frame.view.commit) ∨
    (e.close.outcome.status ≠ .success ∧ e.close.view = v) := by
  unfold close
  dsimp only
  by_cases hs : e.settle.outcome.status = .success
  · exact .inl ⟨hs, if_pos (by simp [Status.isSuccess, hs])⟩
  · have hv := (over_settle h).drop
    refine .inr ⟨hs, (if_neg ?_).trans hv⟩
    simpa [Status.isSuccess] using hs

end Ended

end ParticleChain.Evm
