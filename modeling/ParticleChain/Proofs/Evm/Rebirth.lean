import ParticleChain.Proofs.Evm.Anchors
import ParticleChain.Proofs.Evm.Conservation
import ParticleChain.Proofs.Evm.Evaluation

/-!
# What init code finds

A creation starts only where no account is occupied. So in a world in which every slot belongs to
an occupied account, init code finds no slot at its address, unless an account was removed there
on the way (`init_finds_no_slots`). The removal takes the account out of the layer but not its
slots, and init code at the same address does see them (`removal_leaves_slots_to_init`).
-/

namespace ParticleChain.Evm

open Message (occupied)

/-- An instruction of the frame starts init code in another. -/
def Frame.Creates (tx : Tx) (f c : Frame) : Prop :=
  ∃ (g : Frame) (m : Message) (r : Resume), step tx f = .ok (.enter m r) g ∧
    m.entry.creates = true ∧ m.enter g.view g.profile = .running c

/-- The frame in which the instruction starts init code. -/
def Frame.created? (tx : Tx) (f : Frame) : Option Frame :=
  match step tx f with
  | .ok (.enter m _) g => match m.entry.creates, m.enter g.view g.profile with
    | true, .running c => some c
    | _, _ => none
  | _ => none

theorem Frame.creates_of_created? {tx : Tx} {f c : Frame} (h : f.created? tx = some c) :
    f.Creates tx c := by
  unfold created? at h
  split at h
  · rename_i m r g hs
    split at h
    · rename_i hc he
      cases h
      exact ⟨g, m, r, hs, hc, he⟩
    · cases h
  · cases h

section

variable {tx : Tx} {Q : Account → Prop} {X : Address → Prop} {m : Message} {v : View} {p : Profile}
  {f c : Frame} {key : Word}

/-- Where init code finds a slot in a view whose slots belong to occupied accounts, the address
is excused. -/
theorem Message.excused_of_enter (hv : v.Anchored (fun x => occupied x = true) X)
    (hc : m.entry.creates = true) (he : m.enter v p = .running c)
    (hs : c.view.slot ⟨c.message.address, key⟩ ≠ .zero) : X c.message.address := by
  cases opens_of he with
  | call _ hn =>
    rw [hc] at hn
    cases hn
  | init _ ho =>
    obtain hX | ⟨x, hx, hocc⟩ := hv ⟨m.target v, key⟩ (by rwa [← m.slot_initView v])
    · exact hX
    · rw [free_target ho hx] at hocc
      cases hocc

theorem Frame.Anchored.excused_of_creates (hf : f.Anchored (fun x => occupied x = true) X)
    (hc : f.Creates tx c) (hs : c.view.slot ⟨c.message.address, key⟩ ≠ .zero) :
    X c.message.address := by
  obtain ⟨g, m, r, h, hn, he⟩ := hc
  exact m.excused_of_enter (hf.quiet (step_enter_quiet h)).view hn he hs

end

/-- In a world whose slots belong to accounts with a nonce or code, the init code of a transaction
finds no slot at its address. So it is with init code that an instruction starts, unless an
account was removed there by a frame that has ended, or the message of the transaction
runs foreign code there. -/
theorem init_finds_no_slots (b : Block) (w : World) (m : Message)
    (hw : w.Anchored fun x => occupied x = true) :
    let tx : Tx := ⟨b, m.caller⟩
    let v := (View.ofWorld w).enter
    (∀ c, m.charged.enter v m.bill = .running c → m.entry.creates = true →
      ∀ key, c.view.slot ⟨c.message.address, key⟩ = .zero) ∧
    ∀ e f c, m.charged.enter v m.bill = .running e → e.Reaches tx f → f.Creates tx c →
      ∀ key, c.view.slot ⟨c.message.address, key⟩ ≠ .zero →
        (∃ d, e.Behind tx d f ∧ d.Destroys tx c.message.address) ∨
          m.Squats (fun x => occupied x = true) w c.message.address := by
  intro tx v
  constructor
  · intro c he hc key
    by_contra hs
    exact m.charged.excused_of_enter (X := fun _ => False) hw.enter hc he hs
  · intro e f c he hr hc key hs
    have hm := m.charged.grounded_ofWorld (Q := fun x => occupied x = true) w
    have hf := hr.anchored Account.abiding_occupied _
      (m.charged.anchored_of_enter Account.abiding_occupied hw.enter hm he)
    exact (hf.excused_of_creates hc hs).symm

/-! ## A creation after a removal -/

/-- Code that removes its account. -/
def phoenixCode : ByteArray := Bytes.ofList [0x5f, 0xff]

/-- Init code that logs its first slot. -/
def ashes : List UInt8 := [0x5f, 0x54, 0x5f, 0x5f, 0xa1, 0x00]

/-- Where `⟨7, 0, 0⟩` creates with that init code. -/
def phoenix : Address := ⟨322307189243346470, 8283167267750046259, 1953011864⟩

/-- Code that calls the contract at `phoenix` and then creates one there. -/
def pyreCode : ByteArray := Bytes.ofList <|
  [0x5f, 0x5f, 0x5f, 0x5f, 0x5f, 0x73] ++ phoenix.toBytes.data.toList ++ [0x5a, 0xf1, 0x50, 0x65] ++
    ashes ++ [0x5f, 0x52, 0x5f, 0x60, 0x06, 0x60, 0x1a, 0x5f, 0xf5, 0x00]

/-- The contract at `phoenix` has one slot. -/
def pyre : World :=
  ((World.ofContract ⟨7, 0, 0⟩ .zero pyreCode).setAccount phoenix
    (some { Account.fresh.setCode phoenixCode with nonce := 1 })).setSlot ⟨phoenix, .zero⟩ (.ofNat 5)

def pyreCall : Message := .plainCall .zero ⟨7, 0, 0⟩ .empty 200000 .zero

def pyreTx : Tx := ⟨.standard, pyreCall.caller⟩

theorem anchored_pyre : pyre.Anchored fun x => occupied x = true := by
  intro s hs
  by_cases h : s = ⟨phoenix, .zero⟩
  · rw [h]
    exact ⟨_, rfl, rfl⟩
  · rw [pyre, World.slot_setSlot, if_neg h] at hs
    exact absurd rfl hs

/-- The frame of the transaction. -/
def pyreFrame : Frame :=
  .start pyreCall.charged pyreCode (pyreCall.charged.calleeView (View.ofWorld pyre).enter)
    pyreCall.bill

theorem enter_pyre : pyreCall.charged.enter (View.ofWorld pyre).enter pyreCall.bill =
    .running pyreFrame := rfl

theorem pyre_creates : ∃ f c, pyreFrame.Reaches pyreTx f ∧ f.Creates pyreTx c ∧
    c.message.address = phoenix ∧ c.view.slot ⟨c.message.address, .zero⟩ = .ofNat 5 := by
  have h : ((pyreFrame.turns? pyreTx 2 16).bind (·.created? pyreTx)).any (fun c =>
      c.message.address = phoenix ∧ c.view.slot ⟨c.message.address, .zero⟩ = .ofNat 5) = true := by
    decide +kernel
  obtain ⟨c, hc, h⟩ := (Option.any_eq_true _ _).1 h
  obtain ⟨f, hf, hc⟩ := Option.bind_eq_some_iff.1 hc
  exact ⟨f, c, Frame.reaches_of_turns? hf, Frame.creates_of_created? hc, of_decide_eq_true h⟩

/-- Init code may find a slot, where an account was removed in the same transaction. -/
theorem removal_leaves_slots_to_init :
    ¬ ∀ (b : Block) (w : World) (m : Message), (w.Anchored fun x => occupied x = true) →
      ∀ e f c, m.charged.enter (View.ofWorld w).enter m.bill = .running e →
        e.Reaches ⟨b, m.caller⟩ f → f.Creates ⟨b, m.caller⟩ c →
          ∀ key, c.view.slot ⟨c.message.address, key⟩ = .zero := by
  intro h
  obtain ⟨f, c, hf, hc, -, hs⟩ := pyre_creates
  have hz := h .standard pyre pyreCall anchored_pyre pyreFrame f c enter_pyre hf hc .zero
  rw [hs] at hz
  exact absurd hz (by decide)

theorem init_finds_no_slots_pyre :
    (pyre.Anchored fun x => occupied x = true) ∧
    ∃ f c d, pyreFrame.Reaches pyreTx f ∧ f.Creates pyreTx c ∧ c.message.address = phoenix ∧
      c.view.slot ⟨phoenix, .zero⟩ ≠ .zero ∧ pyreFrame.Behind pyreTx d f ∧
      d.Destroys pyreTx phoenix := by
  obtain ⟨f, c, hf, hc, ha, hs⟩ := pyre_creates
  have hne : c.view.slot ⟨c.message.address, .zero⟩ ≠ .zero := by
    rw [hs]
    decide
  obtain ⟨-, h⟩ := init_finds_no_slots .standard pyre pyreCall anchored_pyre
  obtain ⟨d, hb, hd⟩ | ⟨-, hsq, -⟩ := h pyreFrame f c enter_pyre hf hc .zero hne
  · rw [ha] at hd hne
    exact ⟨anchored_pyre, f, c, d, hf, hc, ha, hne, hb, hd⟩
  · exact absurd rfl hsq

end ParticleChain.Evm
