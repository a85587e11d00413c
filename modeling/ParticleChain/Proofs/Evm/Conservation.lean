import ParticleChain.Proofs.Evm.Runs
import ParticleChain.Proofs.Evm.Supply

/-!
# No transaction mints balance

Balances move by transfers only: on entering a message, and before an account is removed. Each
transfer moves what its sender has, so no frame ends with more supply than it starts with
(`run_conserves`). What is lost is the balance of an account that is removed with itself as the
beneficiary (`Frame.Burns`).
-/

namespace ParticleChain.Evm

/-- `w` has no more supply than `v`, and just as much if `P` holds. -/
def View.Conserves (P : Prop) (v w : View) : Prop :=
  w.supply ≤ v.supply ∧ (P → w.supply = v.supply)

section

variable {P Q : Prop} {u v w : View}

theorem View.Conserves.of_eq (h : w.supply = v.supply) : v.Conserves P w :=
  ⟨Nat.le_of_eq h, fun _ => h⟩

theorem View.Conserves.trans (h : u.Conserves P v) (h' : v.Conserves P w) : u.Conserves P w :=
  ⟨Nat.le_trans h'.1 h.1, fun hp => (h'.2 hp).trans (h.2 hp)⟩

theorem View.Conserves.mono (h : v.Conserves P w) (hq : Q → P) : v.Conserves Q w :=
  ⟨h.1, fun q => h.2 (hq q)⟩

theorem View.supply_enter (v : View) : v.enter.supply = v.supply := supply_congr v.balance_enter

theorem View.Over.supply_commit (h : w.Over v) : w.commit.supply = w.supply :=
  supply_congr h.balance_commit

end

/-! ## Entering a message -/

namespace Message

variable {m : Message} {v : View}

theorem balance_bumpNonce (v : View) (a b : Address) :
    (v.bumpNonce a).balance b = v.balance b := by
  rw [View.bumpNonce, View.balance_setAccount]
  split
  · rename_i h
    rw [h]
    rfl
  · rfl

theorem balance_freshView (m : Message) (v : View) (a : Address) :
    (m.freshView v).balance a = v.balance a := by
  unfold freshView
  dsimp only
  rw [View.balance_setAccount]
  split
  · rename_i h
    rw [h, Option.getD_some]
    exact ((View.balance_enter _ _).trans (balance_bumpNonce v _ _))
  · rw [View.balance_enter, balance_bumpNonce]

theorem supply_floor (m : Message) (v : View) : (m.floor v).supply = v.supply := by
  unfold floor
  split
  · exact View.supply_congr (balance_bumpNonce v _)
  · rfl

theorem supply_calleeView (hr : m.refusal? v = none) (hv : v.supply < Word.modulus) :
    (m.calleeView v).supply = v.supply := by
  unfold calleeView
  split
  · rename_i hm
    have hx := value_le_of_refusal? hr hm
    rw [← View.balance_enter] at hx
    rw [View.supply_transfer hx (by rwa [View.supply_enter]), View.supply_enter]
  · exact v.supply_enter

theorem movesValue_of_creates (h : m.entry.creates = true) : m.entry.movesValue = true := by
  revert h
  cases m.entry with
  | call k => exact fun h => nomatch h
  | create | create2 => exact fun _ => rfl

theorem value_le_freshView (hd : m.Derives v) :
    m.value.toNat ≤ ((m.freshView v).balance m.caller).toNat := by
  rw [balance_freshView]
  exact value_le_of_refusal? hd.1 (movesValue_of_creates hd.2.1)

theorem supply_freshView (m : Message) (v : View) : (m.freshView v).supply = v.supply :=
  View.supply_congr (balance_freshView m v)

theorem supply_initView (hd : m.Derives v) (hv : v.supply < Word.modulus) :
    (m.initView v).supply = v.supply := by
  rw [initView, View.supply_transfer (value_le_freshView hd) (by rwa [supply_freshView]),
    supply_freshView]

/-- The frame of a message starts with the supply that the message meets. -/
theorem supply_of_enter {p : Profile} {c : Frame} (h : m.enter v p = .running c)
    (hv : v.supply < Word.modulus) : c.view.supply = v.supply := by
  cases opens_of h with
  | call hr => exact supply_calleeView hr hv
  | init hd => exact supply_initView hd hv

end Message

/-! ## One instruction -/

/-- The frame removes its account with itself as the beneficiary while it holds a balance. -/
structure Frame.Burns (tx : Tx) (f : Frame) : Prop where
  opcode : f.opcode? = some .selfDestruct
  runs : ∃ fl g, step tx f = .ok fl g
  beneficiary : ∃ (ws : Array Word) (w : Word), f.stack.words = ws.push w ∧
    Address.ofWord w = f.message.address
  balance : (f.view.balance f.message.address).isZero = false

/-- Removing an account keeps the supply, unless its balance is moved to itself. -/
theorem Frame.conserves_destroying (f : Frame) (a : Address) (hv : f.view.supply < Word.modulus) :
    f.view.Conserves (a = f.message.address → (f.view.balance a).isZero = true)
      (f.destroying a).view := by
  have ht := View.supply_transfer (b := a) (Nat.le_refl (f.view.balance f.message.address).toNat) hv
  have hs : (f.destroying a).view.supply + _ = _ + 0 := View.supply_setAccount
    (f.view.transfer f.message.address a (f.view.balance f.message.address)) f.message.address none
  refine ⟨by omega, fun hz => ?_⟩
  have hb : (f.view.transfer f.message.address a (f.view.balance f.message.address)).balance
      f.message.address = .zero := by
    by_cases ha : a = f.message.address
    · have hz := hz ha
      rw [ha] at hz ⊢
      rw [View.transfer_eq, if_pos hz]
      exact Word.isZero_iff.1 hz
    · exact View.balance_transfer_all ha
  rw [hb, Word.toNat_zero] at hs
  omega

section

variable {tx : Tx} {f g : Frame}

theorem supply_setSlot (v : View) (s : Slot) (x : Word) : (v.setSlot s x).supply = v.supply :=
  View.supply_congr fun a => by
    unfold View.balance View.account
    rw [View.account?_setSlot]

theorem step_conserves {fl : Flow} (h : step tx f = .ok fl g) (hv : f.view.supply < Word.modulus) :
    f.view.Conserves (¬ f.Burns tx) g.view := by
  cases step_effect h with
  | quiet hq | log _ _ _ _ hq => exact .of_eq (congrArg View.supply hq.view)
  | store _ _ _ _ _ _ hq => exact .of_eq (by rw [hq.view]; exact supply_setSlot _ _ _)
  | destroy ws w hop _ hw hq =>
    rw [hq.view]
    refine (f.conserves_destroying _ hv).mono fun hn ha => ?_
    by_contra hz
    exact hn ⟨hop, ⟨_, _, h⟩, ⟨ws, w, hw, ha⟩, by rw [← ha]; exact Bool.eq_false_iff.2 hz⟩

/-! ## Runs -/

variable {m : Message} {v : View} {p : Profile}

theorem Ended.supply_settle (e : Ended) : e.settle.frame.view.supply = e.frame.view.supply := by
  match e.settle, e.settles with
  | _, .same _ => rfl
  | _, .trapped _ _ _ hq => rw [hq.view]
  | _, .deposited _ _ _ _ _ _ hq =>
    rw [hq.view]
    exact View.supply_setAccount_of_balance rfl

/-- The supply after a message, if the frame it starts loses none on the way. -/
theorem execute_conserves_of {P : Prop} (hv : v.supply < Word.modulus)
    (hrun : ∀ c, m.enter v p = .running c → c.view.Conserves P (c.run tx).frame.view) :
    v.Conserves P (execute tx m v p).view := by
  cases h : m.enter v p with
  | answered o w =>
    rw [execute_answered h]
    cases Message.opens_of h with
    | turnedDown => exact .of_eq rfl
    | collision => exact .of_eq (View.supply_congr (Message.balance_bumpNonce v _))
    | noCode hr =>
      exact .of_eq ((m.over_calleeView v).supply_commit.trans (Message.supply_calleeView hr hv))
  | running c =>
    rw [execute_running h]
    have hover := run_over tx c _ (Message.over_floor h)
    have hc : v.Conserves P (c.run tx).frame.view :=
      .trans (.of_eq (Message.supply_of_enter h hv)) (hrun c h)
    obtain ⟨-, he⟩ | ⟨-, he⟩ := Ended.close_view hover
    · rw [he]
      refine hc.trans (.of_eq ?_)
      rw [(Ended.over_settle hover).supply_commit, Ended.supply_settle]
    · rw [he]
      exact .of_eq (m.supply_floor v)

/-- The supply after a message that a frame sends, if the frame that it starts loses none. -/
theorem report_conserves {r : Resume} (h : step tx f = .ok (.enter m r) g)
    (hv : f.view.supply < Word.modulus)
    (hrun : ∀ c, m.enter g.view g.profile = .running c → c.view.supply < Word.modulus →
      c.view.Conserves (∀ k, c.Reaches tx k → ¬ k.Burns tx) (c.run tx).frame.view) :
    f.view.Conserves (∀ k, f.Reaches tx k → ¬ k.Burns tx)
      (execute tx m g.view g.profile).view := by
  have hq := step_enter_quiet h
  rw [← hq.view] at hv ⊢
  refine execute_conserves_of hv fun c hc => ?_
  refine (hrun c hc (by rwa [Message.supply_of_enter hc hv])).mono fun hn k hk => ?_
  exact hn k (.callee h hc hk)

/-- A frame ends with no more supply than it starts with. The bound goes along: a callee, or the
frame after it, starts with no more than the frame had. -/
theorem run_conserves (tx : Tx) (f : Frame) : f.view.supply < Word.modulus →
    f.view.Conserves (∀ g, f.Reaches tx g → ¬ g.Burns tx) (f.run tx).frame.view := by
  refine f.run_induction tx (motive := fun f e => f.view.supply < Word.modulus →
    f.view.Conserves (∀ g, f.Reaches tx g → ¬ g.Burns tx) e.frame.view)
    ?trap ?halt ?next ?back ?stuck
  case trap =>
    intro f g t h _
    exact .of_eq (by rw [(step_trap_quiet h).view])
  case halt =>
    intro f g x h hv
    exact (step_conserves h hv).mono fun hn => hn f (.refl f)
  case next =>
    intro f g h ih hv
    have hs := step_conserves h hv
    refine (hs.mono fun hn => hn f (.refl f)).trans ((ih (Nat.lt_of_le_of_lt hs.1 hv)).mono ?_)
    exact fun hn k hk => hn k (.turn (.next h) hk)
  case back =>
    intro f g k m r h hc hk ih hv
    have hx := report_conserves h hv hc
    rw [← (Frame.resumed_ok hk).view] at hx
    refine hx.trans ((ih (Nat.lt_of_le_of_lt hx.1 hv)).mono ?_)
    exact fun hn l hl => hn l (.turn (.back h hk) hl)
  case stuck =>
    intro f g k m r t h hc hk hv
    have hx := report_conserves h hv hc
    rwa [← (Frame.resumed_error hk).view] at hx

/-- Carrying out a message does not add to the supply. -/
theorem execute_conserves (tx : Tx) (m : Message) {v : View} (p : Profile)
    (hv : v.supply < Word.modulus) :
    v.Conserves (∀ f, m.Visits tx v p f → ¬ f.Burns tx) (execute tx m v p).view := by
  refine execute_conserves_of hv fun c hc => ?_
  refine (run_conserves tx c (by rwa [Message.supply_of_enter hc hv])).mono ?_
  exact fun hn f hf => hn f ⟨c, hc, hf⟩

/-- Every frame on the way works on less than `2^256`. -/
theorem Message.Visits.supply_lt (h : m.Visits tx v p f) (hv : v.supply < Word.modulus) :
    f.view.supply < Word.modulus := by
  obtain ⟨c, hc, hr⟩ := h
  refine hr.keeps (I := fun f => f.view.supply < Word.modulus) ?turn ?callee
    (by rwa [supply_of_enter hc hv])
  case turn =>
    intro f g hf ht
    cases ht with
    | next h => exact Nat.lt_of_le_of_lt (step_conserves h hf).1 hf
    | back h hk =>
      rw [(Frame.resumed_ok hk).view]
      have hx := report_conserves h hf fun c _ hc => run_conserves tx c hc
      exact Nat.lt_of_le_of_lt hx.1 hf
  case callee =>
    intro f g c m r hf h hc
    have hq := step_enter_quiet h
    rw [← hq.view] at hf
    rwa [supply_of_enter hc hf]

end

/-! ## Transfers -/

/-- The transfer on entering a message, and the view it is made on. -/
inductive Message.Moves (m : Message) (v : View) : View → Address → Address → Word → Prop
  | call (hr : m.refusal? v = none) (hc : m.entry.creates = false)
      (hm : m.entry.movesValue = true) : Moves m v v.enter m.caller m.address m.value
  | init (hd : m.Derives v)
      (ho : occupied ((v.bumpNonce m.caller).account (m.target v)) = false) :
    Moves m v (m.freshView v) m.caller (m.target v) m.value

/-- The transfers that carrying out a message makes: on entering it and the messages sent on the
way, and before an account is removed. No other write moves a value (`Message.opens`,
`step_effect`). -/
inductive Message.Transfers (tx : Tx) (m : Message) (v : View) (p : Profile) :
    View → Address → Address → Word → Prop
  | entry {u : View} {a b : Address} {x : Word} (h : m.Moves v u a b x) :
    Transfers tx m v p u a b x
  | sent {f g : Frame} {m' : Message} {r : Resume} {u : View} {a b : Address} {x : Word}
      (hf : m.Visits tx v p f) (hs : step tx f = .ok (.enter m' r) g)
      (h : m'.Moves g.view u a b x) : Transfers tx m v p u a b x
  | removal {f g : Frame} {fl : Flow} {ws : Array Word} {w : Word} (hf : m.Visits tx v p f)
      (hop : f.opcode? = some .selfDestruct) (hs : step tx f = .ok fl g)
      (hw : f.stack.words = ws.push w) :
    Transfers tx m v p f.view f.message.address (.ofWord w) (f.view.balance f.message.address)

section

variable {tx : Tx} {m : Message} {u v : View} {p : Profile} {a b : Address} {x : Word}

theorem Message.Moves.exact (h : m.Moves v u a b x) (hv : v.supply < Word.modulus) :
    u.Exact a b x := by
  cases h with
  | call hr _ hm =>
    refine View.exact_of_le ?_ (by rwa [View.supply_enter])
    rw [View.balance_enter]
    exact value_le_of_refusal? hr hm
  | init hd => exact View.exact_of_le (value_le_freshView hd) (by rwa [supply_freshView])

theorem Message.Transfers.exact (h : m.Transfers tx v p u a b x)
    (hv : v.supply < Word.modulus) : u.Exact a b x := by
  cases h with
  | entry h => exact h.exact hv
  | sent hf hs h =>
    refine h.exact ?_
    rw [(step_enter_quiet hs).view]
    exact hf.supply_lt hv
  | removal hf => exact View.exact_of_le (Nat.le_refl _) (hf.supply_lt hv)

end

/-! ## Transactions -/

/-- The message that a transaction carries out, its intrinsic gas being taken. -/
def Message.charged (m : Message) : Message :=
  { m with gas := m.gas - intrinsicGas m.input m.entry.creates }

/-- What a transaction has booked before its message is carried out. -/
def Message.bill (m : Message) : Profile :=
  Profile.empty.add .intrinsic (intrinsicGas m.input m.entry.creates)

/-- A transaction leaves the world as it was, or commits to it what its message leaves. -/
theorem transact_world (b : Block) (w : World) (m : Message) :
    (transact b w m).world = w ∨ (transact b w m).world =
      (execute ⟨b, m.caller⟩ m.charged (View.ofWorld w).enter m.bill).view.commit.base := by
  unfold transact
  dsimp only
  split
  · exact .inl rfl
  · by_cases hs : (execute ⟨b, m.caller⟩ m.charged (View.ofWorld w).enter
        m.bill).outcome.status.isSuccess = true
    · exact .inr (if_pos hs)
    · exact .inl (if_neg hs)

theorem transact_world_of_success {b : Block} {w : World} {m : Message}
    (hg : intrinsicGas m.input m.entry.creates ≤ m.gas)
    (hs : (execute ⟨b, m.caller⟩ m.charged (View.ofWorld w).enter m.bill).outcome.status =
      .success) :
    (transact b w m).world =
      (execute ⟨b, m.caller⟩ m.charged (View.ofWorld w).enter m.bill).view.commit.base := by
  unfold transact
  dsimp only
  rw [if_neg (Nat.not_lt.2 hg)]
  exact if_pos (congrArg Status.isSuccess hs)

theorem supply_commit_base {v : View} {w : World} (h : v.Over (.ofWorld w)) :
    v.commit.base.supply = v.supply := by
  rw [← View.supply_ofWorld, h.ofWorld_commit_base, h.supply_commit]

/-- No transaction mints balance, in a world whose balances sum to less than `2^256`. Their sum
does not grow; it stays if no account with a balance is removed with itself as the beneficiary;
and no transfer on the way wraps. -/
theorem transact_mints_nothing (b : Block) (w : World) (m : Message)
    (hw : w.supply < Word.modulus) :
    let tx : Tx := ⟨b, m.caller⟩
    let v := (View.ofWorld w).enter
    (transact b w m).world.supply ≤ w.supply ∧
    ((∀ f, m.charged.Visits tx v m.bill f → ¬ f.Burns tx) →
      (transact b w m).world.supply = w.supply) ∧
    ∀ (u : View) (a c : Address) (x : Word), m.charged.Transfers tx v m.bill u a c x →
      u.Exact a c x := by
  intro tx v
  have hv : v.supply = w.supply := by rw [View.supply_enter, View.supply_ofWorld]
  have hlt : v.supply < Word.modulus := by rwa [hv]
  have hx := execute_conserves tx m.charged m.bill hlt
  have hover : (execute tx m.charged v m.bill).view.Over (.ofWorld w) :=
    execute_over tx m.charged v m.bill (View.over_enter _)
  refine ⟨?_, fun hn => ?_, fun u a c x h => h.exact hlt⟩
  · rcases transact_world b w m with he | he
    · rw [he]
    · rw [he, supply_commit_base hover, ← hv]
      exact hx.1
  · rcases transact_world b w m with he | he
    · rw [he]
    · rw [he, supply_commit_base hover, ← hv]
      exact hx.2 hn

def payer : World := .ofContract ⟨7, 0, 0⟩ .one .empty

def payment : Message := .plainCall ⟨7, 0, 0⟩ .zero .empty 21000 .one

/-- The only balance goes to the account at zero. -/
theorem transact_mints_nothing_payment :
    payer.supply = 1 ∧ (transact .standard payer payment).world.supply = 1 ∧
    (View.ofWorld payer).enter.enter.Exact ⟨7, 0, 0⟩ .zero .one := by
  have hs : payer.supply = 1 := rfl
  obtain ⟨-, he, hx⟩ := transact_mints_nothing .standard payer payment (by rw [hs]; decide)
  refine ⟨hs, (he ?_).trans hs, hx _ _ _ _ (.entry (.call rfl rfl rfl))⟩
  rintro f ⟨c, hc, -⟩
  have ho : payment.charged.enter (View.ofWorld payer).enter payment.bill = .answered _ _ := rfl
  rw [ho] at hc
  cases hc

end ParticleChain.Evm
