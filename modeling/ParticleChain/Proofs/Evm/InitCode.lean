import ParticleChain.Proofs.Evm.Conservation
import ParticleChain.Proofs.Evm.Creations
import ParticleChain.Proofs.Evm.Lasting
import ParticleChain.Proofs.Evm.Termination
import ParticleChain.Proofs.Evm.WellFormed

/-!
# What a successful creation does

Init code starts in a new account, with the deployer's nonce moved and the value paid
(`Message.Founds`), and may do anything then: call its deployer back, create further contracts, try
to create itself again. Where it succeeds, the code that it returned has passed the checks and is
paid for (`Ended.Deploys`). Accounts last through all of its run, so that code is what the new
account has at the end, unless that account is removed on the way
(`successful_creation_deploys`).
-/

namespace ParticleChain.Evm

open Message (occupied)

/-! ## Where init code starts -/

/-- The frame `c` runs the init code of `m` for the new account at `a`. -/
structure Message.Founds (m : Message) (v : View) (a : Address) (c : Frame) : Prop where
  code : c.code = m.input
  message : c.message = { m with address := a, codeAddress := a, input := .empty }
  other : a ≠ m.caller
  callerNonce : (c.view.account m.caller).nonce = (v.account m.caller).nonce + 1
  nonce : (c.view.account a).nonce = 1
  noCode : (c.view.account a).code = .empty
  covered : m.value.toNat ≤ (v.balance m.caller).toNat
  debited : c.view.balance m.caller = v.balance m.caller - m.value
  credited : c.view.balance a = v.balance a + m.value
  others : ∀ b, b ≠ m.caller → b ≠ a → c.view.account b = v.account b

namespace Message

variable {m : Message} {v : View} {p : Profile} {c : Frame}

theorem account_freshView (m : Message) (v : View) (b : Address) : (m.freshView v).account b =
    if b = m.target v then { (v.bumpNonce m.caller).account b with nonce := 1 }
    else (v.bumpNonce m.caller).account b := by
  unfold freshView
  dsimp only
  rw [View.account_setAccount, View.account_enter, View.account_enter]
  split
  · rename_i h
    rw [h]
    rfl
  · rfl

/-- Nothing was at the new address before, but possibly a balance. -/
theorem account_target (ho : occupied ((v.bumpNonce m.caller).account (m.target v)) = false) :
    (v.account (m.target v)).nonce = 0 ∧ (v.account (m.target v)).code = .empty := by
  obtain ⟨hn, hc⟩ := Account.occupied_eq_false_iff.1 (occupied_target ho)
  exact ⟨hn, ByteArray.size_eq_zero_iff.1 hc⟩

theorem founds_initView (hd : m.Derives v)
    (ho : occupied ((v.bumpNonce m.caller).account (m.target v)) = false) (p : Profile) :
    m.Founds v (m.target v) (.start (m.initMessage v) m.input (m.initView v) p) := by
  have hne := target_ne_caller ho
  have hread := fun b => View.account_transfer (m.freshView v) hne b m.value
  have hcaller := hread m.caller
  have hnew := hread (m.target v)
  rw [account_freshView, if_neg hne.symm, View.account_bumpNonce, if_pos rfl, if_pos rfl,
    balance_freshView] at hcaller
  rw [account_freshView, if_pos rfl, View.account_bumpNonce, if_neg hne, if_neg hne, if_pos rfl,
    balance_freshView] at hnew
  constructor
  case code => rfl
  case message => rfl
  case other => exact hne
  case callerNonce => exact congrArg Account.nonce hcaller
  case nonce => exact congrArg Account.nonce hnew
  case noCode => exact (congrArg Account.code hnew).trans (account_target ho).2
  case covered => exact value_le_of_refusal? hd.1 (movesValue_of_creates hd.2.1)
  case debited => exact congrArg Account.balance hcaller
  case credited => exact congrArg Account.balance hnew
  case others =>
    intro b hc hb
    have hother := hread b
    rwa [account_freshView, if_neg hb, View.account_bumpNonce, if_neg hc, if_neg hc, if_neg hb,
      balance_freshView] at hother

end Message

/-! ## What is deployed -/

/-- The outcome `o` of a creation whose init code ended as `e` is a success with this code. -/
structure Ended.Deploys (e : Ended) (code : ByteArray) (o : Outcome) : Prop where
  halt : e.halt = .ok (.ret code) ∨ e.halt = .ok .stop ∧ code = .empty
  size : code.size ≤ maxCodeSize
  head : code.data[0]? ≠ some 0xef
  paid : o.gasLeft + Price.codeByte * code.size = e.frame.gasLeft

/-- Init code that succeeds stops, or the code that it returned is deposited. -/
theorem Ended.settle_of_success {e : Ended} (hc : e.frame.message.entry.creates = true)
    (hs : e.settle.outcome.status = .success) :
    (e.halt = .ok .stop ∧ e.settle = e) ∨
    ∃ code, e.halt = .ok (.ret code) ∧ code.size ≤ maxCodeSize ∧ Bytes.padded code 0 ≠ 0xef ∧
      Price.codeByte * code.size ≤ e.frame.gasLeft ∧
      e.settle = ⟨.ok .stop,
        (e.frame.paying .deployment (Price.codeByte * code.size)).depositing code⟩ := by
  obtain ⟨halt, f⟩ := e
  have hc : f.message.entry.creates = true := hc
  unfold settle at hs ⊢
  dsimp only at hs ⊢
  rw [hc] at hs ⊢
  rcases halt with t | _ | code | data
  · cases hs
  · exact .inl ⟨rfl, rfl⟩
  · dsimp only at hs ⊢
    cases hd : deposit code f with
    | error t g =>
      rw [hd] at hs
      cases hs
    | ok u g =>
      obtain ⟨hsize, hhead, hgas, rfl⟩ := deposit_inv hd
      exact .inr ⟨code, rfl, hsize, hhead, hgas, rfl⟩
  · cases hs

theorem Ended.outcome_of_stop {e : Ended} (hc : e.frame.message.entry.creates = true)
    (h : e.halt = .ok .stop) : e.outcome =
      ⟨.success, e.frame.gasLeft, .empty, some e.frame.message.address, e.frame.logs⟩ := by
  unfold outcome
  dsimp only
  rw [h, hc]
  rfl

/-- The outcome of a creation that succeeds, and the account that the init code ran in, if it is
still there and has no code yet. -/
theorem Ended.deploys_of_success {e : Ended} (hc : e.frame.message.entry.creates = true)
    (hs : e.settle.outcome.status = .success) :
    e.settle.outcome.created = some e.frame.message.address ∧ e.settle.outcome.output = .empty ∧
    ∃ code, e.Deploys code e.settle.outcome ∧
      ∀ x, e.frame.view.account? e.frame.message.address = some x → x.code = .empty →
        ∃ y, e.settle.frame.view.account? e.frame.message.address = some y ∧
          y.nonce = x.nonce ∧ y.code = code := by
  obtain ⟨hh, he⟩ | ⟨code, hh, hsize, hhead, hgas, he⟩ := settle_of_success hc hs
  · rw [he, outcome_of_stop hc hh]
    refine ⟨rfl, rfl, .empty, ?_, fun x hx hcode => ⟨x, hx, rfl, hcode⟩⟩
    exact { halt := .inr ⟨hh, rfl⟩, size := Nat.zero_le _, head := nofun, paid := rfl }
  · have hpaid : (e.frame.gasLeft - Price.codeByte * code.size) + Price.codeByte * code.size =
        e.frame.gasLeft := Nat.sub_add_cancel hgas
    have ho := outcome_of_stop (e := ⟨.ok .stop,
      (e.frame.paying .deployment (Price.codeByte * code.size)).depositing code⟩) hc rfl
    rw [he, ho]
    refine ⟨rfl, rfl, code, ?_, fun x hx _ => ⟨x.setCode code, ?_, rfl, rfl⟩⟩
    · exact { halt := .inl hh, size := hsize, head := head_ne_of_padded hhead, paid := hpaid }
    · have hy := e.frame.view.account?_setAccount e.frame.message.address e.frame.message.address
        (some ((e.frame.view.account e.frame.message.address).setCode code))
      rw [if_pos rfl] at hy
      exact hy.trans (by rw [View.account_of_some hx])

/-! ## Creations -/

theorem View.account?_of_nonce {v : View} {a : Address} (h : (v.account a).nonce ≠ 0) :
    v.account? a = some (v.account a) := by
  unfold account at h ⊢
  cases ha : v.account? a with
  | none =>
    rw [ha] at h
    exact absurd rfl h
  | some x => rfl

/-- The account that init code runs in is there at the end of the run, without code, unless the run
removed it. -/
theorem Message.Founds.lasts {tx : Tx} {m : Message} {v : View} {a : Address} {c : Frame}
    (h : m.Founds v a c) (hkept : ∀ f, c.Retains tx f → ¬ f.Destroys tx a) :
    ∃ x, (c.run tx).frame.view.account? a = some x ∧ x.nonce ≠ 0 ∧ x.code = .empty := by
  have hone : (c.view.account a).nonce ≠ 0 := by
    rw [h.nonce]
    exact Nat.one_ne_zero
  have hlasts := (carried_lasts tx fun b => ∃ f, c.Retains tx f ∧ f.Destroys tx b).run c
    fun f hf b hb => ⟨f, hf, hb⟩
  obtain ⟨f, hf, hd⟩ | ⟨x, hx, hcont⟩ := hlasts a _ (View.account?_of_nonce hone)
  · exact absurd hd (hkept f hf)
  · have hnonce := hcont.nonce
    have hcode := (hcont.code (Account.occupied_iff.2 (.inl hone))).1
    exact ⟨x, hx, by omega, hcode.trans h.noCode⟩

/-- What a creation that succeeds does. The new contract is at the address derived from the deployer
and its nonce, or from the deployer, the salt and the init code, where nothing was deployed. The
init code ran there (`Message.Founds`), and what it returned is its code (`Ended.Deploys`), unless a
frame whose writes were kept removed the account. -/
theorem successful_creation_deploys (tx : Tx) (m : Message) (v : View) (p : Profile)
    (hc : m.entry.creates = true) (hs : (execute tx m v p).outcome.status = .success) :
    ∃ a c code,
      (m.entry = .create → a = createAddress m.caller (v.account m.caller).nonce) ∧
      (∀ salt, m.entry = .create2 salt → a = create2Address m.caller salt m.input) ∧
      (execute tx m v p).outcome.created = some a ∧
      (execute tx m v p).outcome.output = .empty ∧
      (v.account a).nonce = 0 ∧ (v.account a).code = .empty ∧
      m.enter v p = .running c ∧ m.Founds v a c ∧
      (c.run tx).Deploys code (execute tx m v p).outcome ∧
      ((∀ f, m.Retains tx v p f → ¬ f.Destroys tx a) →
        ∃ y, (execute tx m v p).view.account? a = some y ∧ y.nonce ≠ 0 ∧ y.code = code) := by
  obtain ⟨hd, ho, he⟩ := init_of_success hc hs
  have hf := Message.founds_initView hd ho p
  generalize Frame.start (m.initMessage v) m.input (m.initView v) p = c at he hf
  obtain ⟨hnonce, hcode⟩ := Message.account_target ho
  have hrun : (c.run tx).frame.message = { m with
      address := m.target v, codeAddress := m.target v, input := .empty } :=
    (run_message tx c).trans hf.message
  have hx : execute tx m v p = (c.run tx).close := execute_running he
  have hsettled : (c.run tx).settle.outcome.status = .success := by
    rw [hx] at hs
    exact hs
  obtain ⟨hcreated, houtput, code, hdeploys, hend⟩ :=
    Ended.deploys_of_success (by rw [hrun]; exact hc) hsettled
  rw [hrun] at hcreated hend
  refine ⟨m.target v, c, code, fun h => ?create, fun salt h => ?create2, ?created, ?output, hnonce,
    hcode, he, hf, ?deploys, fun hkept => ?account⟩
  case create => rw [Message.target, Message.newAddress, h]
  case create2 => rw [Message.target, Message.newAddress, h]
  case created =>
    rw [hx]
    exact hcreated
  case output =>
    rw [hx]
    exact houtput
  case deploys =>
    rw [hx]
    exact hdeploys
  case account =>
    -- the account lasts through the run, and then the code is deposited there
    have hover := run_over tx c _ (Message.over_floor he)
    obtain ⟨x, hxa, hne, hempty⟩ := hf.lasts fun f hr => hkept f ⟨hs, c, he, hr⟩
    obtain ⟨y, hy, hyn, hyc⟩ := hend x hxa hempty
    obtain ⟨-, hview⟩ | ⟨hfail, -⟩ := Ended.close_view hover
    · refine ⟨y, ?_, by rw [hyn]; exact hne, hyc⟩
      rw [hx, hview, View.Over.account?_commit (Ended.over_settle hover)]
      exact hy
    · exact absurd hsettled hfail

/-- A creation that pays one for a contract with one byte of code. -/
def founding : Message :=
  ⟨.create, ⟨7, 0, 0⟩, .zero, .zero, .one,
    Bytes.ofList [0x60, 0x5b, 0x5f, 0x53, 0x60, 0x01, 0x5f, 0xf3], 4000, false, 0⟩

theorem founding_succeeds : (execute? (Frame.run? ⟨.standard, ⟨7, 0, 0⟩⟩ 16) founding
    (.ofWorld payer) .empty).any (fun x => x.outcome.status == .success &&
      (x.outcome.created.bind x.view.account?).any (·.code.data == #[0x5b])) = true := by
  decide +kernel

/-- There is not enough gas for a removal. -/
theorem successful_creation_deploys_founding :
    founding.entry.creates = true ∧
    (execute ⟨.standard, ⟨7, 0, 0⟩⟩ founding (.ofWorld payer) .empty).outcome.status = .success ∧
    ∃ a y, a = createAddress ⟨7, 0, 0⟩ 1 ∧
      (execute ⟨.standard, ⟨7, 0, 0⟩⟩ founding (.ofWorld payer) .empty).view.account? a = some y ∧
      y.nonce ≠ 0 ∧ y.code.data = #[0x5b] := by
  obtain ⟨x, hx, h⟩ := (Option.any_eq_true _ _).1 founding_succeeds
  obtain ⟨hstatus, hcode⟩ := Bool.and_eq_true_iff.1 h
  obtain ⟨z, hz, hbyte⟩ := (Option.any_eq_true _ _).1 hcode
  obtain ⟨b, hb, hz⟩ := Option.bind_eq_some_iff.1 hz
  obtain rfl := execute_of_execute? (fun _ _ => Frame.run_of_run?) hx
  have hs := eq_of_beq hstatus
  obtain ⟨a, -, code, haddress, -, hcreated, -, -, -, -, -, -, hend⟩ :=
    successful_creation_deploys ⟨.standard, ⟨7, 0, 0⟩⟩ founding (.ofWorld payer) .empty rfl hs
  obtain ⟨y, hy, hnonce, -⟩ := hend fun f hf hd =>
    absurd (Nat.le_trans hd.gas_le hf.visits.gas_le) (by decide)
  obtain rfl : a = b := Option.some.inj (hcreated.symm.trans hb)
  obtain rfl : y = z := Option.some.inj (hy.symm.trans hz)
  have hdeployer : ((View.ofWorld payer).account founding.caller).nonce = 1 := by decide
  exact ⟨rfl, hs, a, y, (haddress rfl).trans (by rw [hdeployer]; rfl), hy, hnonce, eq_of_beq hbyte⟩

end ParticleChain.Evm
