import ParticleChain.Proofs.Evm.Accounts
import ParticleChain.Proofs.Evm.Evaluation
import ParticleChain.Proofs.Evm.Remains

/-!
# Accounts stay well formed

Code and code hash of an account are two fields that a run copies, defaults and rewrites in layer
after layer. They always fit: a run brings in no code but that of a deposit, which is checked and
hashed, so being well formed is closed under what happens to accounts
(`Account.closed_wellFormed`), and every frame sees well-formed accounts only
(`accounts_stay_well_formed`).
-/

namespace ParticleChain.Evm

/-- The code of the account can have been deployed, and the hash is that of the code. -/
structure Account.WellFormed (x : Account) : Prop where
  hash : x.codeHash = Keccak.hash x.code
  size : x.code.size ≤ maxCodeSize
  head : x.code.data[0]? ≠ some 0xef

theorem head_ne_of_padded {code : ByteArray} (h : Bytes.padded code 0 ≠ 0xef) :
    code.data[0]? ≠ some 0xef := by
  intro he
  rw [Bytes.padded_eq_getD, Array.getD_eq_getD_getElem?, he] at h
  exact h rfl

theorem Account.closed_wellFormed : Account.Closed Account.WellFormed where
  fresh := {
    hash := by simp only [Account.fresh, emptyCodeHash]
    size := Nat.zero_le _
    head := nofun }
  update _ _ h := ⟨h.hash, h.size, h.head⟩
  deposit hs hp _ := ⟨rfl, hs, head_ne_of_padded hp⟩

/-- If every account of the world is well formed, then so is every account after a transaction, and
every account that some frame sees on the way, up to the end of the frame. -/
theorem accounts_stay_well_formed (b : Block) (w : World) (m : Message)
    (hw : ∀ a x, w.account? a = some x → x.WellFormed) :
    (∀ a x, (transact b w m).world.account? a = some x → x.WellFormed) ∧
    ∀ f, m.charged.Visits ⟨b, m.caller⟩ (View.ofWorld w).enter m.bill f →
      f.view.Each Account.WellFormed ∧
      (f.run ⟨b, m.caller⟩).settle.frame.view.Each Account.WellFormed := by
  have hcarried := carried_each Account.closed_wellFormed ⟨b, m.caller⟩
  have hv : (View.ofWorld w).enter.Each Account.WellFormed :=
    View.Each.of_read (v := .ofWorld w) hw (View.account?_enter _)
  constructor
  · obtain he | he := ofWorld_transact b w m
    · exact fun a x hx => hw a x ((congrArg (·.account? a) he).symm.trans hx)
    · have hover := execute_over ⟨b, m.caller⟩ m.charged _ m.bill (View.over_enter (.ofWorld w))
      have hend := hcarried.execute m.charged _ m.bill (fun _ _ => trivial) hv
      exact fun a x hx =>
        hcarried.commit hover hend a x ((congrArg (·.account? a) he).symm.trans hx)
  · rintro f ⟨c, hc, hr⟩
    have hf := hcarried.reaches hr (hcarried.start hc hv)
    exact ⟨hf, Ended.each_settle Account.closed_wellFormed (hcarried.run f (fun _ _ => trivial) hf)⟩

/-! ## Code for an account that is gone -/

theorem wellFormed_ofContract {a c : Address} {balance : Word} {code : ByteArray} {x : Account}
    (hs : code.size ≤ maxCodeSize) (hp : Bytes.padded code 0 ≠ 0xef)
    (h : (World.ofContract a balance code).account? c = some x) : x.WellFormed := by
  change (World.empty.setAccount _ _).account? c = some x at h
  rw [World.account?_setAccount] at h
  split at h
  · cases h
    have hfresh : (Account.withBalance balance).WellFormed :=
      Account.closed_wellFormed.update 0 balance Account.closed_wellFormed.fresh
    exact Account.closed_wellFormed.update 1 balance
      (Account.closed_wellFormed.deposit hs hp hfresh)
  · cases h

/-- A contract that removes whichever account it runs for. -/
def leaver : World := .ofContract ⟨7, 0, 0⟩ .zero (Bytes.ofList [0x5f, 0xff])

/-- Init code that has its new account removed by the contract and then returns one byte of code. -/
def leaving : Message :=
  .salted .zero (Bytes.ofList
    [0x5f, 0x5f, 0x5f, 0x5f, 0x60, 0x07, 0x5a, 0xf4, 0x60, 0x01, 0x5f, 0xf3]) .zero 100000 .zero

theorem leaving_deploys : (transact? 16 .standard leaver leaving).any (fun r =>
    (r.outcome.created.bind r.world.account?).any (·.code.size == 1)) = true := by
  decide +kernel

/-- The code is deposited in a fresh account, which has the hash of it. -/
theorem accounts_stay_well_formed_leaving :
    (∀ a x, leaver.account? a = some x → x.WellFormed) ∧
    ∃ a x, (transact .standard leaver leaving).outcome.created = some a ∧
      (transact .standard leaver leaving).world.account? a = some x ∧ x.code.size = 1 ∧
      x.codeHash = Keccak.hash x.code := by
  have hw : ∀ a x, leaver.account? a = some x → x.WellFormed := fun a x =>
    wellFormed_ofContract (by decide) (by decide)
  obtain ⟨hafter, -⟩ := accounts_stay_well_formed .standard leaver leaving hw
  obtain ⟨r, hrun, h⟩ := (Option.any_eq_true _ _).1 leaving_deploys
  obtain ⟨x, hx, hsize⟩ := (Option.any_eq_true _ _).1 h
  obtain ⟨a, ha, hx⟩ := Option.bind_eq_some_iff.1 hx
  obtain rfl := transact_of_transact? hrun
  exact ⟨hw, a, x, ha, hx, eq_of_beq hsize, (hafter a x hx).hash⟩

end ParticleChain.Evm
