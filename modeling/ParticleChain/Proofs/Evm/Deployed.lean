import ParticleChain.Proofs.Evm.Evaluation
import ParticleChain.Proofs.Evm.Remains
import ParticleChain.Proofs.Evm.Termination

/-!
# Deployed code and nonces

A transaction changes neither the code of an account that has some nor takes its nonce back, as
long as no frame removes the account on the way (`deployed_code_stays`). What it may do to the
accounts of the world is what `carried_lasts` says of every message. The one instruction that
could put other code in place starts no init code where an account is occupied
(`execute_occupied`).
-/

namespace ParticleChain.Evm

open Message (occupied)

/-- The nonce of an account, zero if there is none. -/
def World.nonce (w : World) (a : Address) : Nat := (w.account? a).elim 0 (·.nonce)

section

variable {tx : Tx} {m : Message} {v : View} {p : Profile} {w w' : World} {a : Address}

/-! ## Creations -/

/-- Init code does not start at an occupied address: the creation is turned down or collides. -/
theorem execute_occupied (hc : m.entry.creates = true)
    (ho : occupied (v.account (m.target v)) = true) :
    (execute tx m v p).outcome.status ≠ .success := by
  intro hs
  obtain ⟨-, hfree, -⟩ := init_of_success hc hs
  rw [Message.occupied_target hfree] at ho
  cases ho

theorem transact_occupied {b : Block} (hc : m.entry.creates = true)
    (ho : occupied ((View.ofWorld w).account (m.target (.ofWorld w))) = true) :
    (transact b w m).outcome.status ≠ .success := by
  unfold transact
  dsimp only
  split
  · exact Status.noConfusion
  · refine execute_occupied hc ?_
    rw [View.account_enter]
    unfold Message.target at ho ⊢
    rwa [View.account_enter]

/-! ## Transactions -/

/-- The accounts of the world last through a transaction, but for those that it removes. -/
theorem transact_lasts (b : Block) (w : World) (m : Message) :
    (View.ofWorld w).Lasts
      (fun a => ∃ f, m.charged.Visits ⟨b, m.caller⟩ (View.ofWorld w).enter m.bill f ∧
        f.Destroys ⟨b, m.caller⟩ a)
      (.ofWorld (transact b w m).world) := by
  obtain he | he := ofWorld_transact b w m <;> rw [he]
  · exact .refl _
  · have hover := execute_over ⟨b, m.caller⟩ m.charged (View.ofWorld w).enter m.bill
      (View.over_enter _)
    exact (View.lasts_enter _).trans <|
      ((carried_lasts ⟨b, m.caller⟩ _).execute m.charged _ m.bill
        fun f hf a hd => ⟨f, hf.visits, hd⟩).trans hover.lasts_commit

/-- The nonce of an account that goes on, if there is one, does not go back. -/
theorem World.nonce_le
    (h : ∀ x, w.account? a = some x → ∃ y, w'.account? a = some y ∧ x.Continues y) :
    w.nonce a ≤ w'.nonce a := by
  unfold nonce
  cases hx : w.account? a with
  | none => exact Nat.zero_le _
  | some x =>
    obtain ⟨y, hy, hxy⟩ := h x hx
    rw [hy]
    exact hxy.nonce

end

/-- Deployed code is immutable and nonces never go back. An account with code keeps code and code
hash through a transaction in which it is not removed, and its nonce is at least what it was. A
creation whose address is taken by an account with code or a nonce never succeeds, neither as a
transaction nor on the way of one. -/
theorem deployed_code_stays (b : Block) (w : World) (m : Message) :
    (∀ a, (∀ f, m.charged.Visits ⟨b, m.caller⟩ (View.ofWorld w).enter m.bill f →
        ¬ f.Destroys ⟨b, m.caller⟩ a) →
      (∀ x, w.account? a = some x → x.code.size ≠ 0 →
        ∃ y, (transact b w m).world.account? a = some y ∧
          y.code = x.code ∧ y.codeHash = x.codeHash) ∧
      w.nonce a ≤ (transact b w m).world.nonce a) ∧
    (m.entry.creates = true →
      occupied ((View.ofWorld w).account (m.target (.ofWorld w))) = true →
      (transact b w m).outcome.status ≠ .success) ∧
    ∀ (tx : Tx) (m' : Message) (v : View) (p : Profile), m'.entry.creates = true →
      occupied (v.account (m'.target v)) = true →
      (execute tx m' v p).outcome.status ≠ .success := by
  refine ⟨fun a ha => ?_, transact_occupied, fun _ _ _ _ => execute_occupied⟩
  have hl : ∀ x, w.account? a = some x →
      ∃ y, (transact b w m).world.account? a = some y ∧ x.Continues y := fun x hx =>
    (transact_lasts b w m a x hx).resolve_left fun ⟨f, hf, hd⟩ => ha f hf hd
  refine ⟨fun x hx hcode => ?_, World.nonce_le hl⟩
  obtain ⟨y, hy, hxy⟩ := hl x hx
  exact ⟨y, hy, hxy.code (Account.occupied_iff.2 (.inr hcode))⟩

/-! ## A contract that stays -/

/-- Code that writes back what its first slot holds. -/
def keeperCode : ByteArray := Bytes.ofList [0x5f, 0x54, 0x5f, 0x55]

def keeper : World := .ofContract ⟨7, 0, 0⟩ .zero keeperCode

/-- A call with too little gas for a removal. -/
def keeperCall : Message := .plainCall .zero ⟨7, 0, 0⟩ .empty 24000 .zero

def latecomer : Message := .salted .zero .empty .zero 100000 .zero

/-- A world in which the address of the creation is taken. -/
def taken : World :=
  World.empty.setAccount (latecomer.target (.ofWorld .empty))
    (some { Account.fresh with nonce := 1 })

theorem occupied_taken (v : View) :
    occupied ((View.ofWorld taken).account (latecomer.target v)) = true := by
  have ht : latecomer.target v = latecomer.target (.ofWorld .empty) := rfl
  change occupied (((View.ofWorld .empty).setAccount _ _).account _) = true
  rw [ht, View.account_setAccount, if_pos rfl]
  rfl

theorem keeper_succeeds :
    (transact? 8 .standard keeper keeperCall).any (·.outcome.status.isSuccess) = true := by
  decide +kernel

/-- The contract is called and stays; the creation at the taken address does not succeed. -/
theorem deployed_code_stays_keeper :
    let x := transact .standard keeper keeperCall
    x.outcome.status = .success ∧
    (∃ y, x.world.account? ⟨7, 0, 0⟩ = some y ∧ y.code = keeperCode ∧
      y.codeHash = Keccak.hash keeperCode) ∧
    1 ≤ x.world.nonce ⟨7, 0, 0⟩ ∧
    (transact .standard taken latecomer).outcome.status ≠ .success ∧
    (execute ⟨.standard, .zero⟩ latecomer (.ofWorld taken) .empty).outcome.status ≠ .success := by
  obtain ⟨hstays, -, -⟩ := deployed_code_stays .standard keeper keeperCall
  obtain ⟨-, htx, hx⟩ := deployed_code_stays .standard taken latecomer
  obtain ⟨hcode, hnonce⟩ := hstays ⟨7, 0, 0⟩ fun f hf hd =>
    absurd (Nat.le_trans hd.gas_le hf.gas_le) (by decide)
  obtain ⟨x, hrun, hs⟩ := (Option.any_eq_true _ _).1 keeper_succeeds
  refine ⟨?_, hcode _ rfl (by decide), hnonce, htx rfl (occupied_taken _),
    hx _ latecomer _ _ rfl (occupied_taken _)⟩
  rw [transact_of_transact? hrun]
  exact eq_of_beq hs

end ParticleChain.Evm
