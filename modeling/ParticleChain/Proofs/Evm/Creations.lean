import ParticleChain.Node.Basic
import ParticleChain.Proofs.Evm.Runs

/-!
# Addresses of created contracts

Whatever init code does, the contract it makes is where its message says: `created_execute`. So
the node tells in advance what address a deployed contract has (`deploy_ok`).
-/

namespace ParticleChain

namespace Evm

/-- Settling keeps the message of the frame. -/
theorem Ended.settle_message (e : Ended) : e.settle.frame.message = e.frame.message := by
  match e.settle, e.settles with
  | _, .same _ => rfl
  | _, .deposited code f _ _ _ _ hf => exact hf.message
  | _, .trapped t f _ hf => exact hf.message

/-- What a frame that ended has created is the account that its init code ran in. -/
theorem Ended.outcome_created {e : Ended} {a : Address} (h : e.outcome.created = some a) :
    e.frame.message.entry.creates = true ∧ a = e.frame.message.address := by
  have hsome : (if e.frame.message.entry.creates then some e.frame.message.address else none) =
      some a := by
    unfold Ended.outcome at h
    dsimp only at h
    split at h
    · exact h
    · exact h
    · cases h
    · cases h
  obtain ⟨hc, ha⟩ := Option.ite_none_right_eq_some.1 hsome
  exact ⟨hc, (Option.some.inj ha).symm⟩

/-- A message creates nothing but the contract at the address that it derives. -/
theorem created_execute {tx : Tx} {m : Message} {v : View} {p : Profile} {a : Address}
    (h : (execute tx m v p).outcome.created = some a) : a = m.target v := by
  cases he : m.enter v p with
  | answered o w =>
    rw [execute_answered he] at h
    cases Message.opens_of he with
    | turnedDown | collision | noCode => cases h
  | running c =>
    rw [execute_running he] at h
    obtain ⟨hc, ha⟩ := Ended.outcome_created (e := (c.run tx).settle) h
    rw [Ended.settle_message, run_message] at hc ha
    cases Message.opens_of he with
    | call _ hcall _ => exact absurd hc (Bool.eq_false_iff.1 hcall)
    | init => exact ha

theorem created_transact {b : Block} {w : World} {caller a : Address} {init : ByteArray}
    {salt value : Word} {gas : Nat}
    (h : (transact b w (.salted caller init salt gas value)).outcome.created = some a) :
    a = create2Address caller salt init := by
  unfold transact at h
  dsimp only at h
  split at h
  · cases h
  · exact created_execute h

end Evm

namespace Node

variable {n n' : Node} {text : String} {code args : ByteArray} {sender a : Address}
  {gas value : Nat}

theorem create_ok (h : n.create code args sender gas value = (.ok a, n')) :
    a = Evm.create2Address sender salt (code ++ args) := by
  unfold create transact at h
  dsimp only at h
  split at h
  · split at h
    · rename_i hc
      cases h
      exact Evm.created_transact hc
    · cases h
  · cases h

/-- A contract is deployed to the address that its sender and its init code determine. -/
theorem deploy_ok (h : n.deploy text args sender gas value = (.ok a, n')) : ∃ code,
    parseBytecode text = .ok code ∧ a = Evm.create2Address sender salt (code ++ args) := by
  unfold deploy at h
  split at h
  · cases h
  · split at h
    · cases h
    · rename_i code hcode
      exact ⟨code, hcode, create_ok h⟩

theorem create_of_success {x : Evm.Receipt}
    (h : Evm.transact n.block n.world (.salted sender (code ++ args) salt gas (amount value)) = x)
    (hs : x.outcome.status.isSuccess = true) (ha : x.outcome.created = some a) :
    n.create code args sender gas value = (.ok a, { n with world := x.world }) := by
  unfold create transact
  simp only [h, hs, ha, if_true]

theorem call_of_success {callee : Address} {input : ByteArray} {x : Evm.Receipt}
    (h : Evm.transact n.block n.world (.plainCall sender callee input gas (amount value)) = x)
    (hn : n.isRunning = true) (hs : x.outcome.status.isSuccess = true)
    (ha : callee.isZero = false) :
    n.call sender callee input gas value = (.ok x.outcome.output, { n with world := x.world }) := by
  unfold call transact
  simp only [h, hn, hs, ha, Bool.not_true, if_true, if_neg Bool.false_ne_true]

end Node

end ParticleChain
