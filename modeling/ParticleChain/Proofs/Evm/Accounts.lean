import ParticleChain.Proofs.Evm.Runs

/-!
# What holds of every account

A run writes accounts in few ways: a fresh account is put in place, nonce and balance of one are
changed, and the code that a creation returned becomes the code of its account. A property that
these keep (`Account.Closed`) holds of all accounts wherever a run comes to, if it holds of all
accounts before (`carried_each`).
-/

namespace ParticleChain.Evm

/-- A property that fresh accounts have and that changes of accounts keep. -/
structure Account.Closed (P : Account → Prop) : Prop where
  fresh : P .fresh
  update {x : Account} (nonce : Nat) (balance : Word) (h : P x) : P { x with nonce, balance }
  deposit {x : Account} {code : ByteArray} (hs : code.size ≤ maxCodeSize)
    (hp : Bytes.padded code 0 ≠ 0xef) (h : P x) : P (x.setCode code)

/-! ## Views -/

namespace View

variable {P : Account → Prop} {v w : View}

/-- All accounts that can be read have the property. -/
def Each (P : Account → Prop) (v : View) : Prop := ∀ a x, v.account? a = some x → P x

theorem Each.of_read (h : v.Each P) (he : ∀ a, w.account? a = v.account? a) : w.Each P :=
  fun a x hx => h a x (he a ▸ hx)

theorem Each.account (hP : Account.Closed P) (h : v.Each P) (a : Address) : P (v.account a) := by
  unfold View.account
  cases hx : v.account? a with
  | none => exact hP.fresh
  | some x => exact h a x hx

theorem Each.setAccount (h : v.Each P) (a : Address) {x : Option Account}
    (hx : ∀ y, x = some y → P y) : (v.setAccount a x).Each P := by
  intro b y hy
  rw [account?_setAccount] at hy
  split at hy
  · exact hx y hy
  · exact h b y hy

theorem Each.update (hP : Account.Closed P) (h : v.Each P) (a : Address) (nonce : Nat)
    (balance : Word) : (v.setAccount a (some { v.account a with nonce, balance })).Each P :=
  h.setAccount a fun _ hy => Option.some.inj hy ▸ hP.update nonce balance (h.account hP a)

theorem Each.transfer (hP : Account.Closed P) (h : v.Each P) (a b : Address) (n : Word) :
    (v.transfer a b n).Each P := by
  unfold View.transfer
  split
  · exact h
  · exact (h.update hP a _ _).update hP b _ _

end View

/-! ## Runs -/

section

variable {P : Account → Prop}

theorem step_each (hP : Account.Closed P) {tx : Tx} {f g : Frame} {fl : Flow}
    (h : step tx f = .ok fl g) (hf : f.view.Each P) : g.view.Each P := by
  cases step_effect h with
  | quiet hq | log _ _ _ _ hq =>
    rw [hq.view]
    exact hf
  | store _ _ _ _ _ _ hq =>
    rw [hq.view]
    exact hf.of_read (View.account?_setSlot _ _ _)
  | destroy _ _ _ _ _ hq =>
    rw [hq.view]
    exact (hf.transfer hP _ _ _).setAccount _ fun _ hy => nomatch hy

theorem Message.each_calleeView (hP : Account.Closed P) (m : Message) {v : View} (h : v.Each P) :
    (m.calleeView v).Each P := by
  have he : v.enter.Each P := h.of_read v.account?_enter
  unfold calleeView
  split
  · exact he.transfer hP _ _ _
  · exact he

theorem Message.each_initView (hP : Account.Closed P) (m : Message) {v : View} (h : v.Each P) :
    (m.initView v).Each P := by
  have he : (v.bumpNonce m.caller).enter.Each P :=
    View.Each.of_read (h.update hP m.caller _ _) (View.account?_enter _)
  exact (he.update hP _ _ _).transfer hP _ _ _

theorem Ended.each_settle (hP : Account.Closed P) {e : Ended} (h : e.frame.view.Each P) :
    e.settle.frame.view.Each P := by
  match e.settle, e.settles with
  | _, .same _ => exact h
  | _, .trapped _ _ _ hq =>
    rw [hq.view]
    exact h
  | _, .deposited _ _ _ _ hs hp hq =>
    rw [hq.view]
    exact h.setAccount _ fun _ hy => Option.some.inj hy ▸ hP.deposit hs hp (h.account hP _)

/-- If all accounts have the property before, they have it all the way. -/
theorem carried_each (hP : Account.Closed P) (tx : Tx) :
    Carried tx (fun _ => True) fun v w => v.Each P → w.Each P where
  refl _ := id
  trans h h' := h' ∘ h
  step _ h := step_each hP h
  bumpNonce _ a h := h.update hP a _ _
  callee m _ := m.each_calleeView hP
  init _ := Message.each_initView hP _
  settle _ h := Ended.each_settle hP ∘ h
  commit ho h := h.of_read ho.account?_commit

end

end ParticleChain.Evm
