import ParticleChain.Proofs.Evm.Runs

/-!
# Accounts last until they are removed

An account that is there stays there, its nonce never goes back, and once it is occupied its code
stays (`Account.Continues`). Only the instruction that removes an account breaks this
(`Frame.Destroys`): the code that a creation deposits goes to an account that was not occupied
when the creation began. So it is for every run and every message (`carried_lasts`).
-/

namespace ParticleChain.Evm

open Message (occupied)

/-! ## Accounts -/

/-- What one account can become without a removal. -/
structure Account.Continues (x y : Account) : Prop where
  nonce : x.nonce ≤ y.nonce
  code : occupied x = true → y.code = x.code ∧ y.codeHash = x.codeHash

namespace Account

variable {x y z : Account}

theorem occupied_iff : occupied x = true ↔ x.nonce ≠ 0 ∨ x.code.size ≠ 0 := by
  simp [occupied]

theorem occupied_eq_false_iff : occupied x = false ↔ x.nonce = 0 ∧ x.code.size = 0 := by
  simp [occupied]

theorem Continues.refl (x : Account) : x.Continues x := ⟨Nat.le_refl _, fun _ => ⟨rfl, rfl⟩⟩

theorem Continues.remains (h : x.Continues y) (hx : occupied x = true) : occupied y = true := by
  rw [occupied_iff] at hx ⊢
  rcases hx with hn | hc
  · have := h.nonce
    exact .inl (by omega)
  · rw [(h.code (occupied_iff.2 (.inr hc))).1]
    exact .inr hc

theorem Continues.trans (h : x.Continues y) (h' : y.Continues z) : x.Continues z where
  nonce := Nat.le_trans h.nonce h'.nonce
  code hx :=
    have hy := h'.code (h.remains hx)
    ⟨hy.1.trans (h.code hx).1, hy.2.trans (h.code hx).2⟩

/-- A free account can become any other. -/
theorem Continues.of_free (hx : occupied x = false) (y : Account) : x.Continues y where
  nonce := by
    rw [(occupied_eq_false_iff.1 hx).1]
    exact Nat.zero_le _
  code h := by
    rw [hx] at h
    cases h

end Account

/-! ## Views -/

namespace View

variable {X : Address → Prop} {u v w : View} {a : Address} {x : Account}

theorem account_of_some (h : v.account? a = some x) : v.account a = x := by
  unfold account
  rw [h]
  rfl

/-- Every account of `v` goes on in `w`, but for those with `X`. -/
def Lasts (X : Address → Prop) (v w : View) : Prop :=
  ∀ a x, v.account? a = some x → X a ∨ ∃ y, w.account? a = some y ∧ x.Continues y

theorem Lasts.of_same (h : ∀ a, w.account? a = v.account? a) : v.Lasts X w :=
  fun a x hx => .inr ⟨x, (h a).trans hx, .refl x⟩

theorem Lasts.refl (v : View) : v.Lasts X v := .of_same fun _ => rfl

theorem Lasts.trans (h : u.Lasts X v) (h' : v.Lasts X w) : u.Lasts X w := by
  intro a x hx
  obtain hX | ⟨y, hy, hxy⟩ := h a x hx
  · exact .inl hX
  · obtain hX | ⟨z, hz, hyz⟩ := h' a y hy
    · exact .inl hX
    · exact .inr ⟨z, hz, hxy.trans hyz⟩

/-- One account is written anew. -/
theorem Lasts.setAccount (h : v.Lasts X w) {y : Account}
    (hy : ∀ x, v.account? a = some x → x.Continues y) : v.Lasts X (w.setAccount a (some y)) := by
  intro b x hx
  rw [account?_setAccount]
  by_cases hb : b = a
  · rw [if_pos hb]
    exact .inr ⟨y, rfl, hy x (hb ▸ hx)⟩
  · rw [if_neg hb]
    exact h b x hx

/-- One account with `X` is removed. -/
theorem Lasts.remove (h : v.Lasts X w) (ha : X a) : v.Lasts X (w.setAccount a none) := by
  intro b x hx
  rw [account?_setAccount]
  by_cases hb : b = a
  · exact .inl (hb ▸ ha)
  · rw [if_neg hb]
    exact h b x hx

theorem lasts_update (v : View) (a : Address) {f : Account → Account}
    (hf : ∀ x : Account, x.Continues (f x)) : v.Lasts X (v.setAccount a (some (f (v.account a)))) :=
  (Lasts.refl v).setAccount fun x hx => by
    rw [account_of_some hx]
    exact hf x

theorem lasts_enter (v : View) : v.Lasts X v.enter := .of_same v.account?_enter

theorem Over.lasts_commit (h : w.Over v) : w.Lasts X w.commit := .of_same h.account?_commit

theorem lasts_transfer (v : View) (a b : Address) (n : Word) : v.Lasts X (v.transfer a b n) := by
  have balance (g : Account → Word) (x : Account) : x.Continues { x with balance := g x } :=
    ⟨Nat.le_refl _, fun _ => ⟨rfl, rfl⟩⟩
  unfold transfer
  split
  · exact .refl v
  · exact (v.lasts_update a (balance (·.balance - n))).trans
      (lasts_update _ b (balance (·.balance + n)))

theorem lasts_bumpNonce (v : View) (a : Address) : v.Lasts X (v.bumpNonce a) :=
  v.lasts_update a (f := fun x => { x with nonce := x.nonce + 1 })
    fun _ => ⟨Nat.le_succ _, fun _ => ⟨rfl, rfl⟩⟩

end View

/-! ## Messages -/

namespace Message

variable {X : Address → Prop} {m : Message} {v : View} {p : Profile} {c : Frame}

theorem lasts_calleeView (m : Message) (v : View) : v.Lasts X (m.calleeView v) := by
  unfold calleeView
  split
  · exact v.lasts_enter.trans (View.lasts_transfer _ _ _ _)
  · exact v.lasts_enter

/-- The new address of a creation that starts is not that of the deployer, whose nonce has moved. -/
theorem target_ne_caller
    (ho : occupied ((v.bumpNonce m.caller).account (m.target v)) = false) :
    m.target v ≠ m.caller := by
  intro he
  rw [he, View.account_bumpNonce, if_pos rfl] at ho
  cases (Account.occupied_eq_false_iff.1 ho).1

/-- So it was not occupied before either. -/
theorem occupied_target (ho : occupied ((v.bumpNonce m.caller).account (m.target v)) = false) :
    occupied (v.account (m.target v)) = false := by
  have hne := target_ne_caller ho
  rwa [View.account_bumpNonce, if_neg hne] at ho

theorem free_target (ho : occupied ((v.bumpNonce m.caller).account (m.target v)) = false)
    {x : Account} (hx : v.account? (m.target v) = some x) : occupied x = false :=
  View.account_of_some hx ▸ occupied_target ho

theorem lasts_initView (ho : occupied ((v.bumpNonce m.caller).account (m.target v)) = false) :
    v.Lasts X (m.initView v) := by
  refine View.Lasts.trans (v := m.freshView v) ?_ (View.lasts_transfer _ _ _ _)
  refine View.Lasts.setAccount ((v.lasts_bumpNonce m.caller).trans (View.lasts_enter _)) ?_
  exact fun x hx => .of_free (free_target ho hx) _

theorem lasts_of_enter (h : m.enter v p = .running c) : v.Lasts X c.view := by
  cases opens_of h with
  | call => exact m.lasts_calleeView v
  | init _ ho => exact lasts_initView ho

/-- Where a frame of a creation deposits code, there was no occupied account before. -/
theorem free_of_enter (h : m.enter v p = .running c) (hc : c.message.entry.creates = true)
    {x : Account} (hx : v.account? c.message.address = some x) : occupied x = false := by
  cases opens_of h with
  | call _ hn =>
    rw [show m.entry.creates = true from hc] at hn
    cases hn
  | init _ ho => exact free_target ho hx

end Message

theorem Ended.lasts_settle {X : Address → Prop} {e : Ended} {v : View}
    (h : v.Lasts X e.frame.view) (hf : e.frame.message.entry.creates = true →
      ∀ x, v.account? e.frame.message.address = some x → occupied x = false) :
    v.Lasts X e.settle.frame.view := by
  match e.settle, e.settles with
  | _, .same _ => exact h
  | _, .trapped _ _ _ hq =>
    rw [hq.view]
    exact h
  | _, .deposited code _ hc _ _ _ hq =>
    rw [hq.view]
    exact h.setAccount fun x hx => .of_free (hf hc x hx) _

/-! ## Runs -/

/-- The frame removes the account at `a`. -/
structure Frame.Destroys (tx : Tx) (f : Frame) (a : Address) : Prop where
  opcode : f.opcode? = some .selfDestruct
  runs : ∃ fl g, step tx f = .ok fl g
  address : f.message.address = a

/-- A frame that removes its account has paid for that. -/
theorem Frame.Destroys.gas_le {tx : Tx} {f : Frame} {a : Address} (h : f.Destroys tx a) :
    Opcode.selfDestruct.shape.gas ≤ f.gasLeft := by
  obtain ⟨fl, g, hs⟩ := h.runs
  exact (step_performs h.opcode hs).2.1

section

variable {tx : Tx} {X : Address → Prop}

theorem step_lasts {f g : Frame} {fl : Flow} (hX : ∀ a, f.Destroys tx a → X a)
    (h : step tx f = .ok fl g) : f.view.Lasts X g.view := by
  cases step_effect h with
  | quiet hq | log _ _ _ _ hq => exact .of_same fun a => congrArg (·.account? a) hq.view
  | store _ _ _ _ _ _ hq =>
    rw [hq.view]
    exact .of_same fun a => View.account?_setSlot _ _ _ a
  | destroy _ _ hop _ _ hq =>
    rw [hq.view]
    exact (View.lasts_transfer _ _ _ _).remove (hX _ ⟨hop, ⟨_, _, h⟩, rfl⟩)

/-- Accounts last through runs and messages in which those with `X` alone are removed. -/
theorem carried_lasts (tx : Tx) (X : Address → Prop) :
    Carried tx (fun f => ∀ a, f.Destroys tx a → X a) (View.Lasts X) where
  refl := .refl
  trans := .trans
  step := step_lasts
  bumpNonce := View.lasts_bumpNonce
  callee := Message.lasts_calleeView
  init := Message.lasts_initView
  settle h hl := Ended.lasts_settle hl fun hc x hx => by
    rw [run_message] at hc hx
    exact Message.free_of_enter h hc hx
  commit := View.Over.lasts_commit

end

end ParticleChain.Evm
