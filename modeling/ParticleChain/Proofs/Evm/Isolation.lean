import ParticleChain.Proofs.Evm.Evaluation
import ParticleChain.Proofs.Evm.Remains
import ParticleChain.Proofs.Evm.Termination

/-!
# Isolation of storage

Nobody but a contract itself changes its slots (`slot_changes_in_own_context`). A transaction
writes one layer to the world. It holds writes of those slots only that a frame wrote which was
not rolled back (`carried_writesOnly`), and removals of those accounts only that such a frame
removed (`carried_removesOnly`). Every other slot keeps its value.
-/

namespace ParticleChain.Evm

/-! ## Accounts removed in layers -/

namespace View

variable {X : Address → Prop} {u v w : View} {a : Address}

/-- Some layer holds the removal of the account. -/
def Removed (v : View) (a : Address) : Prop := ∃ l ∈ v.layers, l.accounts[a]? = some none

theorem Removed.of_setAccount {b : Address} {x : Option Account}
    (h : (v.setAccount b x).Removed a) : (a = b ∧ x = none) ∨ v.Removed a := by
  obtain ⟨layers, base⟩ := v
  cases layers with
  | nil => exact .inr h
  | cons l r =>
    obtain ⟨k, hk, hx⟩ := h
    rcases List.mem_cons.1 hk with rfl | hk
    · rw [Std.TreeMap.getElem?_insert] at hx
      split at hx
      · rename_i he
        exact .inl ⟨(Std.LawfulEqOrd.eq_of_compare he).symm, Option.some.inj hx⟩
      · exact .inr ⟨l, List.mem_cons_self, hx⟩
    · exact .inr ⟨k, List.mem_cons_of_mem _ hk, hx⟩

theorem Removed.of_update {b : Address} {x : Account}
    (h : (v.setAccount b (some x)).Removed a) : v.Removed a :=
  h.of_setAccount.resolve_left fun hx => nomatch hx.2

theorem Removed.of_setSlot {t : Slot} {x : Word} (h : (v.setSlot t x).Removed a) :
    v.Removed a := by
  obtain ⟨layers, base⟩ := v
  cases layers with
  | nil => exact h
  | cons l r =>
    obtain ⟨k, hk, hx⟩ := h
    rcases List.mem_cons.1 hk with rfl | hk
    · exact ⟨l, List.mem_cons_self, hx⟩
    · exact ⟨k, List.mem_cons_of_mem _ hk, hx⟩

theorem Removed.of_enter (h : v.enter.Removed a) : v.Removed a := by
  obtain ⟨k, hk, hx⟩ := h
  rcases List.mem_cons.1 hk with rfl | hk
  · simp [Layer.empty] at hx
  · exact ⟨k, hk, hx⟩

theorem Removed.of_transfer {b c : Address} {n : Word} (h : (v.transfer b c n).Removed a) :
    v.Removed a := by
  unfold transfer at h
  split at h
  · exact h
  · exact h.of_update.of_update

/-- A commit removes below what the layer removes. -/
theorem Removed.of_commit (ho : w.Over v) (h : w.commit.Removed a) : w.Removed a := by
  obtain ⟨l, rfl⟩ := ho
  revert h
  refine foldl_keeps (P := fun u : View => u.Removed a → Removed ⟨l :: v.layers, v.base⟩ a)
    (fun _ _ _ _ ih h => ih h.of_setSlot)
    (foldl_keeps (P := fun u : View => u.Removed a → Removed ⟨l :: v.layers, v.base⟩ a)
      (fun u b x hb ih h => ?_) ?_)
  · obtain ⟨rfl, rfl⟩ | h := h.of_setAccount
    · exact ⟨l, List.mem_cons_self, hb⟩
    · exact ih h
  · rintro ⟨k, hk, hx⟩
    exact ⟨k, List.mem_cons_of_mem _ hk, hx⟩

/-- The layers of `w` remove accounts with `X` only, besides those that the layers of `v` do. -/
def RemovesOnly (X : Address → Prop) (v w : View) : Prop := ∀ a, w.Removed a → X a ∨ v.Removed a

theorem RemovesOnly.of_imp (h : ∀ a, w.Removed a → v.Removed a) : v.RemovesOnly X w :=
  fun a ha => .inr (h a ha)

theorem RemovesOnly.trans (h : u.RemovesOnly X v) (h' : v.RemovesOnly X w) : u.RemovesOnly X w :=
  fun a ha => (h' a ha).elim .inl (h a)

/-- A commit to the world changes a slot only if the layer holds a write of it or the removal of
its account. -/
theorem Over.slot_changed {b : World} (hv : v.Over (.ofWorld b)) {s : Slot}
    (hs : v.commit.slot s ≠ b.slot s) : v.Wrote s ∨ v.Removed s.owner := by
  obtain ⟨l, rfl⟩ := hv
  cases hx : l.storage[s]? with
  | some x => exact .inl ⟨l, List.mem_cons_self, x, hx⟩
  | none =>
    refine .inr ⟨l, List.mem_cons_self, ?_⟩
    rw [View.slot_commit, hx, Option.getD_none] at hs
    by_cases hl : l.accounts[s.owner]? = some none
    · exact hl
    · rw [if_neg (by simpa [ofWorld] using hl)] at hs
      exact absurd rfl hs

end View

/-! ## Runs -/

section

variable {tx : Tx} {X : Address → Prop} {f g : Frame} {m : Message} {v : View} {a : Address}

theorem step_removesOnly {fl : Flow} (hX : ∀ a, f.Destroys tx a → X a)
    (h : step tx f = .ok fl g) : f.view.RemovesOnly X g.view := by
  cases step_effect h with
  | quiet hq | log _ _ _ _ hq =>
    rw [hq.view]
    exact .of_imp fun _ => id
  | store _ _ _ _ _ _ hq =>
    rw [hq.view]
    exact .of_imp fun _ ha => ha.of_setSlot
  | destroy _ _ hop _ _ hq =>
    rw [hq.view]
    intro a ha
    obtain ⟨rfl, -⟩ | ha := ha.of_setAccount
    · exact .inl (hX _ ⟨hop, ⟨_, _, h⟩, rfl⟩)
    · exact .inr ha.of_transfer

theorem Message.removed_of_calleeView (h : (m.calleeView v).Removed a) : v.Removed a := by
  unfold calleeView at h
  split at h
  · exact h.of_transfer.of_enter
  · exact h.of_enter

theorem Ended.removed_of_settle {e : Ended} (h : e.settle.frame.view.Removed a) :
    e.frame.view.Removed a := by
  match e.settle, e.settles, h with
  | _, .same _, h => exact h
  | _, .trapped _ _ _ hq, h => rwa [hq.view] at h
  | _, .deposited _ _ _ _ _ _ hq, h =>
    rw [hq.view] at h
    exact h.of_update

/-- The layers of a run remove accounts only that its frames remove. -/
theorem carried_removesOnly (tx : Tx) (X : Address → Prop) :
    Carried tx (fun f => ∀ a, f.Destroys tx a → X a) (View.RemovesOnly X) where
  refl _ := .of_imp fun _ => id
  trans := .trans
  step := step_removesOnly
  bumpNonce _ _ := .of_imp fun _ ha => ha.of_update
  callee m _ := .of_imp fun _ => m.removed_of_calleeView
  init _ := .of_imp fun _ ha => ha.of_transfer.of_update.of_enter.of_update
  settle _ h := h.trans (.of_imp fun _ => Ended.removed_of_settle)
  commit ho := .of_imp fun _ => .of_commit ho

/-- A static frame writes no slot. -/
theorem Frame.Stores.mutable {s : Slot} (h : f.Stores tx s) : f.message.isStatic = false := by
  obtain ⟨fl, g, hs⟩ := h.runs
  obtain ⟨-, -, hp⟩ := step_performs h.opcode hs
  obtain ⟨-, u, hw⟩ := proceed_inv hp
  exact (writeSlot_inv hw).1

end

/-! ## Transactions -/

theorem not_wrote_enter (w : World) (s : Slot) : ¬ (View.ofWorld w).enter.Wrote s := fun h => by
  obtain ⟨l, hl, -⟩ := h.of_enter
  cases hl

theorem not_removed_enter (w : World) (a : Address) : ¬ (View.ofWorld w).enter.Removed a :=
  fun h => by
    obtain ⟨l, hl, -⟩ := h.of_enter
    cases hl

/-- A transaction changes a slot only if a frame that works on the storage of its owner and is not
static wrote it, or the owner was removed; and that frame and all those around it succeeded. -/
theorem slot_changes_in_own_context (b : Block) (w : World) (m : Message) (s : Slot)
    (h : (transact b w m).world.slot s ≠ w.slot s) :
    let tx : Tx := ⟨b, m.caller⟩
    let v := (View.ofWorld w).enter
    (∃ f, m.charged.Retains tx v m.bill f ∧ f.message.isStatic = false ∧
      f.message.address = s.owner ∧ f.Stores tx s) ∨
    ∃ f, m.charged.Retains tx v m.bill f ∧ f.Destroys tx s.owner := by
  intro tx v
  have hover : (execute tx m.charged v m.bill).view.Over (.ofWorld w) :=
    execute_over tx m.charged v m.bill (View.over_enter _)
  change (View.ofWorld (transact b w m).world).slot s ≠ w.slot s at h
  obtain he | he := ofWorld_transact b w m <;> rw [he] at h
  · exact absurd rfl h
  obtain hw | hr := hover.slot_changed h
  · obtain ⟨f, hf, hs⟩ | hv := (carried_writesOnly tx
      fun s => ∃ f, m.charged.Retains tx v m.bill f ∧ f.Stores tx s).execute m.charged v m.bill
        (fun f hf s hs => ⟨f, hf, hs⟩) s hw
    · exact .inl ⟨f, hf, hs.mutable, hs.owner.symm, hs⟩
    · exact absurd hv (not_wrote_enter w s)
  · obtain hd | hv := (carried_removesOnly tx
      fun a => ∃ f, m.charged.Retains tx v m.bill f ∧ f.Destroys tx a).execute m.charged v m.bill
        (fun f hf a hd => ⟨f, hf, hd⟩) s.owner hr
    · exact .inr hd
    · exact absurd hv (not_removed_enter w s.owner)

/-! ## A slot that changes -/

/-- Code that writes five to the first slot. -/
def writerCode : ByteArray := Bytes.ofList [0x60, 0x05, 0x5f, 0x55]

/-- A contract whose first slot holds one. -/
def writer : World := (World.ofContract ⟨7, 0, 0⟩ .zero writerCode).setSlot ⟨⟨7, 0, 0⟩, .zero⟩ .one

/-- A call with too little gas for a removal. -/
def writerCall : Message := .plainCall .zero ⟨7, 0, 0⟩ .empty 25000 .zero

theorem writer_writes : (transact? 8 .standard writer writerCall).any
    (·.world.slot ⟨⟨7, 0, 0⟩, .zero⟩ == .ofNat 5) = true := by
  decide +kernel

/-- The slot changes, and it is the contract that wrote it. -/
theorem slot_changes_in_own_context_writer :
    let tx : Tx := ⟨.standard, .zero⟩
    let v := (View.ofWorld writer).enter
    let s : Slot := ⟨⟨7, 0, 0⟩, .zero⟩
    (transact .standard writer writerCall).world.slot s ≠ writer.slot s ∧
    ∃ f, writerCall.charged.Retains tx v writerCall.bill f ∧ f.message.isStatic = false ∧
      f.message.address = ⟨7, 0, 0⟩ ∧ f.Stores tx s := by
  intro tx v s
  obtain ⟨x, hrun, hx⟩ := (Option.any_eq_true _ _).1 writer_writes
  have hs : (transact .standard writer writerCall).world.slot s ≠ writer.slot s := by
    rw [transact_of_transact? hrun, eq_of_beq hx]
    decide +kernel
  refine ⟨hs, (slot_changes_in_own_context .standard writer writerCall s hs).resolve_right ?_⟩
  rintro ⟨f, hf, hd⟩
  exact absurd (Nat.le_trans hd.gas_le hf.visits.gas_le) (by decide)

end ParticleChain.Evm
