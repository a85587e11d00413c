import ParticleChain.Proofs.Evm.Anchors
import ParticleChain.Proofs.Evm.Conservation

/-!
# What a removed account leaves behind

A transaction that removes an account takes along the slots that the world had for it, but not
those that it wrote itself: its layer is written to the world accounts first, slots second. So an
address may be left with slots and without an account, but only if it was both written to and
removed in the transaction (`leftover_slot_was_written`), and that does happen
(`removal_leaves_written_slot`).
-/

namespace ParticleChain.Evm

/-! ## Slots written in layers -/

namespace View

variable {W : Slot → Prop} {u v w : View} {s : Slot}

/-- Some layer holds a write of the slot. -/
def Wrote (v : View) (s : Slot) : Prop := ∃ l ∈ v.layers, ∃ x, l.storage[s]? = some x

theorem Wrote.of_setAccount {a : Address} {x : Option Account} (h : (v.setAccount a x).Wrote s) :
    v.Wrote s := by
  obtain ⟨layers, b⟩ := v
  cases layers with
  | nil => exact h
  | cons l r =>
    obtain ⟨k, hk, hx⟩ := h
    rcases List.mem_cons.1 hk with rfl | hk
    · exact ⟨l, List.mem_cons_self, hx⟩
    · exact ⟨k, List.mem_cons_of_mem _ hk, hx⟩

theorem Wrote.of_setSlot {t : Slot} {x : Word} (h : (v.setSlot t x).Wrote s) :
    s = t ∨ v.Wrote s := by
  obtain ⟨layers, b⟩ := v
  cases layers with
  | nil =>
    obtain ⟨k, hk, -⟩ := h
    cases hk
  | cons l r =>
    obtain ⟨k, hk, y, hy⟩ := h
    rcases List.mem_cons.1 hk with rfl | hk
    · rw [Std.TreeMap.getElem?_insert] at hy
      split at hy
      · rename_i he
        exact .inl (Std.LawfulEqOrd.eq_of_compare he).symm
      · exact .inr ⟨l, List.mem_cons_self, y, hy⟩
    · exact .inr ⟨k, List.mem_cons_of_mem _ hk, y, hy⟩

theorem Wrote.of_enter (h : v.enter.Wrote s) : v.Wrote s := by
  obtain ⟨k, hk, x, hx⟩ := h
  rcases List.mem_cons.1 hk with rfl | hk
  · simp [Layer.empty] at hx
  · exact ⟨k, hk, x, hx⟩

theorem Wrote.of_commit (ho : w.Over v) (h : w.commit.Wrote s) : w.Wrote s := by
  obtain ⟨l, rfl⟩ := ho
  revert h
  refine foldl_keeps (P := fun u : View => u.Wrote s → Wrote ⟨l :: v.layers, v.base⟩ s)
    (fun u t x ht ih h => ?_)
    (foldl_keeps (P := fun u : View => u.Wrote s → Wrote ⟨l :: v.layers, v.base⟩ s)
      (fun _ _ _ _ ih h => ih h.of_setAccount) ?_)
  · obtain rfl | h := h.of_setSlot
    · exact ⟨l, List.mem_cons_self, x, ht⟩
    · exact ih h
  · rintro ⟨k, hk, hx⟩
    exact ⟨k, List.mem_cons_of_mem _ hk, hx⟩

theorem Wrote.of_transfer {a b : Address} {n : Word} (h : (v.transfer a b n).Wrote s) :
    v.Wrote s := by
  unfold transfer at h
  split at h
  · exact h
  · exact h.of_setAccount.of_setAccount

/-- The layers of `w` hold writes of slots with `W` only, besides those in the layers of `v`. -/
def WritesOnly (W : Slot → Prop) (v w : View) : Prop := ∀ s, w.Wrote s → W s ∨ v.Wrote s

theorem WritesOnly.of_imp (h : ∀ s, w.Wrote s → v.Wrote s) : v.WritesOnly W w :=
  fun s hs => .inr (h s hs)

theorem WritesOnly.trans (h : u.WritesOnly W v) (h' : v.WritesOnly W w) : u.WritesOnly W w :=
  fun s hs => (h' s hs).elim .inl (h s)

end View

/-! ## Runs -/

/-- The frame writes the slot. -/
structure Frame.Stores (tx : Tx) (f : Frame) (s : Slot) : Prop where
  opcode : f.opcode? = some .sstore
  runs : ∃ fl g, step tx f = .ok fl g
  owner : s.owner = f.message.address
  key : ∃ (ws : Array Word) (value : Word), f.stack.words = (ws.push value).push s.key

section

variable {tx : Tx} {W : Slot → Prop} {f g : Frame} {m : Message} {v : View} {p : Profile}

theorem step_writesOnly {fl : Flow} (hW : ∀ s, f.Stores tx s → W s) (h : step tx f = .ok fl g) :
    f.view.WritesOnly W g.view := by
  cases step_effect h with
  | quiet hq | log _ _ _ _ hq =>
    rw [hq.view]
    exact .of_imp fun _ => id
  | store ws key value hop _ hw hq =>
    rw [hq.view]
    intro s hs
    refine hs.of_setSlot.imp_left ?_
    rintro rfl
    exact hW _ ⟨hop, ⟨_, _, h⟩, rfl, ws, value, hw⟩
  | destroy _ _ _ _ _ hq =>
    rw [hq.view]
    exact .of_imp fun _ hs => hs.of_setAccount.of_transfer

theorem Message.wrote_of_calleeView {s : Slot} (h : (m.calleeView v).Wrote s) : v.Wrote s := by
  unfold calleeView at h
  split at h
  · exact h.of_transfer.of_enter
  · exact h.of_enter

theorem Ended.wrote_of_settle {e : Ended} {s : Slot} (h : e.settle.frame.view.Wrote s) :
    e.frame.view.Wrote s := by
  match e.settle, e.settles, h with
  | _, .same _, h => exact h
  | _, .trapped _ _ _ hq, h => rwa [hq.view] at h
  | _, .deposited _ _ _ _ _ _ hq, h =>
    rw [hq.view] at h
    exact h.of_setAccount

/-- The layers of a run hold writes of slots only that its frames write. -/
theorem carried_writesOnly (tx : Tx) (W : Slot → Prop) :
    Carried tx (fun f => ∀ s, f.Stores tx s → W s) (View.WritesOnly W) where
  refl _ := .of_imp fun _ => id
  trans := .trans
  step := step_writesOnly
  bumpNonce _ _ := .of_imp fun _ hs => hs.of_setAccount
  callee m _ := .of_imp fun _ => m.wrote_of_calleeView
  init _ := .of_imp fun _ hs => hs.of_transfer.of_setAccount.of_enter.of_setAccount
  settle _ h := h.trans (.of_imp fun _ => Ended.wrote_of_settle)
  commit ho := .of_imp fun _ => .of_commit ho

end

/-! ## Transactions -/

/-- Every slot that is not zero belongs to an account. -/
def World.Owned (w : World) : Prop := ∀ s, w.slot s ≠ .zero → w.account? s.owner ≠ none

theorem World.Owned.anchored {w : World} (hw : w.Owned) : w.Anchored fun _ => True := by
  intro s hs
  cases hx : w.account? s.owner with
  | none => exact absurd hx (hw s hs)
  | some x => exact ⟨x, rfl, trivial⟩

/-- A commit to an owned world leaves a slot without an account only if the layer holds it. -/
theorem View.Over.wrote {w : World} {v : View} (hv : v.Over (.ofWorld w)) (hw : w.Owned)
    {s : Slot} (hs : v.commit.slot s ≠ .zero) (ha : v.commit.account? s.owner = none) :
    v.Wrote s := by
  obtain ⟨l, rfl⟩ := hv
  cases hx : l.storage[s]? with
  | some x => exact ⟨l, List.mem_cons_self, x, hx⟩
  | none =>
    rw [View.slot_commit, hx, Option.getD_none] at hs
    rw [show View.commit _ = View.write _ l from rfl, View.account?_write] at ha
    rcases hl : l.accounts[s.owner]? with _ | _ | y <;> rw [hl] at hs ha
    · exact absurd ha (hw s hs)
    · exact absurd rfl hs
    · cases ha

/-- The view that a transaction leaves is the one it found, or what its message commits. -/
theorem ofWorld_transact (b : Block) (w : World) (m : Message) :
    View.ofWorld (transact b w m).world = .ofWorld w ∨
    View.ofWorld (transact b w m).world =
      (execute ⟨b, m.caller⟩ m.charged (View.ofWorld w).enter m.bill).view.commit := by
  obtain h | h := transact_world b w m
  · exact .inl (congrArg View.ofWorld h)
  · refine .inr ((congrArg View.ofWorld h).trans (View.Over.ofWorld_commit_base (b := w) ?_))
    exact execute_over _ _ _ _ (View.over_enter _)

/-- In a world where every slot belongs to an account, a transaction leaves a slot without one only
if it wrote the slot and removed the account, or if its own message runs foreign code at an
address without account. -/
theorem leftover_slot_was_written (b : Block) (w : World) (m : Message) (hw : w.Owned) (s : Slot)
    (hs : (transact b w m).world.slot s ≠ .zero)
    (ha : (transact b w m).world.account? s.owner = none) :
    let tx : Tx := ⟨b, m.caller⟩
    let v := (View.ofWorld w).enter
    (∃ f, m.charged.Visits tx v m.bill f ∧ f.Stores tx s) ∧
    ((∃ f, m.charged.Visits tx v m.bill f ∧ f.Destroys tx s.owner) ∨
      m.Squats (fun _ => True) w s.owner) := by
  intro tx v
  have hover : (execute tx m.charged v m.bill).view.Over (.ofWorld w) :=
    execute_over tx m.charged v m.bill (View.over_enter _)
  change (View.ofWorld (transact b w m).world).slot s ≠ .zero at hs
  change (View.ofWorld (transact b w m).world).account? s.owner = none at ha
  obtain he | he := ofWorld_transact b w m <;> rw [he] at hs ha
  · exact absurd ha (hw s hs)
  constructor
  · have hwrote := hover.wrote hw hs ha
    obtain hf | ⟨l, hl, x, hx⟩ := (carried_writesOnly tx
      fun s => ∃ f, m.charged.Visits tx v m.bill f ∧ f.Stores tx s).execute m.charged v m.bill
        (fun f hf s hs => ⟨f, hf.visits, hs⟩) s hwrote
    · exact hf
    · obtain rfl := List.mem_singleton.1 hl
      simp [Layer.empty] at hx
  · have hanchored : (execute tx m.charged v m.bill).view.Anchored (fun _ => True) fun a =>
        (∃ f, m.charged.Visits tx v m.bill f ∧ f.Destroys tx a) ∨
          m.Squats (fun _ => True) w a :=
      execute_anchored Account.abiding_true hw.anchored.enter
        ((m.charged.grounded_ofWorld w).mono fun _ => .inr) fun f hf a hd => .inl ⟨f, hf, hd⟩
    have hslot : (execute tx m.charged v m.bill).view.slot s ≠ .zero := by
      obtain hsame | hz := hover.slot_commit s
      · rwa [hsame] at hs
      · exact absurd hz hs
    obtain hX | ⟨x, hx, -⟩ := hanchored s hslot
    · exact hX
    · rw [hover.account?_commit, hx] at ha
      cases ha

/-! ## A leftover slot -/

/-- Code that writes five to the first slot and then removes its account. -/
def quitterCode : ByteArray := Bytes.ofList [0x60, 0x05, 0x5f, 0x55, 0x5f, 0xff]

def quitter : World := .ofContract ⟨7, 0, 0⟩ .zero quitterCode

def quitterCall : Message := .plainCall .zero ⟨7, 0, 0⟩ .empty 100000 .zero

theorem owned_quitter : quitter.Owned := fun _ hs => absurd rfl hs

theorem transact_quitter :
    (transact .standard quitter quitterCall).world.slot ⟨⟨7, 0, 0⟩, .zero⟩ = .ofNat 5 ∧
    (transact .standard quitter quitterCall).world.account? ⟨7, 0, 0⟩ = none := by
  have hc : quitterCall.charged.enter (View.ofWorld quitter).enter quitterCall.bill =
      .running (.start quitterCall.charged quitterCode
        (quitterCall.charged.calleeView (View.ofWorld quitter).enter) quitterCall.bill) := rfl
  have hr : Frame.run ⟨.standard, quitterCall.caller⟩ (.start quitterCall.charged quitterCode
      (quitterCall.charged.calleeView (View.ofWorld quitter).enter) quitterCall.bill) = _ :=
    (Frame.run_next rfl).trans <| (Frame.run_next rfl).trans <| (Frame.run_next rfl).trans <|
      (Frame.run_next rfl).trans (Frame.run_halt rfl)
  have hx := (execute_running hc).trans (congrArg Ended.close hr)
  rw [transact_world_of_success (by decide) (by rw [hx]; rfl), hx]
  exact ⟨rfl, rfl⟩

/-- A transaction that writes to a slot of an account and then removes it leaves the slot. -/
theorem removal_leaves_written_slot :
    ¬ ∀ (b : Block) (w : World) (m : Message), w.Owned → (transact b w m).world.Owned := by
  intro h
  obtain ⟨hs, ha⟩ := transact_quitter
  exact h .standard quitter quitterCall owned_quitter ⟨⟨7, 0, 0⟩, .zero⟩
    (by rw [hs]; decide) ha

theorem leftover_slot_was_written_quitter :
    let s : Slot := ⟨⟨7, 0, 0⟩, .zero⟩
    quitter.Owned ∧ (transact .standard quitter quitterCall).world.slot s ≠ .zero ∧
    (transact .standard quitter quitterCall).world.account? s.owner = none ∧
    (∃ f, quitterCall.charged.Visits ⟨.standard, .zero⟩ (View.ofWorld quitter).enter
      quitterCall.bill f ∧ f.Stores ⟨.standard, .zero⟩ s) ∧
    ∃ f, quitterCall.charged.Visits ⟨.standard, .zero⟩ (View.ofWorld quitter).enter
      quitterCall.bill f ∧ f.Destroys ⟨.standard, .zero⟩ ⟨7, 0, 0⟩ := by
  intro s
  have hs : (transact .standard quitter quitterCall).world.slot s ≠ .zero := by
    rw [transact_quitter.1]
    decide
  have ha := transact_quitter.2
  obtain ⟨hw, hd⟩ := leftover_slot_was_written .standard quitter quitterCall owned_quitter s hs ha
  exact ⟨owned_quitter, hs, ha, hw, hd.resolve_right fun h => h.2.1 rfl⟩

end ParticleChain.Evm
