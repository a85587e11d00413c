import ParticleChain.Proofs.Evm.Layers

/-!
# Layers are snapshots

The plain meaning of nested layers: opening one copies the whole world, committing it puts the
copy in the place of the world below, dropping it throws the copy away (`Snapshots`). Layers hold
writes only, but are read like those copies (`layers_are_snapshots`): accounts always, slots as
long as no account is removed. For in a layer a removed account is a mark that takes no slots
along, and in a world it takes all of them.

`Mirrors R` relates a stack of layers to a stack of copies, level by level. It is kept by every
edit that `R` follows (`Mirrors.edit`).
-/

namespace ParticleChain.Evm

/-- What can be done to a view. -/
inductive Edit where
  | setAccount (a : Address) (x : Option Account)
  | setSlot (s : Slot) (x : Word)
  | enter
  | commit
  | drop

/-- Whether the edit removes an account. -/
def Edit.removes : Edit → Bool
  | setAccount _ none => true
  | _ => false

def View.edit (v : View) : Edit → View
  | .setAccount a x => v.setAccount a x
  | .setSlot s x => v.setSlot s x
  | .enter => v.enter
  | .commit => v.commit
  | .drop => v.drop

def View.edits (v : View) (es : List Edit) : View := es.foldl edit v

/-- The current world and the copies below it, the innermost first. -/
structure Snapshots where
  current : World
  outer : List World

namespace Snapshots

def ofWorld (w : World) : Snapshots := ⟨w, []⟩

/-- The snapshots below the current one; at the outermost level, the snapshots themselves. -/
def below (s : Snapshots) : Snapshots :=
  match s.outer with
  | [] => s
  | w :: r => ⟨w, r⟩

def edit (s : Snapshots) : Edit → Snapshots
  | .setAccount a x => { s with current := s.current.setAccount a x }
  | .setSlot t x => { s with current := s.current.setSlot t x }
  | .enter => ⟨s.current, s.current :: s.outer⟩
  | .commit => { s.below with current := s.current }
  | .drop => s.below

def edits (s : Snapshots) (es : List Edit) : Snapshots := es.foldl edit s

end Snapshots

/-! ## Level by level -/

/-- Each level of the view is related to the copy at its level. -/
inductive Mirrors (R : View → World → Prop) : View → Snapshots → Prop
  | ground {v : View} {w : World} (hl : v.layers = []) (h : R v w) : Mirrors R v ⟨w, []⟩
  | layer {u v : View} {w : World} {s : Snapshots} (ho : u.Over v) (h : R u w)
      (hv : Mirrors R v s) : Mirrors R u ⟨w, s.current :: s.outer⟩

/-- Edits with `P` keep the relation, if made to both sides. -/
structure Follows (R : View → World → Prop) (P : Edit → Prop) : Prop where
  setAccount {v : View} {w : World} (a : Address) (x : Option Account) (hp : P (.setAccount a x))
    (h : R v w) : R (v.setAccount a x) (w.setAccount a x)
  setSlot {v : View} {w : World} (s : Slot) (x : Word) (h : R v w) :
    R (v.setSlot s x) (w.setSlot s x)
  enter {v : View} {w : World} (h : R v w) : R v.enter w
  commit {u v : View} {w : World} (ho : u.Over v) (h : R u w) : R u.commit w

section

variable {R : View → World → Prop} {P : Edit → Prop} {u v : View} {s : Snapshots}

theorem Mirrors.current (h : Mirrors R v s) : R v s.current := by
  cases h with
  | ground _ h | layer _ h => exact h

/-- What writes to the innermost level, and relates it to a world, leaves the levels below. -/
theorem Mirrors.write (h : Mirrors R v s) {w : World} (hl : v.layers = [] → u.layers = [])
    (ho : ∀ v', v.Over v' → u.Over v') (hr : R u w) : Mirrors R u { s with current := w } := by
  cases h with
  | ground hv _ => exact .ground (hl hv) hr
  | layer hv _ hb => exact .layer (ho _ hv) hr hb

theorem View.layers_setAccount (h : v.layers = []) (a : Address) (x : Option Account) :
    (v.setAccount a x).layers = [] := by
  obtain ⟨layers, w⟩ := v
  cases h
  rfl

theorem View.layers_setSlot (h : v.layers = []) (s : Slot) (x : Word) :
    (v.setSlot s x).layers = [] := by
  obtain ⟨layers, w⟩ := v
  cases h
  rfl

theorem Mirrors.edit (hR : Follows R P) (h : Mirrors R v s) {e : Edit} (he : P e) :
    Mirrors R (v.edit e) (s.edit e) := by
  cases e with
  | setAccount a x =>
    exact h.write (fun hl => View.layers_setAccount hl a x) (fun _ ho => ho.setAccount a x)
      (hR.setAccount a x he h.current)
  | setSlot t x =>
    exact h.write (fun hl => View.layers_setSlot hl t x) (fun _ ho => ho.setSlot t x)
      (hR.setSlot t x h.current)
  | enter => exact .layer v.over_enter (hR.enter h.current) h
  | commit =>
    cases h with
    | ground hl h =>
      obtain ⟨layers, w⟩ := v
      cases hl
      exact .ground rfl h
    | layer ho h hb =>
      -- The committed layer goes to the level below, which it leaves in its place.
      exact hb.write (fun hl => ho.commit_layers hl) (fun _ hv => ho.commit hv) (hR.commit ho h)
  | drop =>
    cases h with
    | ground hl h =>
      obtain ⟨layers, w⟩ := v
      cases hl
      exact .ground rfl h
    | layer ho _ hb =>
      show Mirrors R v.drop _
      rw [ho.drop]
      exact hb

theorem Mirrors.edits (hR : Follows R P) (h : Mirrors R v s) {es : List Edit}
    (he : ∀ e ∈ es, P e) : Mirrors R (v.edits es) (s.edits es) := by
  induction es generalizing v s with
  | nil => exact h
  | cons e es ih =>
    exact ih (h.edit hR (he e List.mem_cons_self)) fun e' h' => he e' (List.mem_cons_of_mem _ h')

end

/-! ## Accounts -/

def View.SameAccounts (v : View) (w : World) : Prop := ∀ a, v.account? a = w.account? a

theorem follows_sameAccounts : Follows View.SameAccounts fun _ => True where
  setAccount a x _ h b := by rw [View.account?_setAccount, World.account?_setAccount, h]
  setSlot s x h b := by rw [View.account?_setSlot, World.account?_setSlot, h]
  enter h b := (View.account?_enter _ b).trans (h b)
  commit ho h b := (ho.account?_commit b).trans (h b)

/-! ## Slots -/

namespace View

/-- No layer marks an account as removed. -/
def Unmarked (v : View) : Prop :=
  ∀ l ∈ v.layers, ∀ a : Address, l.accounts[a]? ≠ some none

variable {u v : View}

theorem Unmarked.setAccount (h : v.Unmarked) (a : Address) {x : Option Account} (hx : x ≠ none) :
    (v.setAccount a x).Unmarked := by
  obtain ⟨layers, w⟩ := v
  cases layers with
  | nil => exact h
  | cons l r =>
    intro k hk b hb
    rcases List.mem_cons.1 hk with rfl | hk
    · rw [Std.TreeMap.getElem?_insert] at hb
      split at hb
      · exact hx (Option.some.inj hb)
      · exact h l List.mem_cons_self b hb
    · exact h k (List.mem_cons_of_mem _ hk) b hb

theorem Unmarked.setSlot (h : v.Unmarked) (s : Slot) (x : Word) : (v.setSlot s x).Unmarked := by
  obtain ⟨layers, w⟩ := v
  cases layers with
  | nil => exact h
  | cons l r =>
    intro k hk
    rcases List.mem_cons.1 hk with rfl | hk
    · exact h l List.mem_cons_self
    · exact h k (List.mem_cons_of_mem _ hk)

theorem Unmarked.enter (h : v.Unmarked) : v.enter.Unmarked := by
  intro k hk a
  rcases List.mem_cons.1 hk with rfl | hk
  · simp [Layer.empty]
  · exact h k hk a

theorem Unmarked.commit (ho : u.Over v) (h : u.Unmarked) : u.commit.Unmarked := by
  obtain ⟨l, rfl⟩ := ho
  have hl := h l List.mem_cons_self
  refine foldl_keeps (P := Unmarked) (fun v s x _ hv => hv.setSlot s x) ?_
  refine foldl_keeps (P := Unmarked) (fun v a x hx hv => hv.setAccount a ?_) ?_
  · rintro rfl
    exact hl a hx
  · exact fun k hk => h k (List.mem_cons_of_mem _ hk)

/-- A commit that removes no account changes no slot that is read. -/
theorem Unmarked.slot_commit (ho : u.Over v) (h : u.Unmarked) (s : Slot) :
    u.commit.slot s = u.slot s := by
  obtain ⟨l, rfl⟩ := ho
  have hl : (l.accounts[s.owner]? == some none) = false :=
    beq_eq_false_iff_ne.2 (h l List.mem_cons_self s.owner)
  rw [View.slot_commit, hl, Bool.and_false, if_neg Bool.false_ne_true]
  simp only [slot, slotIn]
  cases l.storage[s]? <;> rfl

/-- The slots are those of the world, and no layer marks an account as removed. -/
def SameSlots (v : View) (w : World) : Prop := (∀ s, v.slot s = w.slot s) ∧ v.Unmarked

end View

theorem follows_sameSlots : Follows View.SameSlots fun e => e.removes = false where
  setAccount a x hx h := by
    have hn : x ≠ none := by
      rintro rfl
      cases hx
    refine ⟨fun s => ?_, h.2.setAccount a hn⟩
    rw [View.slot_setAccount, World.slot_setAccount, if_neg fun hc => hn hc.2.1,
      if_neg fun hc => hn hc.1, h.1]
  setSlot s x h := by
    refine ⟨fun t => ?_, h.2.setSlot s x⟩
    rw [View.slot_setSlot, World.slot_setSlot, h.1]
  enter h := ⟨fun s => (View.slot_enter _ s).trans (h.1 s), h.2.enter⟩
  commit ho h := ⟨fun s => (h.2.slot_commit ho s).trans (h.1 s), h.2.commit ho⟩

/-! ## Zero slots -/

/-- No slot of the world is kept with a zero. -/
def World.Tidy (w : World) : Prop :=
  ∀ (s : Slot) (x : Word), w.storage[s]? = some x → x.isZero = false

namespace World.Tidy

theorem empty : World.empty.Tidy := by
  intro s x h
  simp [World.empty] at h

variable {w : World}

theorem setAccount (h : w.Tidy) (a : Address) (x : Option Account) : (w.setAccount a x).Tidy := by
  cases x with
  | some x => exact h
  | none =>
    intro s y hy
    simp only [World.setAccount, Std.TreeMap.getElem?_filter', Option.filter_eq_some_iff] at hy
    exact h s y hy.1

theorem setSlot (h : w.Tidy) (s : Slot) (x : Word) : (w.setSlot s x).Tidy := by
  intro t y hy
  unfold World.setSlot at hy
  split at hy
  · rw [Std.TreeMap.getElem?_erase] at hy
    split at hy
    · cases hy
    · exact h t y hy
  · rename_i hx
    rw [Std.TreeMap.getElem?_insert] at hy
    split at hy
    · cases hy
      exact Bool.eq_false_iff.2 hx
    · exact h t y hy

end World.Tidy

namespace View

variable {v : View}

theorem tidy_setAccount (h : v.base.Tidy) (a : Address) (x : Option Account) :
    (v.setAccount a x).base.Tidy := by
  obtain ⟨layers, w⟩ := v
  cases layers with
  | nil => exact World.Tidy.setAccount h a x
  | cons => exact h

theorem tidy_setSlot (h : v.base.Tidy) (s : Slot) (x : Word) : (v.setSlot s x).base.Tidy := by
  obtain ⟨layers, w⟩ := v
  cases layers with
  | nil => exact World.Tidy.setSlot h s x
  | cons => exact h

theorem tidy_commit (h : v.base.Tidy) : v.commit.base.Tidy := by
  obtain ⟨layers, w⟩ := v
  cases layers with
  | nil => exact h
  | cons l r =>
    have ho : View.Over ⟨l :: r, w⟩ ⟨r, w⟩ := ⟨l, rfl⟩
    exact ho.commit_keeps (P := fun v => v.base.Tidy) (fun _ a x hv => tidy_setAccount hv a x)
      (fun _ s x hv => tidy_setSlot hv s x) h

theorem tidy_edits (h : v.base.Tidy) (es : List Edit) : (v.edits es).base.Tidy := by
  induction es generalizing v with
  | nil => exact h
  | cons e es ih =>
    refine ih (v := v.edit e) ?_
    cases e with
    | setAccount a x => exact tidy_setAccount h a x
    | setSlot s x => exact tidy_setSlot h s x
    | commit => exact tidy_commit h
    | enter | drop => exact h

end View

/-- After any edits, the accounts of a view are those of the snapshots, and so are the slots if
no account was removed. The empty world keeps no zero slot, and edits never leave one in a world
that keeps none. -/
theorem layers_are_snapshots (w : World) (es : List Edit) :
    let v := (View.ofWorld w).edits es
    let s := (Snapshots.ofWorld w).edits es
    (∀ a, v.account? a = s.current.account? a) ∧
    ((∀ e ∈ es, e.removes = false) → ∀ t, v.slot t = s.current.slot t) ∧
    World.empty.Tidy ∧ (w.Tidy → v.base.Tidy) := by
  refine ⟨?accounts, ?slots, World.Tidy.empty, fun hw => View.tidy_edits hw es⟩
  case accounts =>
    have h : Mirrors View.SameAccounts (.ofWorld w) (.ofWorld w) := .ground rfl fun _ => rfl
    exact (h.edits follows_sameAccounts fun _ _ => trivial).current
  case slots =>
    intro he
    have h : Mirrors View.SameSlots (.ofWorld w) (.ofWorld w) :=
      .ground rfl ⟨fun _ => rfl, fun l hl => nomatch hl⟩
    exact (h.edits follows_sameSlots he).current.1

/-- A zero is written over a slot in a layer in a layer, and the inner layer is committed. -/
def overwrite : List Edit :=
  [.setSlot ⟨.zero, .zero⟩ .one, .enter, .setSlot ⟨.zero, .one⟩ .one, .enter,
    .setSlot ⟨.zero, .zero⟩ .zero, .commit]

theorem layers_are_snapshots_overwrite :
    (∀ e ∈ overwrite, e.removes = false) ∧
    ((View.ofWorld .empty).edits overwrite).slot ⟨.zero, .zero⟩ = .zero ∧
    ((View.ofWorld .empty).edits overwrite).slot ⟨.zero, .one⟩ = .one ∧
    ((View.ofWorld .empty).edits (overwrite ++ [.commit])).base.Tidy := by
  have he : ∀ e ∈ overwrite, e.removes = false := by decide
  obtain ⟨-, hs, ht, -⟩ := layers_are_snapshots .empty overwrite
  obtain ⟨-, -, -, hc⟩ := layers_are_snapshots .empty (overwrite ++ [.commit])
  exact ⟨he, (hs he _).trans rfl, (hs he _).trans rfl, hc ht⟩

end ParticleChain.Evm
