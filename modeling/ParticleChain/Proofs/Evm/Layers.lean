import ParticleChain.Evm.View

/-!
# Reading through layers

What a read gives after each kind of write, and after a layer is committed. `w.Over v` says
that `w` is `v` under one more layer: writes keep it, dropping the layer gives `v` back, and
committing it writes to `v` alone.

An account reads the same before and after a commit (`account?_commit`). A slot does too,
unless its account is removed from the world by the commit (`slot_commit`).
-/

namespace ParticleChain.Evm

/-! ## Folding over a map -/

section Fold

variable {σ ρ α β : Type} [Ord α] [Std.TransOrd α] [Std.LawfulEqOrd α]

/-- A fold whose step at `k` acts on what is read, and at any other key leaves it alone, acts
on what is read just once, with the value of `k`. -/
theorem foldl_read (read : σ → ρ) {m : Std.TreeMap α β} {f : σ → α → β → σ} {k : α}
    {g : β → ρ → ρ} (hit : ∀ s x, read (f s k x) = g x (read s))
    (miss : ∀ s j x, j ≠ k → read (f s j x) = read s) (s : σ) :
    read (m.foldl f s) = m[k]?.elim (read s) (g · (read s)) := by
  have other : ∀ (l : List (α × β)) (s : σ), (∀ p ∈ l, p.1 ≠ k) →
      read (l.foldl (fun s p => f s p.1 p.2) s) = read s := by
    intro l
    induction l with
    | nil => intro s _; rfl
    | cons p l ih =>
      intro s h
      rw [List.foldl_cons, ih _ fun q hq => h q (List.mem_cons_of_mem _ hq)]
      exact miss s p.1 p.2 (h p List.mem_cons_self)
  rw [Std.TreeMap.foldl_eq_foldl_toList]
  cases hk : m[k]? with
  | none =>
    refine other _ s fun p hp e => ?_
    rw [← e, Std.TreeMap.mem_toList_iff_getElem?_eq_some.1 hp] at hk
    cases hk
  | some x =>
    obtain ⟨l₁, l₂, hl⟩ := List.append_of_mem (Std.TreeMap.mem_toList_iff_getElem?_eq_some.2 hk)
    have hd := Std.TreeMap.distinct_keys_toList (t := m)
    simp only [hl, List.pairwise_append, List.pairwise_cons, Std.compare_eq_iff_eq] at hd
    obtain ⟨-, ⟨hr, -⟩, hx⟩ := hd
    rw [hl, List.foldl_append, List.foldl_cons, other l₂ _ fun p hp e => hr p hp e.symm, hit,
      other l₁ s fun p hp e => hx p hp _ List.mem_cons_self e]
    rfl

/-- What the steps of a fold keep, the fold keeps. -/
theorem foldl_keeps {m : Std.TreeMap α β} {f : σ → α → β → σ} {P : σ → Prop}
    (h : ∀ s k x, m[k]? = some x → P s → P (f s k x)) {s : σ} (hs : P s) : P (m.foldl f s) := by
  rw [Std.TreeMap.foldl_eq_foldl_toList]
  refine List.foldlRecOn _ _ hs fun s hs p hp => ?_
  exact h s p.1 p.2 (Std.TreeMap.mem_toList_iff_getElem?_eq_some.1 hp) hs

end Fold

/-! ## Worlds -/

namespace World

variable (w : World)

theorem account?_setAccount (a b : Address) (x : Option Account) :
    (w.setAccount a x).account? b = if b = a then x else w.account? b := by
  cases x <;>
    simp only [setAccount, account?, Std.TreeMap.getElem?_insert, Std.TreeMap.getElem?_erase,
      Std.compare_eq_iff_eq, eq_comm (a := b)]

theorem account?_setSlot (s : Slot) (x : Word) (a : Address) :
    (w.setSlot s x).account? a = w.account? a := by
  unfold setSlot
  split <;> rfl

theorem slot_setAccount (a : Address) (x : Option Account) (s : Slot) :
    (w.setAccount a x).slot s = if x = none ∧ s.owner = a then .zero else w.slot s := by
  cases x with
  | some x => rfl
  | none =>
    simp only [setAccount, slot, Std.TreeMap.getElem?_filter']
    by_cases h : s.owner = a <;> cases w.storage[s]? <;> simp [h, Option.filter]

theorem slot_setSlot (s t : Slot) (x : Word) :
    (w.setSlot s x).slot t = if t = s then x else w.slot t := by
  unfold setSlot slot
  split
  · rename_i hx
    simp only [Std.TreeMap.getElem?_erase, Std.compare_eq_iff_eq, eq_comm (a := t)]
    by_cases h : s = t <;> simp [h, (Word.isZero_iff.1 hx)]
  · simp only [Std.TreeMap.getElem?_insert, Std.compare_eq_iff_eq, eq_comm (a := t)]
    by_cases h : s = t <;> simp [h]

end World

namespace View

variable (v : View)

/-! ## Reading after a write -/

theorem account?_setAccount (a b : Address) (x : Option Account) :
    (v.setAccount a x).account? b = if b = a then x else v.account? b := by
  obtain ⟨layers, w⟩ := v
  cases layers with
  | nil => exact w.account?_setAccount a b x
  | cons l r =>
    simp only [setAccount, account?, accountIn, Std.TreeMap.getElem?_insert,
      Std.compare_eq_iff_eq, eq_comm (a := b)]
    by_cases h : a = b <;> simp [h]

theorem account?_setSlot (s : Slot) (x : Word) (a : Address) :
    (v.setSlot s x).account? a = v.account? a := by
  obtain ⟨layers, w⟩ := v
  cases layers with
  | nil => exact w.account?_setSlot s x a
  | cons l r => rfl

/-- Only a removal from the world itself takes slots along. -/
theorem slot_setAccount (a : Address) (x : Option Account) (s : Slot) :
    (v.setAccount a x).slot s =
      if v.layers = [] ∧ x = none ∧ s.owner = a then .zero else v.slot s := by
  obtain ⟨layers, w⟩ := v
  cases layers with
  | nil =>
    simp only [true_and]
    exact w.slot_setAccount a x s
  | cons l r => simp [setAccount, slot, slotIn]

theorem slot_setAccount_some (a : Address) (x : Account) (s : Slot) :
    (v.setAccount a (some x)).slot s = v.slot s := by
  rw [slot_setAccount, if_neg fun h => nomatch h.2.1]

theorem slot_transfer (a b : Address) (n : Word) (s : Slot) :
    (v.transfer a b n).slot s = v.slot s := by
  unfold transfer
  split
  · rfl
  · exact (slot_setAccount_some _ _ _ s).trans (slot_setAccount_some _ _ _ s)

theorem slot_setSlot (s t : Slot) (x : Word) :
    (v.setSlot s x).slot t = if t = s then x else v.slot t := by
  obtain ⟨layers, w⟩ := v
  cases layers with
  | nil => exact w.slot_setSlot s t x
  | cons l r =>
    simp only [setSlot, slot, slotIn, Std.TreeMap.getElem?_insert, Std.compare_eq_iff_eq,
      eq_comm (a := t)]
    by_cases h : s = t <;> simp [h]

theorem account_setAccount (a b : Address) (x : Option Account) :
    (v.setAccount a x).account b = if b = a then x.getD .fresh else v.account b := by
  unfold account
  rw [account?_setAccount]
  split <;> rfl

theorem balance_setAccount (a b : Address) (x : Option Account) :
    (v.setAccount a x).balance b = if b = a then (x.getD .fresh).balance else v.balance b := by
  unfold balance
  rw [account_setAccount]
  split <;> rfl

theorem account?_enter (a : Address) : v.enter.account? a = v.account? a := by
  simp [enter, account?, accountIn, Layer.empty]

theorem slot_enter (s : Slot) : v.enter.slot s = v.slot s := by
  simp [enter, slot, slotIn, Layer.empty]

theorem account_enter (a : Address) : v.enter.account a = v.account a := by
  unfold account
  rw [account?_enter]

theorem balance_enter (a : Address) : v.enter.balance a = v.balance a := by
  unfold balance
  rw [account_enter]

/-- What a transfer makes of the accounts depends on what can be read of them only. -/
theorem account?_transfer_congr {w : View} (h : ∀ a, w.account? a = v.account? a)
    (a b : Address) (n : Word) (c : Address) :
    (w.transfer a b n).account? c = (v.transfer a b n).account? c := by
  unfold transfer
  split
  · exact h c
  · simp only [account?_setAccount, account, h]

/-- Whether two views read the same everywhere. -/
def Same (v w : View) : Prop := (∀ a, w.account? a = v.account? a) ∧ ∀ s, w.slot s = v.slot s

variable {v} {u w : View}

theorem Same.refl (v : View) : v.Same v := ⟨fun _ => rfl, fun _ => rfl⟩

theorem Same.trans (h : u.Same v) (h' : v.Same w) : u.Same w :=
  ⟨fun a => (h'.1 a).trans (h.1 a), fun s => (h'.2 s).trans (h.2 s)⟩

theorem Same.account (h : v.Same w) (a : Address) : w.account a = v.account a := by
  unfold View.account
  rw [h.1]

/-! ## One layer more -/

/-- `w` is `v` under one more layer. -/
def Over (w v : View) : Prop := ∃ l, w = ⟨l :: v.layers, v.base⟩

theorem over_enter (v : View) : v.enter.Over v := ⟨_, rfl⟩

theorem Over.setAccount (h : w.Over v) (a : Address) (x : Option Account) :
    (w.setAccount a x).Over v := by
  obtain ⟨l, rfl⟩ := h
  exact ⟨_, rfl⟩

theorem Over.setSlot (h : w.Over v) (s : Slot) (x : Word) : (w.setSlot s x).Over v := by
  obtain ⟨l, rfl⟩ := h
  exact ⟨_, rfl⟩

theorem Over.transfer (h : w.Over v) (a b : Address) (x : Word) : (w.transfer a b x).Over v := by
  unfold View.transfer
  split
  · exact h
  · exact (h.setAccount _ _).setAccount _ _

theorem Over.drop (h : w.Over v) : w.drop = v := by
  obtain ⟨l, rfl⟩ := h
  rfl

/-- Committing a layer is a series of writes to the view below. -/
theorem Over.commit_keeps {P : View → Prop} (h : w.Over v)
    (account : ∀ v a x, P v → P (v.setAccount a x)) (slot : ∀ v s x, P v → P (v.setSlot s x))
    (hv : P v) : P w.commit := by
  obtain ⟨l, rfl⟩ := h
  exact foldl_keeps (fun v s x _ => slot v s x) (foldl_keeps (fun v a x _ => account v a x) hv)

theorem Over.commit (h : w.Over v) (hv : v.Over u) : w.commit.Over u :=
  h.commit_keeps (P := (·.Over u)) (fun _ a x hv => hv.setAccount a x)
    (fun _ s x hv => hv.setSlot s x) hv

/-- A commit to the world leaves no layer. -/
theorem Over.commit_layers (h : w.Over v) (hv : v.layers = []) : w.commit.layers = [] := by
  refine h.commit_keeps (P := fun v => v.layers = []) ?_ ?_ hv
  all_goals
    intro v _ _ hv
    obtain ⟨layers, base⟩ := v
    cases hv
    rfl

theorem Over.ofWorld_commit_base {b : World} (h : w.Over (.ofWorld b)) :
    ofWorld w.commit.base = w.commit := by
  have hl : w.commit.layers = [] := h.commit_layers rfl
  rw [ofWorld, ← hl]

/-! ## Reading after a commit -/

theorem account?_write (v : View) (l : Layer) (a : Address) :
    (v.write l).account? a = l.accounts[a]?.getD (v.account? a) := by
  have slots : ∀ w : View, (l.storage.foldl (fun v s x => v.setSlot s x) w).account? a =
      w.account? a := fun w =>
    foldl_keeps (P := fun v : View => v.account? a = w.account? a)
      (fun v s x _ h => (v.account?_setSlot s x a).trans h) rfl
  refine (slots _).trans ?_
  rw [foldl_read (fun v : View => v.account? a) (k := a) (g := fun x _ => x)]
  · cases l.accounts[a]? <;> rfl
  · intro w x
    rw [account?_setAccount, if_pos rfl]
  · intro w b x hb
    rw [account?_setAccount, if_neg (Ne.symm hb)]

theorem isEmpty_layers_setAccount (v : View) (a : Address) (x : Option Account) :
    (v.setAccount a x).layers.isEmpty = v.layers.isEmpty := by
  obtain ⟨layers, w⟩ := v
  cases layers <;> rfl

theorem slot_write (v : View) (l : Layer) (s : Slot) :
    (v.write l).slot s = l.storage[s]?.getD
      (if v.layers.isEmpty && l.accounts[s.owner]? == some none then .zero else v.slot s) := by
  have accounts := foldl_read (fun v : View => (v.layers.isEmpty, v.slot s)) (m := l.accounts)
    (f := fun v a x => v.setAccount a x) (k := s.owner)
    (g := fun x p => (p.1, if p.1 && x.isNone then .zero else p.2)) ?_ ?_ v
  · unfold write
    rw [foldl_read (fun v : View => v.slot s) (k := s) (g := fun x _ => x)]
    · have := congrArg Prod.snd accounts
      dsimp only at this ⊢
      rw [this]
      cases l.storage[s]? with
      | some x => rfl
      | none => rcases l.accounts[s.owner]? with _ | _ | x <;> simp
    · intro w x
      rw [slot_setSlot, if_pos rfl]
    · intro w t x ht
      rw [slot_setSlot, if_neg (Ne.symm ht)]
  · intro w x
    rw [isEmpty_layers_setAccount, slot_setAccount]
    cases x <;> simp
  · intro w a x ha
    rw [isEmpty_layers_setAccount, slot_setAccount, if_neg fun h => ha h.2.2.symm]

/-- An account reads the same before and after a commit. -/
theorem Over.account?_commit (h : w.Over v) (a : Address) : w.commit.account? a = w.account? a := by
  obtain ⟨l, rfl⟩ := h
  refine (account?_write _ l a).trans ?_
  simp only [View.account?, accountIn]
  cases l.accounts[a]? <;> rfl

theorem Over.account_commit (h : w.Over v) (a : Address) : w.commit.account a = w.account a := by
  unfold View.account
  rw [h.account?_commit]

theorem Over.balance_commit (h : w.Over v) (a : Address) : w.commit.balance a = w.balance a := by
  unfold View.balance
  rw [h.account_commit]

/-- A slot reads the same before and after a commit, unless the commit removes its account
from the world. -/
theorem slot_commit (l : Layer) (v : View) (s : Slot) :
    (commit ⟨l :: v.layers, v.base⟩).slot s = l.storage[s]?.getD
      (if v.layers.isEmpty && l.accounts[s.owner]? == some none then .zero else v.slot s) :=
  slot_write v l s

/-- What a commit leaves in a slot is what was read there, or zero. -/
theorem Over.slot_commit (h : w.Over v) (s : Slot) :
    w.commit.slot s = w.slot s ∨ w.commit.slot s = .zero := by
  obtain ⟨l, rfl⟩ := h
  rw [View.slot_commit]
  simp only [slot, slotIn]
  cases l.storage[s]? with
  | some x => exact .inl rfl
  | none =>
    rw [Option.getD_none]
    split
    · exact .inr rfl
    · exact .inl rfl

end View

end ParticleChain.Evm
