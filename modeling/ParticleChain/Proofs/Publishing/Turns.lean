import ParticleChain.Proofs.Publishing.Failures
import ParticleChain.Publishing.Turns

/-!
# Records of one name are published in turn

Whoever has a mutex for the name has the one in the table, and the mutex there knows how many have
it and whether it is held (`Guarded`); so two deployments never go through the stages at the same
time, and the entry goes with the last one that needed it. What a deployment still has to do
(`Turn.rest`) is not changed by a step of it, and the steps of the other one do not come between:
so both come to what they come to one after the other (`inTurn`).
-/

namespace ParticleChain.Publishing

open Artifact (Kind Record)

variable {α : Type} {k : Kind} {u : Setup} {r r₁ r₂ : Record k} {owner : Address} {s s' : Site}

/-! ## What is left to do -/

/-- Work that is over: the answer is known, and the site stays as it is. -/
def settled (answer : Except Error α) : Work Error α := fun s =>
  match answer with
  | .ok a => .ok a s
  | .error e => .error e s

/-- What the stages from one on come to. -/
def Stage.rest (u : Setup) (r : Record k) (owner : Address) : Stage → Work Error Address
  | .build => pipeline u r owner
  | .fund => do
    Publishing.fund owner
    let contract ← Publishing.create u r owner
    Publishing.verify u r contract owner
    Publishing.index u r contract
    Publishing.save u r contract
    return contract
  | .create => do
    let contract ← Publishing.create u r owner
    Publishing.verify u r contract owner
    Publishing.index u r contract
    Publishing.save u r contract
    return contract
  | .verify contract => do
    Publishing.verify u r contract owner
    Publishing.index u r contract
    Publishing.save u r contract
    return contract
  | .index contract => do
    Publishing.index u r contract
    Publishing.save u r contract
    return contract
  | .save contract => do
    Publishing.save u r contract
    return contract
  | .done answer => settled answer

theorem Stage.rest_after {x : Work Error α} {next : α → Stage} {f : α → Work Error Address}
    (h : ∀ a, (next a).rest u r owner = f a) (s : Site) :
    (after x next s).1.rest u r owner (after x next s).2 = (x >>= f) s := by
  rw [show (x >>= f) s = EStateM.bind x f s from rfl, EStateM.bind]
  unfold after
  cases x s with
  | ok a s' => exact congrFun (h a) s'
  | error e s' => rfl

/-- A stage does a part of what is left. -/
theorem Stage.rest_advance (u : Setup) (r : Record k) (owner : Address) (stage : Stage) (s : Site) :
    (stage.advance u r owner s).1.rest u r owner (stage.advance u r owner s).2 =
      stage.rest u r owner s := by
  cases stage with
  | done answer => rfl
  | _ => exact rest_after (fun _ => rfl) s

namespace Turn

/-- What a deployment still comes to. -/
def rest (u : Setup) (r : Record k) : Turn → Work Error Address
  | arriving owner | waiting owner _ => pipeline u r owner
  | working owner _ stage => stage.rest u r owner
  | releasing _ answer | leaving _ answer | tidying answer | finished answer => settled answer

theorem rest_start (u : Setup) (r : Record k) : (start r).rest u r = publish u r := by
  funext s
  unfold start publish
  cases approve r <;> rfl

theorem rest_step (t : Turn) (locks : Locks) (s : Site) :
    (t.step u r locks s).1.rest u r (t.step u r locks s).2.2 = t.rest u r s := by
  cases t with
  | waiting owner i =>
    unfold step
    dsimp only
    split <;> rfl
  | working owner i stage =>
    have hstage := Stage.rest_advance u r owner stage s
    cases stage with
    | done answer => rfl
    | _ => exact hstage
  | _ => rfl

/-- Whether the deployment holds the mutex, as it does while it goes through the stages. -/
def holds : Turn → Bool
  | working .. | releasing .. => true
  | _ => false

/-- Whether the deployment has nothing done yet. -/
def isFresh : Turn → Bool
  | arriving _ | waiting .. => true
  | _ => false

/-- The mutex the deployment has. -/
def mutex? : Turn → Option Nat
  | waiting _ i | working _ i _ | releasing i _ | leaving i _ => some i
  | arriving _ | tidying _ | finished _ => none

/-- Whether the deployment has a mutex or is about to tidy up. -/
def isPresent : Turn → Bool
  | arriving _ | finished _ => false
  | _ => true

/-- As a number of users. -/
def users (t : Turn) : Nat := t.mutex?.isSome.toNat

/-- A deployment that is not in the stages leaves the site to others. -/
theorem step_of_not_holds {t : Turn} (h : t.holds = false) (locks : Locks) (s : Site) :
    (t.step u r locks s).2.2 = s ∧ (t.step u r locks s).1.rest u r = t.rest u r := by
  cases t with
  | working | releasing => cases h
  | waiting owner i =>
    unfold step
    dsimp only
    split <;> exact ⟨rfl, rfl⟩
  | _ => exact ⟨rfl, rfl⟩

theorem isFresh_of_step {t : Turn} {locks : Locks} (h : (t.step u r locks s).1.isFresh = true) :
    t.isFresh = true := by
  cases t with
  | arriving | waiting => rfl
  | working owner i stage => cases stage <;> cases h
  | _ => cases h

theorem not_holds {t : Turn} (h : t.isFresh = true) : ¬ t.holds = true := by
  cases t with
  | arriving | waiting => exact nofun
  | _ => cases h

/-- What holds no mutex has nothing done yet or is over. -/
theorem fresh_or_settled {t : Turn} (h : t.holds = false) :
    t.isFresh = true ∨ ∃ answer, t.rest u r = settled answer := by
  cases t with
  | arriving | waiting => exact .inl rfl
  | working | releasing => cases h
  | leaving i answer => exact .inr ⟨answer, rfl⟩
  | tidying answer => exact .inr ⟨answer, rfl⟩
  | finished answer => exact .inr ⟨answer, rfl⟩

theorem mutex?_eq_none {t : Turn} (h : t.users = 0) : t.mutex? = none := by
  unfold users at h
  cases ht : t.mutex? with
  | none => rfl
  | some i =>
    rw [ht] at h
    cases h

theorem isPresent_of_users {t : Turn} (h : t.users ≠ 0) : t.isPresent = true := by
  cases t with
  | arriving | finished => exact absurd rfl h
  | _ => rfl

theorem of_no_mutex {t : Turn} (h : t.mutex? = none) : t.holds = false ∧ t.users = 0 := by
  cases t with
  | arriving | tidying | finished => exact ⟨rfl, rfl⟩
  | _ => cases h

/-- No step of a deployment takes long: each brings it nearer to its end, unless it waits. -/
def togo : Turn → Nat
  | arriving _ => 12
  | waiting .. => 11
  | working _ _ .build => 10
  | working _ _ .fund => 9
  | working _ _ .create => 8
  | working _ _ (.verify _) => 7
  | working _ _ (.index _) => 6
  | working _ _ (.save _) => 5
  | working _ _ (.done _) => 4
  | releasing .. => 3
  | leaving .. => 2
  | tidying _ => 1
  | finished _ => 0

theorem not_holds_of_togo {t : Turn} (h : t.togo = 0) : t.holds = false := by
  cases t with
  | working owner i stage => cases stage <;> cases h
  | releasing => cases h
  | _ => rfl

theorem returned {t : Turn} (h : t.togo = 0) : t.result?.isSome = true := by
  cases t with
  | working owner i stage => cases stage <;> cases h
  | finished => rfl
  | _ => cases h

theorem eq_finished {t : Turn} {answer : Except Error Address} (h : t.result? = some answer) :
    t = finished answer := by
  cases t with
  | finished answer' =>
    cases h
    rfl
  | _ => cases h

end Turn

/-! ## Locks -/

namespace Locks

variable {locks : Locks} {key : Kind × String} {i : Nat} {m : Mutex}

@[simp] theorem find?_edit (f : Mutex → Mutex) : (locks.edit i f).find? key = locks.find? key := rfl

theorem getElem?_edit (h : locks.mutexes[i]? = some m) (f : Mutex → Mutex) :
    (locks.edit i f).mutexes[i]? = some (f m) := by
  simp [edit, h]

theorem isHeld_eq (h : locks.mutexes[i]? = some m) : locks.isHeld i = m.held := by
  simp [isHeld, h]

theorem isUsed_eq (h : locks.mutexes[i]? = some m) : locks.isUsed i = (m.users != 0) := by
  simp [isUsed, h]

theorem find?_make : (locks.make key).2.find? key = some (locks.make key).1 := by
  simp [make, find?]

theorem getElem?_make : (locks.make key).2.mutexes[(locks.make key).1]? = some ⟨false, 1⟩ := by
  simp [make]

/-- Who tidies up takes the mutex out of the table, unless others have it. -/
theorem find?_tidy (h : ∀ i, locks.find? key = some i → locks.mutexes[i]? = some m) :
    (locks.tidy key).find? key = if m.users = 0 then none else locks.find? key := by
  unfold tidy
  cases hf : locks.find? key with
  | none => simp [hf]
  | some i =>
    dsimp only
    rw [isUsed_eq (h i hf)]
    by_cases hu : m.users = 0
    · have hgone : (locks.table.filter fun e => e.1 != key).lookup key = none := by
        refine List.lookup_eq_none_iff.2 fun e he => ?_
        exact bne_iff_ne.2 (bne_iff_ne.1 (List.mem_filter.1 he).2).symm
      simpa [hu, find?] using hgone
    · simp [hu, hf]

theorem mutexes_tidy : (locks.tidy key).mutexes = locks.mutexes := by
  unfold tidy
  split
  · split <;> rfl
  · rfl

end Locks

/-- What one deployment and the other one know of the mutex of their name. -/
structure Guarded (key : Kind × String) (locks : Locks) (a b : Turn) : Prop where
  first (i : Nat) : a.mutex? = some i → locks.find? key = some i
  second (i : Nat) : b.mutex? = some i → locks.find? key = some i
  mutex (i : Nat) : locks.find? key = some i →
    locks.mutexes[i]? = some ⟨a.holds || b.holds, a.users + b.users⟩
  needed : (locks.find? key).isSome = true → a.isPresent = true ∨ b.isPresent = true
  apart : ¬ (a.holds = true ∧ b.holds = true)

namespace Guarded

variable {key : Kind × String} {locks : Locks} {a b : Turn}

theorem symm (h : Guarded key locks a b) : Guarded key locks b a where
  first := h.second
  second := h.first
  mutex i hi := by rw [Bool.or_comm, Nat.add_comm, h.mutex i hi]
  needed hi := (h.needed hi).symm
  apart hab := h.apart hab.symm

/-- Without an entry nobody has a mutex. -/
theorem mutex?_eq_none (h : Guarded key locks a b) (hf : locks.find? key = none) :
    a.mutex? = none ∧ b.mutex? = none := by
  refine ⟨Option.eq_none_iff_forall_ne_some.2 fun i hi => ?_,
    Option.eq_none_iff_forall_ne_some.2 fun i hi => ?_⟩
  · rw [h.first i hi] at hf
    cases hf
  · rw [h.second i hi] at hf
    cases hf

/-- A step that leaves the entry and changes the mutex of the deployment. -/
theorem edit {i : Nat} {a' : Turn} (h : Guarded key locks a b) (hi : locks.find? key = some i)
    (f : Mutex → Mutex) (hm : f ⟨a.holds || b.holds, a.users + b.users⟩ =
      ⟨a'.holds || b.holds, a'.users + b.users⟩)
    (hf : ∀ j, a'.mutex? = some j → j = i) (hp : a'.isPresent = true)
    (ha : ¬ (a'.holds = true ∧ b.holds = true)) : Guarded key (locks.edit i f) a' b where
  first j hj := by rw [Locks.find?_edit, hi, hf j hj]
  second := h.second
  mutex j hj := by
    obtain rfl := Option.some.inj (hi.symm.trans hj)
    rw [Locks.getElem?_edit (h.mutex i hi), hm]
  needed _ := .inl hp
  apart := ha

/-- Who finds no mutex makes one, and is the only one at it. -/
theorem make (h : Guarded key locks a b) (hf : locks.find? key = none) (owner : Address) :
    Guarded key (locks.make key).2 (.waiting owner (locks.make key).1) b := by
  have hb := Turn.of_no_mutex (h.mutex?_eq_none hf).2
  refine ⟨fun i hi => ?_, fun i hi => ?_, fun i hi => ?_, fun _ => .inl rfl, ?_⟩
  · rw [Locks.find?_make]
    exact hi
  · rw [(h.mutex?_eq_none hf).2] at hi
    cases hi
  · obtain rfl := Option.some.inj (Locks.find?_make.symm.trans hi)
    rw [Locks.getElem?_make, hb.1, hb.2]
    rfl
  · simp [Turn.holds]

/-- A mutex is thrown away only if the other one is not at it. -/
theorem tidy {answer : Except Error Address} (h : Guarded key locks (.tidying answer) b) :
    Guarded key (locks.tidy key) (.finished answer) b := by
  have hmutex := h.mutex
  rw [show (Turn.tidying answer).users = 0 from rfl, Nat.zero_add] at hmutex
  have hfind := Locks.find?_tidy hmutex
  dsimp only at hfind
  by_cases hb : b.users = 0
  · rw [if_pos hb] at hfind
    refine ⟨nofun, fun i hi => ?_, fun i hi => ?_, fun hi => ?_, fun hab => nomatch hab.1⟩
    · rw [Turn.mutex?_eq_none hb] at hi
      cases hi
    · rw [hfind] at hi
      cases hi
    · rw [hfind] at hi
      cases hi
  · rw [if_neg hb] at hfind
    refine ⟨nofun, fun i hi => hfind.trans (h.second i hi), fun i hi => ?_, fun _ => .inr ?_,
      fun hab => nomatch hab.1⟩
    · rw [Locks.mutexes_tidy, hmutex i (hfind.symm.trans hi),
        show (Turn.finished answer).users = 0 from rfl, Nat.zero_add]
      rfl
    · exact Turn.isPresent_of_users hb

theorem step (h : Guarded (k, r.name) locks a b) (u : Setup) (s : Site) :
    Guarded (k, r.name) (a.step u r locks s).2.1 (a.step u r locks s).1 b := by
  cases a with
  | arriving owner =>
    cases hf : locks.find? (k, r.name) with
    | none =>
      have hstep : (Turn.arriving owner).step u r locks s =
          (.waiting owner (locks.make (k, r.name)).1, (locks.make (k, r.name)).2, s) := by
        simp [Turn.step, Locks.join, hf]
      rw [hstep]
      exact h.make hf owner
    | some i =>
      have hstep : (Turn.arriving owner).step u r locks s =
          (.waiting owner i, locks.edit i fun m => { m with users := m.users + 1 }, s) := by
        simp [Turn.step, Locks.join, hf]
      rw [hstep]
      exact h.edit hf _ (by simp [Turn.holds, Turn.users, Turn.mutex?, Nat.add_comm])
        (fun j hj => (Option.some.inj hj).symm) rfl (by simp [Turn.holds])
  | waiting owner i =>
    have hi := h.first i rfl
    unfold Turn.step
    dsimp only
    rw [Locks.isHeld_eq (h.mutex i hi)]
    split
    · exact h
    · rename_i hb
      exact h.edit hi _ (by simp [Turn.holds, Turn.users, Turn.mutex?])
        (fun j hj => (Option.some.inj hj).symm) rfl (by simpa [Turn.holds] using hb)
  | working owner i stage =>
    cases stage <;> exact ⟨h.first, h.second, h.mutex, h.needed, h.apart⟩
  | releasing i answer =>
    have hb : b.holds = false := Bool.eq_false_iff.2 fun hb => h.apart ⟨rfl, hb⟩
    change Guarded _ (locks.setHeld i false) (.leaving i answer) b
    exact h.edit (h.first i rfl) _ (by rw [hb]; rfl) (fun j hj => (Option.some.inj hj).symm) rfl
      (by simp [Turn.holds])
  | leaving i answer =>
    change Guarded _ (locks.leave i) (.tidying answer) b
    exact h.edit (h.first i rfl) _ (by simp [Turn.holds, Turn.users, Turn.mutex?])
      nofun rfl (by simp [Turn.holds])
  | tidying answer =>
    change Guarded _ (locks.tidy (k, r.name)) (.finished answer) b
    exact h.tidy
  | finished answer => exact h

end Guarded

/-! ## One after the other -/

/-- Both answers of work that is done in turn, and the site after it. -/
def inTurn (x y : Work Error α) (s : Site) : (Except Error α × Except Error α) × Site :=
  match x s with
  | .ok a s => match y s with
    | .ok b s => ((.ok a, .ok b), s)
    | .error e s => ((.ok a, .error e), s)
  | .error e s => match y s with
    | .ok b s => ((.error e, .ok b), s)
    | .error e' s => ((.error e, .error e'), s)

theorem inTurn_congr {x x' y : Work Error α} (h : x' s' = x s) : inTurn x' y s' = inTurn x y s := by
  unfold inTurn
  rw [h]

theorem inTurn_settled_congr (answer : Except Error α) {x x' : Work Error α} (h : x' s' = x s) :
    inTurn (settled answer) x' s' = inTurn (settled answer) x s := by
  cases answer <;> simp only [inTurn, settled, h]

theorem inTurn_settled (answer answer' : Except Error α) (s : Site) :
    inTurn (settled answer) (settled answer') s = ((answer, answer'), s) := by
  cases answer <;> cases answer' <;> rfl

/-- Two deployments, at a site, are on the way to what `x` and `y` come to at the start in turn,
and those who have nothing done yet may still come second. -/
structure Explained (start : Site) (x y : Work Error Address) (u : Setup) (r₁ r₂ : Record k)
    (a b : Turn) (s : Site) : Prop where
  second : b.isFresh = true →
    inTurn (a.rest u r₁) (b.rest u r₂) s = inTurn x y start
  first : a.isFresh = true →
    inTurn (b.rest u r₂) (a.rest u r₁) s = inTurn y x start
  either : inTurn (a.rest u r₁) (b.rest u r₂) s = inTurn x y start ∨
    inTurn (b.rest u r₂) (a.rest u r₁) s = inTurn y x start

namespace Explained

variable {start : Site} {x y : Work Error Address} {a b : Turn} {locks : Locks}

theorem symm (h : Explained start x y u r₁ r₂ a b s) : Explained start y x u r₂ r₁ b a s :=
  ⟨h.first, h.second, h.either.symm⟩

theorem step (h : Explained start x y u r₁ r₂ a b s)
    (hb : ¬ (a.holds = true ∧ b.holds = true)) (locks : Locks) :
    Explained start x y u r₁ r₂ (a.step u r₁ locks s).1 b (a.step u r₁ locks s).2.2 := by
  have hrest := a.rest_step (u := u) (r := r₁) locks s
  have hfirst : ∀ z, inTurn ((a.step u r₁ locks s).1.rest u r₁) z (a.step u r₁ locks s).2.2 =
      inTurn (a.rest u r₁) z s := fun z => inTurn_congr hrest
  cases ha : a.holds with
  | false =>
    obtain ⟨hs, hr⟩ := Turn.step_of_not_holds (u := u) (r := r₁) ha locks s
    rw [hs]
    refine ⟨fun hf => ?_, fun hf => ?_, ?_⟩
    · rw [hr]
      exact h.second hf
    · rw [hr]
      exact h.first (Turn.isFresh_of_step hf)
    · rw [hr]
      exact h.either
  | true =>
    -- The other one does not hold the mutex: it has nothing done yet, or all.
    rcases Turn.fresh_or_settled (u := u) (r := r₂) (Bool.eq_false_iff.2 fun h => hb ⟨ha, h⟩) with
      hfresh | ⟨answer, hover⟩
    · have hsecond := (hfirst _).trans (h.second hfresh)
      exact ⟨fun _ => hsecond, fun hf => absurd ha (Turn.not_holds (Turn.isFresh_of_step hf)),
        .inl hsecond⟩
    · have hlast : inTurn (b.rest u r₂) ((a.step u r₁ locks s).1.rest u r₁)
          (a.step u r₁ locks s).2.2 = inTurn (b.rest u r₂) (a.rest u r₁) s := by
        rw [hover]
        exact inTurn_settled_congr answer hrest
      exact ⟨fun hf => (hfirst _).trans (h.second hf),
        fun hf => hlast.trans (h.first (Turn.isFresh_of_step hf)),
        h.either.imp (hfirst _).trans hlast.trans⟩

end Explained

/-! ## Runs of two deployments -/

namespace Pair

/-- The pair with the deployments in the other order. -/
def swap (p : Pair) : Pair := ⟨p.second, p.first, p.locks, p.site⟩

theorem step_false (p : Pair) : p.step u r₁ r₂ false = (p.swap.step u r₂ r₁ true).swap := rfl

theorem step_true (p : Pair) : p.step u r₁ r₂ true =
    ⟨(p.first.step u r₁ p.locks p.site).1, p.second, (p.first.step u r₁ p.locks p.site).2.1,
      (p.first.step u r₁ p.locks p.site).2.2⟩ := rfl

theorem run_append (before after : List Bool) (p : Pair) :
    p.run u r₁ r₂ (before ++ after) = (p.run u r₁ r₂ before).run u r₁ r₂ after :=
  List.foldl_append

/-- What every state of a pair has that starts at a site. -/
structure Sound (start : Site) (u : Setup) (r₁ r₂ : Record k) (p : Pair) : Prop where
  guarded : Guarded (k, r₁.name) p.locks p.first p.second
  explained : Explained start (publish u r₁) (publish u r₂) u r₁ r₂ p.first p.second p.site

variable {start : Site} {p : Pair}

theorem Sound.swap (h : Sound start u r₁ r₂ p) (hn : r₁.name = r₂.name) :
    Sound start u r₂ r₁ p.swap := ⟨hn ▸ h.guarded.symm, h.explained.symm⟩

theorem Sound.step (h : Sound start u r₁ r₂ p) (hn : r₁.name = r₂.name) (isFirst : Bool) :
    Sound start u r₁ r₂ (p.step u r₁ r₂ isFirst) := by
  have hfirst : ∀ {r₁ r₂ : Record k} {p}, Sound start u r₁ r₂ p →
      Sound start u r₁ r₂ (p.step u r₁ r₂ true) := fun h =>
    ⟨h.guarded.step u _, h.explained.step h.guarded.apart _⟩
  cases isFirst with
  | true => exact hfirst h
  | false =>
    rw [step_false]
    exact (hfirst (h.swap hn)).swap hn.symm

theorem Sound.run (h : Sound start u r₁ r₂ p) (hn : r₁.name = r₂.name) (schedule : List Bool) :
    Sound start u r₁ r₂ (p.run u r₁ r₂ schedule) := by
  induction schedule generalizing p with
  | nil => exact h
  | cons b schedule ih => exact ih (h.step hn b)

theorem sound_start (u : Setup) (r₁ r₂ : Record k) (s : Site) {locks : Locks}
    (hl : locks.find? (k, r₁.name) = none) :
    Sound s u r₁ r₂ { Pair.start r₁ r₂ s with locks } := by
  have hnone : ∀ r : Record k, (Turn.start r).mutex? = none := fun r => by
    unfold Turn.start
    split <;> rfl
  refine ⟨⟨fun i hi => ?_, fun i hi => ?_, fun i hi => ?_, fun hi => ?_, fun h => ?_⟩, ?_⟩
  · exact nomatch (hnone r₁).symm.trans hi
  · exact nomatch (hnone r₂).symm.trans hi
  · exact nomatch hl.symm.trans hi
  · rw [hl] at hi
    cases hi
  · exact nomatch (Turn.of_no_mutex (hnone r₁)).1.symm.trans h.1
  · refine ⟨fun _ => ?_, fun _ => ?_, .inl ?_⟩ <;>
      exact congrFun (congrArg₂ inTurn (Turn.rest_start _ _) (Turn.rest_start _ _)) s

/-! ## Both return -/

/-- A deployment that need not wait gets nearer to its end with each step. -/
theorem togo_step (h : Guarded (k, r₁.name) p.locks p.first p.second)
    (hb : p.second.holds = false) : (p.step u r₁ r₂ true).first.togo ≤ p.first.togo - 1 := by
  rw [step_true]
  cases ha : p.first with
  | waiting owner i =>
    rw [ha] at h
    have hi := h.mutex i (h.first i rfl)
    rw [hb] at hi
    simp [Turn.step, Locks.isHeld_eq hi, Turn.togo, Turn.holds]
  | working owner i stage =>
    cases stage <;> simp only [Turn.step, Stage.advance, Stage.after] <;>
      first | exact Nat.le_refl _ | (split <;> simp [Turn.togo])
  | arriving | releasing | leaving | tidying | finished => exact Nat.le_refl _

/-- While the other one does not hold the mutex, a deployment can go on until it has returned. -/
theorem exists_first_returns (h : Sound start u r₁ r₂ p) (hn : r₁.name = r₂.name)
    (hb : p.second.holds = false) : ∃ more,
      (p.run u r₁ r₂ more).first.togo = 0 ∧ (p.run u r₁ r₂ more).second = p.second := by
  obtain ⟨n, hlen⟩ : ∃ n, p.first.togo ≤ n := ⟨_, Nat.le_refl _⟩
  induction n generalizing p with
  | zero => exact ⟨[], Nat.le_zero.1 hlen, rfl⟩
  | succ n ih =>
    have hstep : (p.step u r₁ r₂ true).first.togo ≤ p.first.togo - 1 := togo_step h.guarded hb
    obtain ⟨more, hfirst, hsecond⟩ := ih (h.step hn true) hb (by omega)
    exact ⟨true :: more, hfirst, hsecond⟩

theorem run_swap (schedule : List Bool) (p : Pair) :
    p.run u r₁ r₂ (schedule.map not) = (p.swap.run u r₂ r₁ schedule).swap := by
  induction schedule generalizing p with
  | nil => rfl
  | cons b schedule ih =>
    have hstep : p.step u r₁ r₂ (!b) = (p.swap.step u r₂ r₁ b).swap := by cases b <;> rfl
    exact (congrArg (fun p => p.run u r₁ r₂ (schedule.map not)) hstep).trans (ih _)

theorem exists_second_returns (h : Sound start u r₁ r₂ p) (hn : r₁.name = r₂.name)
    (ha : p.first.holds = false) : ∃ more,
      (p.run u r₁ r₂ more).second.togo = 0 ∧ (p.run u r₁ r₂ more).first = p.first := by
  obtain ⟨more, hdone⟩ := exists_first_returns (h.swap hn) hn.symm ha
  exact ⟨more.map not, by rwa [run_swap]⟩

/-- No deployment is stuck: whichever holds the mutex returns first, and then the other one. -/
theorem exists_both_return (h : Sound start u r₁ r₂ p) (hn : r₁.name = r₂.name) : ∃ more,
    (p.run u r₁ r₂ more).first.togo = 0 ∧ (p.run u r₁ r₂ more).second.togo = 0 := by
  cases hb : p.second.holds with
  | false =>
    obtain ⟨m, hfirst, -⟩ := exists_first_returns h hn hb
    obtain ⟨m', hsecond, hsame⟩ :=
      exists_second_returns (h.run hn m) hn (Turn.not_holds_of_togo hfirst)
    exact ⟨m ++ m', by rw [run_append, hsame, hfirst], by rw [run_append, hsecond]⟩
  | true =>
    have ha : p.first.holds = false := Bool.eq_false_iff.2 fun ha => h.guarded.apart ⟨ha, hb⟩
    obtain ⟨m, hsecond, -⟩ := exists_second_returns h hn ha
    obtain ⟨m', hfirst, hsame⟩ :=
      exists_first_returns (h.run hn m) hn (Turn.not_holds_of_togo hsecond)
    exact ⟨m ++ m', by rw [run_append, hfirst], by rw [run_append, hsame, hsecond]⟩

end Pair

/-- Two records of one kind and name are published at once, their steps coming in any order. They
are never in the stages at the same time. Once both have returned, their answers and the site are
those of publishing the one and then the other, in one of the two orders, and there is no mutex for
the name in the table. And however far they have come, they can go on until both have returned. -/
theorem same_name_publishes_in_turn (u : Setup) (r₁ r₂ : Record k) (hn : r₁.name = r₂.name)
    (locks : Locks) (hl : locks.find? (k, r₁.name) = none) (s : Site) (schedule : List Bool) :
    let p := Pair.run u r₁ r₂ schedule { Pair.start r₁ r₂ s with locks }
    ¬ (p.first.holds = true ∧ p.second.holds = true) ∧
    (∀ a₁ a₂, p.first.result? = some a₁ → p.second.result? = some a₂ →
      (inTurn (publish u r₁) (publish u r₂) s = ((a₁, a₂), p.site) ∨
        inTurn (publish u r₂) (publish u r₁) s = ((a₂, a₁), p.site)) ∧
      p.locks.find? (k, r₁.name) = none) ∧
    ∃ more, (p.run u r₁ r₂ more).first.result?.isSome = true ∧
      (p.run u r₁ r₂ more).second.result?.isSome = true := by
  intro p
  have hp : Pair.Sound s u r₁ r₂ p := (Pair.sound_start u r₁ r₂ s hl).run hn schedule
  refine ⟨hp.guarded.apart, fun a₁ a₂ h₁ h₂ => ?_, ?_⟩
  · obtain h₁ := Turn.eq_finished h₁
    obtain h₂ := Turn.eq_finished h₂
    have hor := hp.explained.either
    have hneeded := hp.guarded.needed
    rw [h₁, h₂] at hor hneeded
    refine ⟨hor.imp (fun h => h.symm.trans (inTurn_settled a₁ a₂ _))
      fun h => h.symm.trans (inTurn_settled a₂ a₁ _), ?_⟩
    exact Option.not_isSome_iff_eq_none.1 fun hsome => by simpa [Turn.isPresent] using hneeded hsome
  · obtain ⟨more, h₁, h₂⟩ := Pair.exists_both_return hp hn
    exact ⟨more, Turn.returned h₁, Turn.returned h₂⟩

/-- The second one arrives before the first one is at work, and waits. -/
theorem same_name_publishes_in_turn_contested : ∃ more a₁ a₂,
    let u := writer ownedText (some 0)
    let p := Pair.run u Registry.always renewed ([true, false, true, false] ++ more)
      (.start Registry.always renewed workshop)
    p.first.result? = some a₁ ∧ p.second.result? = some a₂ ∧
    (inTurn (publish u Registry.always) (publish u renewed) workshop = ((a₁, a₂), p.site) ∨
      inTurn (publish u renewed) (publish u Registry.always) workshop = ((a₂, a₁), p.site)) ∧
    p.locks.find? (.condition, "always") = none := by
  have hturns := same_name_publishes_in_turn (writer ownedText (some 0)) Registry.always renewed rfl
    .empty rfl workshop
  obtain ⟨-, -, more, h₁, h₂⟩ := hturns [true, false, true, false]
  obtain ⟨a₁, h₁⟩ := Option.isSome_iff_exists.1 h₁
  obtain ⟨a₂, h₂⟩ := Option.isSome_iff_exists.1 h₂
  rw [← Pair.run_append] at h₁ h₂
  obtain ⟨-, hboth, -⟩ := hturns ([true, false, true, false] ++ more)
  exact ⟨more, a₁, a₂, h₁, h₂, hboth a₁ a₂ h₁ h₂⟩

end ParticleChain.Publishing
