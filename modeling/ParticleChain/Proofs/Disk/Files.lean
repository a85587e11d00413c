import ParticleChain.Bytes
import ParticleChain.Proofs.Disk.Paths

/-!
# What a change of a file leaves alone

Writing or taking away a file changes what is at one place, and that place is a directory neither
before nor after (`SameBut`). So all other ways through the disk stay as they are, and what is
found at another place stays what it is. Two paths with different names below the same text never
lead to the same place (`Descends.apart`). What is not let be written changes nothing.
-/

namespace ParticleChain.Disk

variable {d d' : Disk} {p p' : Path} {x q : Place} {e : Entry} {step name : String}
  {steps names : List String} {content : ByteArray}

/-! ## Ways -/

theorem walk_cons_eq_ok : d.walk q (step :: steps) = .ok x ↔ d.entry? q = some .directory ∧
    (if step = "." then d.walk q steps
      else if step = ".." then d.walk q.dropLast steps
      else if maxName < step.utf8ByteSize then .error .nameTooLong
      else d.walk (q ++ [step]) steps) = .ok x := by
  rw [walk]
  cases d.entry? q with
  | none => simp
  | some e => cases e <;> simp

theorem walk_append : d.walk q (steps ++ names) = .ok x ↔
    ∃ y, d.walk q steps = .ok y ∧ d.walk y names = .ok x := by
  induction steps generalizing q with
  | nil => simp [walk]
  | cons step steps ih =>
    rw [List.cons_append]
    simp only [walk_cons_eq_ok]
    by_cases hd : d.entry? q = some .directory
    · simp only [hd, true_and]
      split
      · exact ih
      · split
        · exact ih
        · split
          · simp
          · exact ih
    · simp [hd]

/-- A name that stands for a place below. -/
def IsName (name : String) : Prop := name ≠ "." ∧ name ≠ ".."

theorem walk_names (hn : ∀ name ∈ names, IsName name) (h : d.walk q names = .ok x) :
    x = q ++ names := by
  induction names generalizing q with
  | nil =>
    obtain rfl := Except.ok.inj h
    exact (List.append_nil _).symm
  | cons name names ih =>
    obtain ⟨⟨hdot, hdots⟩, hrest⟩ := List.forall_mem_cons.1 hn
    have hw := (walk_cons_eq_ok.1 h).2
    rw [if_neg hdot, if_neg hdots] at hw
    split at hw
    · cases hw
    · rw [ih hrest hw, List.append_assoc, List.singleton_append]

/-- The place of a path with names below its text. -/
theorem find_names (hne : p.names ≠ []) (hn : ∀ name ∈ p.names, IsName name)
    (h : d.find p = .ok x) : ∃ q, x = q ++ p.names ∧
      d.walk (d.start (.ofText p.text)) (Path.ofText p.text).parts = .ok q := by
  unfold find at h
  split at h
  · cases h
  · rw [Path.steps_eq (.inl hne)] at h
    obtain ⟨q, hq, hx⟩ := walk_append.1 h
    exact ⟨q, walk_names hn hx, hq⟩

/-- Two paths that lead to no place in common. -/
def Apart (p p' : Path) : Prop := ∀ (d : Disk) (x : Place), d.find p = .ok x → d.find p' ≠ .ok x

theorem Apart.symm (h : Apart p p') : Apart p' p := fun d x hx' hx => h d x hx hx'

/-- A path with names below its text, which stand for places below. -/
structure Descends (p : Path) : Prop where
  ne_nil : p.names ≠ []
  names : ∀ name ∈ p.names, IsName name

theorem Descends.apart (h : Descends p) (h' : Descends p') (ht : p.text = p'.text)
    (hne : p ≠ p') : Apart p p' := by
  intro d x hx hx'
  obtain ⟨q, rfl, hq⟩ := find_names h.ne_nil h.names hx
  obtain ⟨q', he, hq'⟩ := find_names h'.ne_nil h'.names hx'
  rw [ht, hq'] at hq
  obtain rfl := Except.ok.inj hq
  have hnames := List.append_cancel_left he
  cases p
  cases p'
  cases ht
  cases hnames
  exact hne rfl

/-! ## A change at one place -/

/-- Two disks that differ in one place at most, which is no directory in either. -/
structure SameBut (x : Place) (d d' : Disk) : Prop where
  here : d'.here = d.here
  policy : d'.policy = d.policy
  entry (q : Place) : q ≠ x → d'.entry? q = d.entry? q
  before : d.entry? x ≠ some .directory
  after : d'.entry? x ≠ some .directory

theorem SameBut.walk_eq_ok (h : SameBut x d d') {y : Place} :
    d'.walk q steps = .ok y ↔ d.walk q steps = .ok y := by
  induction steps generalizing q with
  | nil => rfl
  | cons step steps ih =>
    rw [walk_cons_eq_ok, walk_cons_eq_ok]
    by_cases hq : q = x
    · subst hq
      simp [h.before, h.after]
    · rw [h.entry q hq]
      refine and_congr_right fun _ => ?_
      split
      · exact ih
      · split
        · exact ih
        · split
          · rfl
          · exact ih

theorem SameBut.find_eq_ok (h : SameBut x d d') : d'.find p = .ok q ↔ d.find p = .ok q := by
  unfold find start
  rw [h.here]
  split
  · rfl
  · exact h.walk_eq_ok

theorem look_eq_ok : d.look p = .ok e ↔ ∃ x, d.find p = .ok x ∧ d.entry? x = some e := by
  unfold look
  cases d.find p with
  | error e => simp [bind, Except.bind]
  | ok x =>
    cases h : d.entry? x with
    | none => simp [bind, Except.bind, h, throw, throwThe, MonadExceptOf.throw]
    | some e' => simp [bind, Except.bind, h, pure, Except.pure]

/-- At the path there is the same on both disks, if anything. -/
def Agree (p : Path) (d d' : Disk) : Prop := ∀ e, d'.look p = .ok e ↔ d.look p = .ok e

theorem Agree.refl (p : Path) (d : Disk) : Agree p d d := fun _ => .rfl

theorem Agree.trans {d'' : Disk} (h : Agree p d d') (h' : Agree p d' d'') : Agree p d d'' :=
  fun e => (h' e).trans (h e)

theorem SameBut.agree (h : SameBut x d d') (hx : d.find p ≠ .ok x) : Agree p d d' := by
  intro e
  rw [look_eq_ok, look_eq_ok]
  refine exists_congr fun q => ?_
  rw [h.find_eq_ok]
  refine and_congr_right fun hq => ?_
  rw [h.entry q fun he => hx (he ▸ hq)]

/-- What may be written has nothing to do with what is there. -/
theorem agree_withPolicy (p : Path) (d : Disk) (policy : Policy) :
    Agree p d { d with policy } := by
  have hwalk (q : Place) (steps : List String) :
      walk { d with policy } q steps = d.walk q steps := by
    induction steps generalizing q with
    | nil => rfl
    | cons step steps ih =>
      unfold walk
      rw [show entry? { d with policy } q = d.entry? q from rfl]
      simp only [ih]
  have hfind : find { d with policy } p = d.find p := by
    unfold find
    rw [hwalk]
    rfl
  intro e
  rw [look_eq_ok, look_eq_ok, hfind]
  rfl

/-! ## Operations on files -/

theorem has_iff : d.has p = true ↔ ∃ e, d.look p = .ok e := by
  unfold has
  cases d.look p <;> simp [Except.toBool]

theorem Agree.has_iff (h : Agree p d d') : d'.has p = true ↔ d.has p = true := by
  rw [Disk.has_iff, Disk.has_iff]
  exact exists_congr h

theorem read_eq_ok : d.read p = .ok content ↔ ∃ e, d.look p = .ok e ∧
    (e = .file content ∨ e = .program ∧ content = .empty) := by
  unfold read
  cases d.look p with
  | error e => simp [bind, Except.bind]
  | ok e =>
    cases e <;>
      simp [bind, Except.bind, pure, Except.pure, throw, throwThe, MonadExceptOf.throw, eq_comm]

theorem Agree.read (h : Agree p d d') (content : ByteArray) :
    d'.read p = .ok content ↔ d.read p = .ok content := by
  rw [read_eq_ok, read_eq_ok]
  exact exists_congr fun e => and_congr_left fun _ => h e

/-- The bytes of a text are those of no other. -/
theorem readText_eq_ok {text : String} :
    d.readText p = .ok text ↔ d.read p = .ok text.toUTF8 := by
  unfold readText
  cases d.read p with
  | error e => simp [bind, Except.bind]
  | ok content =>
    simp only [bind, Except.bind, Except.ok.injEq]
    rw [← Bytes.fromUTF8?_eq_some]
    cases String.fromUTF8? content <;>
      simp [pure, Except.pure, throw, throwThe, MonadExceptOf.throw]

theorem readText_of_look {text : String} (h : d.look p = .ok (.file text.toUTF8)) :
    d.readText p = .ok text :=
  readText_eq_ok.2 (read_eq_ok.2 ⟨_, h, .inl rfl⟩)

theorem entry?_put (hx : x ≠ []) (e : Entry) (q : Place) :
    Disk.entry? (d.put x e) q = if x = q then some e else d.entry? q := by
  unfold entry? put
  by_cases hq : q.isEmpty
  · have : x ≠ q := by
      rintro rfl
      exact hx (List.isEmpty_iff.1 hq)
    simp [hq, this]
  · simp [hq, Std.TreeMap.getElem?_insert]

theorem entry?_nil (d : Disk) : d.entry? [] = some .directory := rfl

theorem offer_eq_ok : d.offer x e = .ok d' ↔ d.policy d.entries x e = none ∧ d' = d.put x e := by
  unfold offer
  cases d.policy d.entries x e <;> simp [eq_comm]

theorem offer_of_refused {reason : Error} (h : d.policy d.entries x e = some reason) :
    d.offer x e = .error reason := by
  rw [offer, h]

theorem write_of_find (h : d.find p = .ok x) (he : d.entry? x ≠ some .directory)
    (content : ByteArray) : d.write p content = d.offer x (.file content) := by
  unfold write
  rw [h]
  simp only [bind, Except.bind]

/-- Writing puts a file at one place. -/
theorem write_eq_ok (h : d.write p content = .ok d') : ∃ x, d.find p = .ok x ∧
    SameBut x d d' ∧ d'.entry? x = some (.file content) := by
  unfold write at h
  cases hf : d.find p with
  | error e =>
    rw [hf] at h
    cases h
  | ok x =>
    rw [hf] at h
    have hbefore : d.entry? x ≠ some .directory := by
      intro hd
      simp [bind, Except.bind, hd, throw, throwThe, MonadExceptOf.throw] at h
    have hx : x ≠ [] := by
      rintro rfl
      exact hbefore (entry?_nil d)
    have hd' : d' = d.put x (.file content) := by
      simp only [bind, Except.bind] at h
      exact (offer_eq_ok.1 h).2
    subst hd'
    have hafter : Disk.entry? (d.put x (.file content)) x = some (.file content) := by
      rw [entry?_put hx, if_pos rfl]
    refine ⟨x, rfl, ⟨rfl, rfl, fun q hq => ?_, hbefore, ?_⟩, hafter⟩
    · rw [entry?_put hx, if_neg hq.symm]
    · rw [hafter]
      simp

theorem agree_write (h : d.write p content = .ok d') (ha : Apart p p') : Agree p' d d' := by
  obtain ⟨x, hx, hsame, -⟩ := write_eq_ok h
  exact hsame.agree (ha d x hx)

theorem look_write (h : d.write p content = .ok d') : d'.look p = .ok (.file content) := by
  obtain ⟨x, hx, hsame, he⟩ := write_eq_ok h
  exact look_eq_ok.2 ⟨x, hsame.find_eq_ok.2 hx, he⟩

theorem removeFile_eq_ok : d.removeFile p = .ok d' ↔ ∃ x e, d.find p = .ok x ∧
    d.entry? x = some e ∧ e ≠ .directory ∧ d' = { d with entries := d.entries.erase x } := by
  unfold removeFile
  cases d.find p with
  | error e => simp [bind, Except.bind]
  | ok x =>
    cases he : d.entry? x with
    | none => simp [bind, Except.bind, he, throw, throwThe, MonadExceptOf.throw]
    | some e =>
      cases e <;> simp [bind, Except.bind, pure, Except.pure, he, throw, throwThe,
        MonadExceptOf.throw, eq_comm]

theorem entry?_erase (hx : x ≠ []) (d : Disk) (q : Place) :
    Disk.entry? { d with entries := d.entries.erase x } q =
      if x = q then none else d.entry? q := by
  unfold entry?
  by_cases hq : q.isEmpty
  · have : x ≠ q := by
      rintro rfl
      exact hx (List.isEmpty_iff.1 hq)
    simp [hq, this]
  · simp [hq, Std.TreeMap.getElem?_erase]

/-- Taking a file away empties one place. -/
theorem removeFile_sameBut (h : d.removeFile p = .ok d') :
    ∃ x, d.find p = .ok x ∧ SameBut x d d' ∧ d'.entry? x = none := by
  obtain ⟨x, e, hx, he, hdir, rfl⟩ := removeFile_eq_ok.1 h
  have hbefore : d.entry? x ≠ some .directory := by
    rw [he]
    exact fun h => hdir (Option.some.inj h)
  have hne : x ≠ [] := by
    rintro rfl
    exact hbefore (entry?_nil d)
  have hafter := entry?_erase hne d x
  rw [if_pos rfl] at hafter
  refine ⟨x, hx, ⟨rfl, rfl, fun q hq => ?_, hbefore, ?_⟩, hafter⟩
  · rw [entry?_erase hne, if_neg hq.symm]
  · rw [hafter]
    exact nofun

theorem agree_withoutFile (ha : Apart p p') (d : Disk) : Agree p' d (d.withoutFile p) := by
  unfold withoutFile
  split
  · rename_i d' h
    obtain ⟨x, hx, hsame, -⟩ := removeFile_sameBut h
    exact hsame.agree (ha d x hx)
  · exact .refl p' d

/-- A file that is taken away is gone. -/
theorem has_withoutFile (h : d.look p = .ok e) (he : e ≠ .directory) :
    (d.withoutFile p).has p = false := by
  obtain ⟨x, hx, hentry⟩ := look_eq_ok.1 h
  obtain ⟨d', hd'⟩ : ∃ d', d.removeFile p = .ok d' :=
    ⟨_, removeFile_eq_ok.2 ⟨x, e, hx, hentry, he, rfl⟩⟩
  obtain ⟨y, hy, hsame, hnone⟩ := removeFile_sameBut hd'
  rw [withoutFile, hd']
  refine Bool.eq_false_iff.2 fun hhas => ?_
  obtain ⟨e', he'⟩ := Disk.has_iff.1 hhas
  obtain ⟨z, hz, hez⟩ := look_eq_ok.1 he'
  obtain rfl := Except.ok.inj ((hsame.find_eq_ok.1 hz).symm.trans hy)
  rw [hnone] at hez
  cases hez

/-- Nothing is at the path, or something that can be taken away. -/
def Removable (d : Disk) (p : Path) : Prop := d.look p ≠ .ok .directory

theorem SameBut.removable (h : SameBut x d d') (hp : d.Removable p) : d'.Removable p := by
  intro hl
  obtain ⟨y, hy, he⟩ := look_eq_ok.1 hl
  have hne : y ≠ x := by
    rintro rfl
    exact h.after he
  exact hp (look_eq_ok.2 ⟨y, h.find_eq_ok.1 hy, h.entry y hne ▸ he⟩)

theorem Agree.removable (h : Agree p d d') : d'.Removable p ↔ d.Removable p :=
  not_congr (h .directory)

theorem not_has_withoutFile (h : d.Removable p) : (d.withoutFile p).has p = false := by
  cases hl : d.look p with
  | ok e =>
    refine has_withoutFile hl ?_
    rintro rfl
    exact h hl
  | error e =>
    have hremove : ∀ d', d.removeFile p ≠ .ok d' := by
      intro d' hd
      obtain ⟨x, e', hx, he, -⟩ := removeFile_eq_ok.1 hd
      rw [look_eq_ok.2 ⟨x, hx, he⟩] at hl
      cases hl
    unfold withoutFile
    split
    · exact absurd ‹_› (hremove _)
    · unfold has
      rw [hl]
      rfl

end ParticleChain.Disk
