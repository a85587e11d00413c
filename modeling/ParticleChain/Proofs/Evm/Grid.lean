import ParticleChain.Proofs.Evm.Runs

/-!
# Execution stays on the instruction grid

`Starts code i p` says that an instruction starts at `p` if one starts at `i`: each is as long as
its first byte says. The scan that marks the jump destinations of a code marks the instruction
starts that hold a `JUMPDEST` and no others (`getD_jumpDests`). The program counter moves on by
whole instructions or jumps to such a mark, so it is at an instruction start whenever an
instruction is fetched (`execution_stays_on_grid`).
-/

namespace ParticleChain.Evm

open Exec

/-! ## Instruction starts -/

/-- The number of bytes after one with this value that belong to its instruction. -/
def immediates (b : UInt8) : Nat := (Opcode.ofByte? b).elim 0 Opcode.immediate

/-- An instruction starts at the second offset if one does at the first. -/
inductive Starts (code : ByteArray) (i : Nat) : Nat → Prop
  | here : Starts code i i
  | next {p : Nat} (hp : Starts code i p) (h : p < code.size) :
    Starts code i (p + 1 + immediates code[p])

/-- The instruction starts of a code that hold a `JUMPDEST`. -/
def Destination (code : ByteArray) (p : Nat) : Prop :=
  Starts code 0 p ∧ ∃ h : p < code.size, code[p] = 0x5b

theorem immediate_of_plain (b : UInt8) : (Opcode.plain? b).elim 0 Opcode.immediate = 0 := by
  unfold Opcode.plain?
  split <;> rfl

theorem immediates_eq (b : UInt8) :
    immediates b = if 0x60 ≤ b ∧ b ≤ 0x7f then b.toNat - 0x5f else 0 := by
  have h1 : 0x60 ≤ b ↔ 0x60 ≤ b.toNat := UInt8.le_iff_toNat_le
  have h2 : b ≤ 0x7f ↔ b.toNat ≤ 0x7f := UInt8.le_iff_toNat_le
  unfold immediates Opcode.ofByte?
  simp only [h1, h2]
  split
  · simp only [Option.elim, Opcode.immediate]
    split <;> omega
  · rw [if_neg (by omega)]
    split
    · rfl
    · split
      · rfl
      · split
        · rfl
        · exact immediate_of_plain b

namespace Starts

variable {code : ByteArray} {i p : Nat}

/-- The instruction at the first offset may be left out. -/
theorem of_next (h : i < code.size) (hp : Starts code (i + 1 + immediates code[i]) p) :
    Starts code i p := by
  induction hp with
  | here => exact .next .here h
  | next _ hq ih => exact .next ih hq

theorem cases_head (hp : Starts code i p) :
    p = i ∨ ∃ h : i < code.size, Starts code (i + 1 + immediates code[i]) p := by
  induction hp with
  | here => exact .inl rfl
  | @next p _ hq ih =>
    obtain rfl | ⟨h, ih⟩ := ih
    · exact .inr ⟨hq, .here⟩
    · exact .inr ⟨h, .next ih hq⟩

theorem le (hp : Starts code i p) : i ≤ p := by
  induction hp with
  | here => exact Nat.le_refl i
  | next _ _ ih => omega

end Starts

/-! ## Jump destinations -/

/-- The marks of a scan, the instruction at an offset being looked at. -/
def markAt (code : ByteArray) (pc : Nat) (h : pc < code.size) (marks : Array Bool) : Array Bool :=
  if code[pc] = 0x5b then marks.setIfInBounds pc true else marks

/-- The scan moves on by whole instructions. -/
theorem markDests_next {code : ByteArray} {pc : Nat} (h : pc < code.size) (marks : Array Bool) :
    markDests code pc marks =
      markDests code (pc + 1 + immediates code[pc]) (markAt code pc h marks) := by
  rw [markDests, dif_pos h, immediates_eq, markAt]
  dsimp only
  split
  · rename_i hb
    rw [hb]
    rfl
  · split <;> rfl

theorem markDests_of_size_le {code : ByteArray} {pc : Nat} (h : code.size ≤ pc)
    (marks : Array Bool) : markDests code pc marks = marks := by
  rw [markDests, dif_neg (Nat.not_lt.2 h)]

theorem getD_markAt {code : ByteArray} {pc : Nat} (h : pc < code.size) {marks : Array Bool}
    (hm : marks.size = code.size) (p : Nat) :
    (markAt code pc h marks).getD p false = true ↔
      marks.getD p false = true ∨ (p = pc ∧ code[pc] = 0x5b) := by
  unfold markAt
  split
  · rename_i hb
    rw [Array.getD_eq_getD_getElem?, Array.getElem?_setIfInBounds, Array.getD_eq_getD_getElem?]
    by_cases hp : pc = p
    · simp [hb, ← hp, hm, h]
    · simp [hp, Ne.symm hp]
  · rename_i hb
    simp [hb]

theorem size_markAt {code : ByteArray} {pc : Nat} (h : pc < code.size) (marks : Array Bool) :
    (markAt code pc h marks).size = marks.size := by
  unfold markAt
  split
  · exact Array.size_setIfInBounds
  · rfl

/-- A scan marks the `JUMPDEST`s at the instruction starts it comes to. -/
theorem getD_markDests {code : ByteArray} (p : Nat) (pc : Nat) (marks : Array Bool)
    (hm : marks.size = code.size) :
    (markDests code pc marks).getD p false = true ↔
      marks.getD p false = true ∨ (Starts code pc p ∧ ∃ h : p < code.size, code[p] = 0x5b) := by
  induction hn : code.size - pc using Nat.strongRecOn generalizing pc marks with
  | ind n ih =>
    subst hn
    by_cases h : pc < code.size
    · rw [markDests_next h, ih _ (by omega) _ _ ((size_markAt h marks).trans hm) rfl,
        getD_markAt h hm, or_assoc]
      refine or_congr_right ⟨?_, ?_⟩
      · rintro (⟨rfl, hb⟩ | ⟨hs, hb⟩)
        · exact ⟨.here, h, hb⟩
        · exact ⟨hs.of_next h, hb⟩
      · rintro ⟨hs, hp, hb⟩
        obtain rfl | ⟨_, hn⟩ := hs.cases_head
        · exact .inl ⟨rfl, hb⟩
        · exact .inr ⟨hn, hp, hb⟩
    · rw [markDests_of_size_le (Nat.not_lt.1 h)]
      refine (or_iff_left ?_).symm
      rintro ⟨hs, hp, -⟩
      have := hs.le
      omega

theorem getD_jumpDests (code : ByteArray) (p : Nat) :
    (jumpDests code).getD p false = true ↔ Destination code p := by
  unfold jumpDests
  rw [getD_markDests p 0 _ Array.size_replicate, or_iff_right]
  · rfl
  · rw [Array.getD_eq_getD_getElem?, Array.getElem?_replicate]
    split <;> exact Bool.noConfusion

/-! ## Frames on the grid -/

/-- The program counter is at an instruction start, and the marks are those of the code. -/
structure Frame.OnGrid (f : Frame) : Prop where
  dests : f.dests = jumpDests f.code
  pc : Starts f.code 0 f.pc

theorem inert_pc : Frame.Inert fun f g => g.pc = f.pc where
  refl _ := rfl
  trans h h' := h'.trans h
  stack _ _ := rfl
  spend _ _ := rfl
  profile _ _ := rfl
  grow _ _ _ _ := rfl
  store _ _ _ _ := rfl

section

variable {tx : Tx} {f g k : Frame} {m : Message} {r : Resume} {v : View} {p : Profile}

theorem Frame.Effect.code {fl : Flow} (h : f.Effect g fl) : g.code = f.code := by
  cases h with
  | quiet h | store _ _ _ _ _ _ h | log _ _ _ _ h | destroy _ _ _ _ _ h => exact h.code

theorem Frame.Effect.dests {fl : Flow} (h : f.Effect g fl) : g.dests = f.dests := by
  cases h with
  | quiet h | store _ _ _ _ _ _ h | log _ _ _ _ h | destroy _ _ _ _ _ h => exact h.dests

theorem onGrid_start (m : Message) (code : ByteArray) (v : View) (p : Profile) :
    (Frame.start m code v p).OnGrid := ⟨rfl, .here⟩

theorem onGrid_of_enter (h : m.enter v p = .running k) : k.OnGrid := by
  cases Message.opens_of h with
  | call => exact onGrid_start _ _ _ _
  | init => exact onGrid_start _ _ _ _

theorem jump_inv {t : Word} {u : Unit} (h : jump t f = .ok u g) :
    ∃ d, t.size? = some d ∧ f.dests.getD d false = true ∧ g.pc = d := by
  unfold jump at h
  rcases hd : t.size? with _ | d <;> rw [hd] at h
  · cases h
  · obtain ⟨_, _, hf, h⟩ := bind_inv h
    obtain ⟨rfl, rfl⟩ := get_inv hf
    obtain ⟨_, _, he, h⟩ := bind_inv h
    obtain ⟨hm, rfl⟩ := ensure_inv he
    cases h
    exact ⟨d, rfl, hm, rfl⟩

theorem jump_ok {t : Word} {d : Nat} (hd : t.size? = some d) (hm : f.dests.getD d false = true) :
    jump t f = .ok () { f with pc := d } := by
  unfold jump
  rw [hd]
  exact (bind_ok rfl).trans (bind_ok (ensure_ok _ hm f))

theorem jump_error {t : Word} (h : ∀ d, t.size? = some d → f.dests.getD d false = false) :
    jump t f = .error (.badJump t) f := by
  unfold jump
  rcases hd : t.size? with _ | d
  · rfl
  · exact (bind_ok rfl).trans (bind_error (ensure_error _ (h d hd) f))

/-! ## One step -/

/-- A jump goes to a destination. -/
theorem starts_of_jump {t : Word} {u : Unit} (hf : f.dests = jumpDests f.code)
    (h : jump t f = .ok u g) : Starts f.code 0 g.pc := by
  obtain ⟨d, -, hm, hd⟩ := jump_inv h
  rw [hf, getD_jumpDests] at hm
  rw [hd]
  exact hm.1

theorem pc_of_push {n : Fin 33} {offset : Nat} {fl : Flow}
    (h : perform tx offset (.push n) f = .ok fl g) : g.pc = f.pc + n := by
  obtain ⟨-, u, h⟩ := proceed_inv h
  obtain ⟨_, _, hf, h⟩ := bind_inv h
  obtain ⟨rfl, rfl⟩ := get_inv hf
  obtain ⟨_, _, hf, h⟩ := bind_inv h
  obtain ⟨rfl, rfl⟩ := get_inv hf
  obtain ⟨_, _, hp, h⟩ := bind_inv h
  obtain ⟨_, _, hb, h⟩ := bind_inv h
  obtain ⟨-, rfl, rfl⟩ := bounded_inv hb
  cases h
  rfl

/-- After an instruction that is performed the program counter is at an instruction start. -/
theorem starts_of_perform {op : Opcode} {fl : Flow} (hf : f.OnGrid) (hop : f.opcode? = some op)
    (h : perform tx f.pc op (f.prepared op) = .ok fl g) : Starts f.code 0 g.pc := by
  obtain ⟨hpc, hb⟩ := Frame.opcode?_inv hop
  have hnext : Starts f.code 0 (f.pc + 1 + op.immediate) := by
    have := hf.pc.next hpc
    rwa [immediates, hb] at this
  have hsame (ho : op.jumps = false) (hi : op.immediate = 0) : Starts f.code 0 g.pc := by
    have hg : g.pc = f.pc + 1 := (keeps_perform inert_pc tx f.pc op
      (fun hj => absurd (hj.symm.trans ho) Bool.noConfusion) fun _ _ _ _ => rfl).ok h
    rwa [hi, Nat.add_zero, ← hg] at hnext
  cases op with
  | push n =>
    rw [pc_of_push h]
    exact hnext
  | jump =>
    obtain ⟨-, u, h⟩ := proceed_inv h
    obtain ⟨t, _, hp, h⟩ := bind_inv h
    obtain ⟨ws, -, rfl⟩ := pop_inv hp
    exact starts_of_jump (f := (f.prepared .jump).withWords ws) hf.dests h
  | jumpIf =>
    obtain ⟨-, u, h⟩ := proceed_inv h
    obtain ⟨⟨t, c⟩, _, hp, h⟩ := bind_inv h
    obtain ⟨ws, -, rfl⟩ := pop2_inv hp
    dsimp only at h
    cases hc : c.isZero <;> rw [hc] at h
    · exact starts_of_jump (f := (f.prepared .jumpIf).withWords ws) hf.dests h
    · cases h
      exact hnext
  | _ => exact hsame rfl rfl

theorem Frame.OnGrid.step {fl : Flow} (hf : f.OnGrid) (h : step tx f = .ok fl g) : g.OnGrid := by
  have he := step_effect h
  refine ⟨by rw [he.dests, he.code, hf.dests], ?_⟩
  rw [he.code]
  obtain ⟨-, -, rfl⟩ | ⟨op, hop, -, -, hp⟩ := step_inv h
  · exact hf.pc
  · exact starts_of_perform hf hop hp

theorem Frame.OnGrid.answered (hg : g.OnGrid) (h : g.answered tx m r = .ok () k) : k.OnGrid := by
  have hr := Frame.resumed_ok h
  have hpc : k.pc = g.pc := by
    obtain ⟨output, -, hpc⟩ := keeps_finish inert_pc.steady r
      (execute tx m g.view g.profile).outcome (g.after (execute tx m g.view g.profile))
    unfold Frame.answered at h
    rwa [h] at hpc
  refine ⟨by rw [hr.dests, hr.code, hg.dests], ?_⟩
  rw [hr.code, hpc]
  exact hg.pc

theorem Frame.OnGrid.turn (hf : f.OnGrid) (h : f.Turn tx g) : g.OnGrid := by
  cases h with
  | next h => exact hf.step h
  | back h hk => exact (hf.step h).answered hk

theorem Frame.OnGrid.reaches (hf : f.OnGrid) (h : f.Reaches tx g) : g.OnGrid :=
  h.keeps Frame.OnGrid.turn (fun _ _ hc => onGrid_of_enter hc) hf

end

/-! ## Jumps -/

/-- The frame goes on at the target if that is a destination, and traps if it is none. -/
def Frame.JumpsTo (tx : Tx) (f : Frame) (target : Word) : Prop :=
  (Destination f.code target.toNat → ∃ g, step tx f = .ok .next g ∧ g.pc = target.toNat) ∧
  (¬ Destination f.code target.toNat → ∃ g, step tx f = .error (.badJump target) g)

section

variable {tx : Tx} {f g k : Frame} {target condition : Word} {ws : Array Word}

/-- A step that comes down to a jump. -/
theorem Frame.jumpsTo_of_step {x : Exec Unit} (hf : f.OnGrid) (hs : f.code.size ≤ UInt64.size)
    (h : step tx f = proceed x k) (hx : x k = Exec.jump target g) (hg : g.dests = f.dests) :
    f.JumpsTo tx target := by
  rw [hf.dests] at hg
  constructor
  · intro hd
    obtain ⟨hlt, -⟩ := hd.2
    have hj : x k = .ok () { g with pc := target.toNat } := by
      refine hx.trans (jump_ok (Word.size?_eq_some_iff.2 ⟨rfl, by omega⟩) ?_)
      rw [hg, getD_jumpDests]
      exact hd
    exact ⟨_, h.trans (bind_ok hj), rfl⟩
  · intro hd
    have hj : x k = .error (.badJump target) g := by
      refine hx.trans (jump_error fun d hsize => ?_)
      obtain ⟨rfl, -⟩ := Word.size?_eq_some_iff.1 hsize
      rw [hg]
      exact Bool.eq_false_iff.2 fun hm => hd ((getD_jumpDests _ _).1 hm)
    exact ⟨g, h.trans (bind_error hj)⟩

theorem Frame.OnGrid.jump (hf : f.OnGrid) (hs : f.code.size ≤ UInt64.size)
    (hop : f.opcode? = some .jump) (hfit : f.Fits .jump) (hg : Opcode.jump.shape.gas ≤ f.gasLeft)
    (hw : f.stack.words = ws.push target) : f.JumpsTo tx target :=
  Frame.jumpsTo_of_step hf hs (step_eq_perform hop hfit hg)
    (bind_ok (pop_ok (f := f.prepared .jump) hw)) rfl

theorem Frame.OnGrid.jumpIf (hf : f.OnGrid) (hs : f.code.size ≤ UInt64.size)
    (hop : f.opcode? = some .jumpIf) (hfit : f.Fits .jumpIf)
    (hg : Opcode.jumpIf.shape.gas ≤ f.gasLeft)
    (hw : f.stack.words = (ws.push condition).push target) (hc : condition.isZero = false) :
    f.JumpsTo tx target := by
  refine Frame.jumpsTo_of_step (g := (f.prepared .jumpIf).withWords ws) hf hs
    (step_eq_perform hop hfit hg) ((bind_ok (pop2_ok (f := f.prepared .jumpIf) hw)).trans ?_) rfl
  dsimp only
  rw [hc]
  rfl

end

/-- Execution never leaves the instruction grid. Wherever a run comes to, in the frame that it
starts with or in one that is started on the way, the instruction that is fetched next starts at
an instruction start of the code. A jump that is paid for goes to its target just if an
instruction starts there that is a `JUMPDEST`, and so does a conditional one whose condition is
not zero; any other target traps. (Code has a 64-bit length.) -/
theorem execution_stays_on_grid (tx : Tx) (m : Message) (code : ByteArray) (v : View) (p : Profile)
    (f : Frame) (hf : (Frame.start m code v p).Reaches tx f) :
    Starts f.code 0 f.pc ∧
    (f.code.size ≤ UInt64.size → ∀ (ws : Array Word) (target : Word),
      (f.opcode? = some .jump → f.Fits .jump → Opcode.jump.shape.gas ≤ f.gasLeft →
        f.stack.words = ws.push target → f.JumpsTo tx target) ∧
      ∀ condition : Word, f.opcode? = some .jumpIf → f.Fits .jumpIf →
        Opcode.jumpIf.shape.gas ≤ f.gasLeft →
        f.stack.words = (ws.push condition).push target → condition.isZero = false →
        f.JumpsTo tx target) := by
  have hgrid := (onGrid_start m code v p).reaches hf
  exact ⟨hgrid.pc, fun hs ws target => ⟨fun hop hfit hg hw => hgrid.jump hs hop hfit hg hw,
    fun condition hop hfit hg hw hc => hgrid.jumpIf hs hop hfit hg hw hc⟩⟩

/-! ## A jump over data -/

/-- Code that jumps to `x`: at 4 is a byte of data, at 5 a `JUMPDEST`, and both hold `0x5b`. -/
def leapCode (x : UInt8) : ByteArray := Bytes.ofList [0x60, x, 0x56, 0x60, 0x5b, 0x5b]

def leapCall : Message := .plainCall .zero ⟨7, 0, 0⟩ .empty 100 .zero

def leapStart (x : UInt8) : Frame := .start leapCall (leapCode x) (.ofWorld .empty) .empty

/-- The frame before the jump. -/
def leapJump (x : UInt8) : Frame :=
  { (leapStart x).prepared (.push ⟨1, by decide⟩) with
    pc := 2, stack := ⟨#[.ofNat x.toNat], "PUSH1"⟩ }

theorem dests_leap : (jumpDests (leapCode 4)).getD 4 false = false ∧
    (jumpDests (leapCode 5)).getD 5 false = true := by
  decide +kernel

/-- The jump into the data traps, the one behind it goes through. -/
theorem execution_stays_on_grid_leap :
    (Starts (leapCode 4) 0 2 ∧
      ∃ g, step ⟨.standard, .zero⟩ (leapJump 4) = .error (.badJump (.ofNat 4)) g) ∧
    Starts (leapCode 5) 0 2 ∧
      ∃ g, step ⟨.standard, .zero⟩ (leapJump 5) = .ok .next g ∧ g.pc = 5 := by
  have hr4 : (leapStart 4).Reaches ⟨.standard, .zero⟩ (leapJump 4) := .turn (.next rfl) (.refl _)
  have hr5 : (leapStart 5).Reaches ⟨.standard, .zero⟩ (leapJump 5) := .turn (.next rfl) (.refl _)
  obtain ⟨hp4, h4⟩ := execution_stays_on_grid _ _ _ _ _ _ hr4
  obtain ⟨hp5, h5⟩ := execution_stays_on_grid _ _ _ _ _ _ hr5
  obtain ⟨-, hbad⟩ := (h4 (by decide) #[] (.ofNat 4)).1 rfl (by decide) (by decide) rfl
  obtain ⟨hgood, -⟩ := (h5 (by decide) #[] (.ofNat 5)).1 rfl (by decide) (by decide) rfl
  refine ⟨⟨hp4, hbad fun hd => ?_⟩, hp5, hgood ((getD_jumpDests (leapCode 5) 5).1 dests_leap.2)⟩
  have hm := (getD_jumpDests (leapCode 4) 4).2 hd
  rw [dests_leap.1] at hm
  cases hm

end ParticleChain.Evm
