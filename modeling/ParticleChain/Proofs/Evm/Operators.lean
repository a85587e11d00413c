import ParticleChain.Proofs.Evm.Calls
import ParticleChain.Proofs.Word.Fields
import ParticleChain.Proofs.Word.Powers

/-!
# What word instructions put on the stack

An instruction on two words finds them on top of the stack, the first operand uppermost, and leaves
one word in their place (`step_binary`); for a power it also charges for each byte of the exponent
(`step_exp`, `step_exp_trap`). So the instructions do what their numbers say: `bit_moves_exact` for
shifts by any word, for sign extension and for bytes, `exp_exact_and_priced` for powers.
-/

namespace ParticleChain.Evm

open Exec

section

variable {tx : Tx} {f : Frame} {offset : Nat} {ws : Array Word} {a b e : Word}

/-- An instruction that takes two words and puts one fits if there is room for one. -/
theorem Frame.fits_of_two {op : Opcode} (hpops : op.shape.pops = 2) (hpushes : op.shape.pushes = 1)
    (hw : f.stack.words = (ws.push b).push a) (hroom : ws.size < Stack.limit) : f.Fits op := by
  have hs : f.stack.size = ws.size + 2 := by
    unfold Stack.size
    rw [hw, Array.size_push, Array.size_push]
  unfold Fits
  rw [hpops, hpushes]
  omega

/-- An instruction that fits but cannot be paid for leaves the gas as it is. -/
theorem step_outOfGas {op : Opcode} (hop : f.opcode? = some op) (hf : f.Fits op)
    (hg : ¬ op.shape.gas ≤ f.gasLeft) :
    ∃ g, step tx f = .error (.outOfGas op.shape.gas g.gasLeft) g := by
  obtain ⟨hpc, hb⟩ := Frame.opcode?_inv hop
  refine ⟨{ f with stack := { f.stack with mnemonic := op.shape.mnemonic } }, ?_⟩
  unfold step
  refine (bind_ok rfl).trans ((bind_ok rfl).trans ?_)
  dsimp only
  rw [dif_pos hpc, hb]
  exact bind_error ((bind_ok (onStack_ok (Stack.require_ok hf.1 hf.2))).trans
    (bind_error (charge_trap hg)))

theorem perform_binary (tx : Tx) (offset : Nat) (o : Binary)
    (hw : f.stack.words = (ws.push b).push a) (hroom : ws.size < Stack.limit) :
    perform tx offset (.binary o) f = .ok .next (f.withWords (ws.push (o.apply a b))) :=
  bind_ok ((bind_ok (pop2_ok hw)).trans (push_ok (f := f.withWords ws) hroom _))

theorem step_binary {o : Binary} (hop : f.opcode? = some (.binary o))
    (hw : f.stack.words = (ws.push b).push a) (hroom : ws.size < Stack.limit)
    (hg : o.gas ≤ f.gasLeft) :
    step tx f = .ok .next ((f.prepared (.binary o)).withWords (ws.push (o.apply a b))) :=
  (step_eq_perform hop (Frame.fits_of_two rfl rfl hw hroom) hg).trans
    (perform_binary tx f.pc o (f := f.prepared (.binary o)) hw hroom)

/-! ## Powers -/

theorem exponent_charge_bounded (e : Word) : Price.exponentByte * e.byteLength ≤ maxAmount :=
  Nat.le_trans (Nat.mul_le_mul_left _ e.byteLength_le) (by decide)

theorem perform_exp (tx : Tx) (offset : Nat) (hw : f.stack.words = (ws.push e).push a)
    (hroom : ws.size < Stack.limit) (hg : Price.exponentByte * e.byteLength ≤ f.gasLeft) :
    perform tx offset .exp f = .ok .next
      ((f.paying .exponent (Price.exponentByte * e.byteLength)).withWords (ws.push (a.pow e))) :=
  bind_ok <| (bind_ok (pop2_ok hw)).trans <|
    (bind_ok (bounded_ok (exponent_charge_bounded e) _)).trans <|
    (bind_ok (charge_ok (f := f.withWords ws) hg)).trans <|
    push_ok (f := (f.withWords ws).paying _ _) hroom _

theorem perform_exp_trap (tx : Tx) (offset : Nat) (hw : f.stack.words = (ws.push e).push a)
    (hg : ¬ Price.exponentByte * e.byteLength ≤ f.gasLeft) :
    perform tx offset .exp f =
      .error (.outOfGas (Price.exponentByte * e.byteLength) f.gasLeft) (f.withWords ws) :=
  bind_error <| (bind_ok (pop2_ok hw)).trans <|
    (bind_ok (bounded_ok (exponent_charge_bounded e) _)).trans <|
    bind_error (charge_trap (f := f.withWords ws) hg)

/-- What a power costs by its exponent. -/
def expCost (e : Word) : Nat := Opcode.exp.shape.gas + Price.exponentByte * e.byteLength

theorem step_exp (hop : f.opcode? = some .exp) (hw : f.stack.words = (ws.push e).push a)
    (hroom : ws.size < Stack.limit) (hg : expCost e ≤ f.gasLeft) :
    step tx f = .ok .next (((f.prepared .exp).paying .exponent
      (Price.exponentByte * e.byteLength)).withWords (ws.push (a.pow e))) := by
  have hstatic : Opcode.exp.shape.gas ≤ f.gasLeft := Nat.le_trans (Nat.le_add_right _ _) hg
  have hbytes : Price.exponentByte * e.byteLength ≤ (f.prepared .exp).gasLeft :=
    Nat.le_sub_of_add_le' hg
  exact (step_eq_perform hop (Frame.fits_of_two rfl rfl hw hroom) hstatic).trans
    (perform_exp tx f.pc (f := f.prepared .exp) hw hroom hbytes)

theorem step_exp_trap (hop : f.opcode? = some .exp) (hw : f.stack.words = (ws.push e).push a)
    (hroom : ws.size < Stack.limit) (hg : f.gasLeft < expCost e) :
    ∃ n g, step tx f = .error (.outOfGas n g.gasLeft) g := by
  have hfits : f.Fits .exp := Frame.fits_of_two rfl rfl hw hroom
  by_cases hstatic : Opcode.exp.shape.gas ≤ f.gasLeft
  · have hbytes : ¬ Price.exponentByte * e.byteLength ≤ (f.prepared .exp).gasLeft := by
      have hleft : (f.prepared .exp).gasLeft = f.gasLeft - Opcode.exp.shape.gas := rfl
      unfold expCost at hg
      omega
    exact ⟨_, (f.prepared .exp).withWords ws, (step_eq_perform hop hfits hstatic).trans
      (perform_exp_trap tx f.pc (f := f.prepared .exp) hw hbytes)⟩
  · exact ⟨_, step_outOfGas hop hfits hstatic⟩

end

/-- A frame at an instruction with two words on its stack. -/
def operating (byte : UInt8) (words : Array Word) (gas : Nat) : Frame :=
  { Frame.start (.plainCall .zero .zero .empty gas .zero) (Bytes.ofList [byte]) (View.ofWorld .empty)
      .empty with
    stack := ⟨words, ""⟩ }

/-! ## Shifts, sign extension and bytes -/

/-- The frame goes on from its next instruction with one word on top of `ws`, of which `P` holds. -/
def Frame.Puts (tx : Tx) (f : Frame) (ws : Array Word) (P : Word → Prop) : Prop :=
  ∃ g w, step tx f = .ok .next g ∧ g.stack.words = ws.push w ∧ P w

theorem Frame.puts_binary {tx : Tx} {f : Frame} {ws : Array Word} {a b : Word} {o : Binary}
    {P : Word → Prop} (hop : f.opcode? = some (.binary o))
    (hw : f.stack.words = (ws.push b).push a) (hroom : ws.size < Stack.limit)
    (hg : o.gas ≤ f.gasLeft) (hP : P (o.apply a b)) : f.Puts tx ws P :=
  ⟨_, _, step_binary hop hw hroom hg, rfl, hP⟩

/-- Shifts by any word `s` multiply and divide by `2 ^ s`, rounding down, modulo `2 ^ 256`. Sign
extension keeps the two's complement reading of the low bytes, and a byte is the digit at its place;
from the last byte on, the one changes nothing and the other is zero. -/
theorem bit_moves_exact (x s : Word) :
    (∀ (tx : Tx) (f : Frame) (ws : Array Word), f.stack.words = (ws.push x).push s →
      ws.size < Stack.limit → 3 ≤ f.gasLeft →
      (f.opcode? = some (.binary .shl) →
        f.Puts tx ws fun w => w.toNat = x.toNat * 2 ^ s.toNat % 2 ^ 256) ∧
      (f.opcode? = some (.binary .shr) → f.Puts tx ws fun w => w.toNat = x.toNat / 2 ^ s.toNat) ∧
      (f.opcode? = some (.binary .sar) →
        f.Puts tx ws fun w => (w.toNat : Int) = x.toInt / 2 ^ s.toNat % 2 ^ 256)) ∧
    (s.toNat < 31 → (x.signExtend s).toInt = (x.toNat : Int).bmod (2 ^ (8 * (s.toNat + 1)))) ∧
    (31 ≤ s.toNat → x.signExtend s = x) ∧
    (s.toNat < 32 → (x.byte s).toNat = x.toNat / 2 ^ (8 * (31 - s.toNat)) % 256) ∧
    (32 ≤ s.toNat → x.byte s = .zero) := by
  refine ⟨fun tx f ws hw hroom hg => ⟨fun hop => ?_, fun hop => ?_, fun hop => ?_⟩,
    x.toInt_signExtend, x.signExtend_of_le, x.toNat_byte, x.byte_of_le⟩
  · refine Frame.puts_binary hop hw hroom hg ?_
    show (x <<< s.shiftAmount).toNat = _
    rw [Word.shiftLeft_shiftAmount, Word.toNat_shiftLeft, Nat.mul_comm]
    rfl
  · refine Frame.puts_binary hop hw hroom hg ?_
    show (x >>> s.shiftAmount).toNat = _
    rw [Word.shiftRight_shiftAmount, Word.toNat_shiftRight]
  · refine Frame.puts_binary hop hw hroom hg ?_
    show ((x.shiftRightSigned s.shiftAmount).toNat : Int) = _
    rw [Word.shiftRightSigned_shiftAmount, Word.toNat_shiftRightSigned]

/-- The least number by 255 bits; signs and bytes of a small one. -/
theorem bit_moves_exact_least :
    let tx : Tx := ⟨.standard, .zero⟩
    let words : Array Word := #[.ofBit 255, .ofNat 255]
    (operating 0x1b words 3).Puts tx #[] (fun w => w.toNat = 0) ∧
    (operating 0x1c words 3).Puts tx #[] (fun w => w.toNat = 1) ∧
    (operating 0x1d words 3).Puts tx #[] (fun w => w.toNat = 2 ^ 256 - 1) ∧
    ((Word.ofNat 0x1ff).signExtend .zero).toInt = -1 ∧
    (Word.ofNat 0x1ff).signExtend (.ofNat 31) = .ofNat 0x1ff ∧
    ((Word.ofNat 0x1ff).byte (.ofNat 31)).toNat = 0xff ∧
    (Word.ofNat 0x1ff).byte (.ofNat 32) = .zero := by
  intro tx words
  obtain ⟨hshift, -⟩ := bit_moves_exact (.ofBit 255) (.ofNat 255)
  have hshl := (hshift tx (operating 0x1b words 3) #[] rfl (by decide) (by decide)).1 (by decide)
  have hshr := (hshift tx (operating 0x1c words 3) #[] rfl (by decide) (by decide)).2.1 (by decide)
  have hsar := (hshift tx (operating 0x1d words 3) #[] rfl (by decide) (by decide)).2.2 (by decide)
  obtain ⟨-, hextend, -⟩ := bit_moves_exact (.ofNat 0x1ff) .zero
  obtain ⟨-, -, hsame, hbyte, -⟩ := bit_moves_exact (.ofNat 0x1ff) (.ofNat 31)
  obtain ⟨-, -, -, -, hnone⟩ := bit_moves_exact (.ofNat 0x1ff) (.ofNat 32)
  refine ⟨?_, ?_, ?_, (hextend (by decide)).trans (by decide), hsame (by decide),
    (hbyte (by decide)).trans (by decide), hnone (by decide)⟩
  · obtain ⟨g, w, hg, hw, h⟩ := hshl
    exact ⟨g, w, hg, hw, h.trans (by decide)⟩
  · obtain ⟨g, w, hg, hw, h⟩ := hshr
    exact ⟨g, w, hg, hw, h.trans (by decide)⟩
  · obtain ⟨g, w, hg, hw, h⟩ := hsar
    exact ⟨g, w, hg, hw, Int.ofNat_inj.1 (h.trans (by decide))⟩

/-- A power is that of the numbers modulo `2 ^ 256`, with `0 ^ 0 = 1`. It takes one turn of square
and multiply for each significant bit of the exponent, and costs ten and fifty for each significant
byte of it; with less, there is nothing to put on the stack. -/
theorem exp_exact_and_priced (a e : Word) :
    (a.pow e).toNat = a.toNat ^ e.toNat % 2 ^ 256 ∧
    a.pow e = ((Word.powTurn e)^[e.bitLength] ⟨0, a, .one⟩).acc ∧
    IsLeast {n | e.toNat < 2 ^ n} e.bitLength ∧
    IsLeast {n | e.toNat < 256 ^ n} e.byteLength ∧
    ∀ (tx : Tx) (f : Frame) (ws : Array Word), f.opcode? = some .exp →
      f.stack.words = (ws.push e).push a → ws.size < Stack.limit →
      (10 + 50 * e.byteLength ≤ f.gasLeft → ∃ g, step tx f = .ok .next g ∧
        g.stack.words = ws.push (a.pow e) ∧ g.gasLeft = f.gasLeft - (10 + 50 * e.byteLength) ∧
        g.profile = (f.profile.add .opcodeBase 10).add .exponent (50 * e.byteLength)) ∧
      (f.gasLeft < 10 + 50 * e.byteLength →
        ∃ n g, step tx f = .error (.outOfGas n g.gasLeft) g) := by
  refine ⟨a.toNat_pow e, a.pow_eq_turns e, e.isLeast_bitLength, e.isLeast_byteLength,
    fun tx f ws hop hw hroom => ⟨fun hg => ?_, fun hg => step_exp_trap hop hw hroom hg⟩⟩
  refine ⟨_, step_exp hop hw hroom hg, rfl, ?_, rfl⟩
  exact Nat.sub_sub f.gasLeft 10 (50 * e.byteLength)

/-- Two to the 256th power wraps to zero, for 110 units of gas and no less. -/
theorem exp_exact_and_priced_wrapping :
    let tx : Tx := ⟨.standard, .zero⟩
    let words : Array Word := #[.ofNat 256, .ofNat 2]
    (∃ g, step tx (operating 0x0a words 110) = .ok .next g ∧ g.stack.words = #[.zero] ∧
      g.gasLeft = 0) ∧
    ∃ n g, step tx (operating 0x0a words 109) = .error (.outOfGas n g.gasLeft) g := by
  intro tx words
  obtain ⟨hpow, -, -, -, hstep⟩ := exp_exact_and_priced (.ofNat 2) (.ofNat 256)
  have hzero : (Word.ofNat 2).pow (.ofNat 256) = .zero :=
    Word.toNat_inj.1 (hpow.trans (by decide))
  constructor
  · obtain ⟨g, hg, hw, hleft, -⟩ := (hstep tx (operating 0x0a words 110) #[] (by decide) rfl
      (by decide)).1 (by decide)
    exact ⟨g, hg, by rw [hw, hzero]; rfl, hleft.trans (by decide)⟩
  · exact (hstep tx (operating 0x0a words 109) #[] (by decide) rfl (by decide)).2 (by decide)

end ParticleChain.Evm
