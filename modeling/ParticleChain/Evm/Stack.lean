import ParticleChain.Evm.Trap

/-!
# The operand stack

At most 1024 words. `require` checks what an instruction takes and puts before it runs, and
remembers its name for the traps of the operations that follow.
-/

namespace ParticleChain.Evm

/-- The words of a stack, the top one last, and the instruction that works on it. -/
structure Stack where
  words : Array Word
  mnemonic : String

abbrev StackM := EStateM Trap Stack

namespace Stack

def limit : Nat := 1024

def empty : Stack := ⟨#[], ""⟩

def size (s : Stack) : Nat := s.words.size

def underflow (s : Stack) (needed : Nat) : Trap := .stackUnderflow s.mnemonic needed s.size

/-- Whether an instruction can take `pops` words and put `pushes` back. -/
def require (mnemonic : String) (pops pushes : Nat) : StackM Unit := fun s =>
  let s := { s with mnemonic }
  if s.size < pops then .error (s.underflow pops) s
  else if limit < s.size - pops + pushes then .error (.stackOverflow mnemonic) s
  else .ok () s

def push (w : Word) : StackM Unit := fun s =>
  if s.size < limit then .ok () { s with words := s.words.push w }
  else .error (.stackOverflow s.mnemonic) s

def pop : StackM Word := fun s =>
  if h : 0 < s.words.size then .ok (s.words.back h) { s with words := s.words.pop }
  else .error (s.underflow 1) s

/-- Whether `n` words are there. -/
def need (n : Nat) : StackM Unit := fun s =>
  if s.size < n then .error (s.underflow n) s else .ok () s

/-- The top two words, the top one first. -/
def pop2 : StackM (Word × Word) := do
  need 2
  let a ← pop
  let b ← pop
  return (a, b)

def pop3 : StackM (Word × Word × Word) := do
  need 3
  let a ← pop
  let b ← pop
  let c ← pop
  return (a, b, c)

def pop4 : StackM (Word × Word × Word × Word) := do
  need 4
  let a ← pop
  let b ← pop
  let c ← pop
  let d ← pop
  return (a, b, c, d)

/-- Copies the `n`-th word, the top one being the first. -/
def dup (n : Nat) : StackM Unit := fun s =>
  if s.size < n then .error (s.underflow n) s
  else match s.words[s.size - n]? with
    | some w => push w s
    | none => .error (s.underflow n) s

/-- Exchanges the top word with the one `n` below it. -/
def swap (n : Nat) : StackM Unit := fun s =>
  if 0 < n ∧ n < s.words.size then
    .ok () { s with words := s.words.swapIfInBounds (s.words.size - 1) (s.words.size - 1 - n) }
  else .error (s.underflow (n + 1)) s

end Stack

end ParticleChain.Evm
