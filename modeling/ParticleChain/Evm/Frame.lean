import ParticleChain.Evm.Memory
import ParticleChain.Evm.Message
import ParticleChain.Evm.Stack
import ParticleChain.Evm.View

/-!
# Call frames

A frame is a message with its running code: program counter, stack, memory, gas, and the view
of the world it writes to. `Exec` are its actions; a trap leaves the frame as it was when it
struck, for the profile of the transaction goes on from there.
-/

namespace ParticleChain.Evm

structure Frame where
  message : Message
  code : ByteArray
  /-- Which offsets of the code may be jumped to. -/
  dests : Array Bool
  pc : Nat
  stack : Stack
  memory : Memory
  gas : Meter
  /-- The output of the last callee. -/
  returned : ByteArray
  logs : Array Log
  view : View
  profile : Profile

/-- Marks each `JUMPDEST` from `pc` on that is no immediate byte of a `PUSHn`. -/
def markDests (code : ByteArray) (pc : Nat) (marks : Array Bool) : Array Bool :=
  if h : pc < code.size then
    let b := code[pc]
    if b = 0x5b then markDests code (pc + 1) (marks.setIfInBounds pc true)
    else if 0x60 ≤ b ∧ b ≤ 0x7f then markDests code (pc + 1 + (b.toNat - 0x5f)) marks
    else markDests code (pc + 1) marks
  else marks
  termination_by code.size - pc

def jumpDests (code : ByteArray) : Array Bool :=
  markDests code 0 (Array.replicate code.size false)

namespace Frame

def start (m : Message) (code : ByteArray) (view : View) (profile : Profile) : Frame where
  message := m
  code := code
  dests := jumpDests code
  pc := 0
  stack := .empty
  memory := .empty
  gas := .full m.gas
  returned := .empty
  logs := #[]
  view := view
  profile := profile

/-- The gas the frame has left. -/
def gasLeft (f : Frame) : Nat := f.gas.remaining

end Frame

abbrev Exec := EStateM Trap Frame

namespace Exec

/-- Traps unless a condition holds. -/
def ensure (b : Bool) (t : Trap) : Exec Unit := if b then pure () else throw t

/-- A machine number, which must not exceed 64 bits. -/
def bounded (n : Nat) : Exec Nat := if n ≤ maxAmount then pure n else throw .fault

def onStack (x : StackM α) : Exec α := fun f =>
  let s := f.stack
  let f := { f with stack := .empty }
  match x s with
  | .ok a s => .ok a { f with stack := s }
  | .error t s => .error t { f with stack := s }

def onMeter (x : EStateM Trap Meter α) : Exec α := fun f =>
  match x f.gas with
  | .ok a m => .ok a { f with gas := m }
  | .error t m => .error t { f with gas := m }

def push (w : Word) : Exec Unit := onStack (Stack.push w)

def pop : Exec Word := onStack Stack.pop

def pop2 : Exec (Word × Word) := onStack Stack.pop2

def pop3 : Exec (Word × Word × Word) := onStack Stack.pop3

def pop4 : Exec (Word × Word × Word × Word) := onStack Stack.pop4

/-- Spends gas without booking it: it goes to a callee, whose own charges are booked. -/
def spend (n : Nat) : Exec Unit := onMeter (Meter.charge n)

/-- Spends gas and books it. -/
def charge (c : Category) (n : Nat) : Exec Unit := do
  spend n
  modify fun f => { f with profile := f.profile.add c n }

def gasLeft : Exec Nat := return (← get).gas.remaining

def setPc (n : Nat) : Exec Unit := modify fun f => { f with pc := n }

/-- Charges for a range of memory and grows over it; none for a zero length. -/
def touch (offset length : Word) : Exec (Option (Nat × Nat)) := do
  match Memory.range offset length with
  | .error t => throw t
  | .ok none => return none
  | .ok (some (o, n)) =>
    let _ ← bounded (o + n)
    let cost := (← get).memory.expansionGas o n
    charge .memory cost
    modify fun f => { f with memory := f.memory.grow o n }
    return some (o, n)

/-- The bytes of a range within the memory. -/
def readMemory (o n : Nat) : Exec ByteArray := do
  ensure (o + n ≤ (← get).memory.size) .fault
  return (← get).memory.slice o n

def loadWord (o : Nat) : Exec Word := do
  ensure (o + 32 ≤ (← get).memory.size) .fault
  return (← get).memory.loadWord o

/-- Overwrites a range within the memory. -/
def writeMemory (o : Nat) (b : ByteArray) : Exec Unit := do
  ensure (o + b.size ≤ (← get).memory.size) .fault
  modify fun f => { f with memory := f.memory.store o b }

/-- The bytes of a range of memory, which is grown over it. -/
def memorySlice (offset length : Word) : Exec ByteArray := do
  match ← touch offset length with
  | none => return .empty
  | some (o, n) => readMemory o n

/-- Copies from `start` in the zero extension of `source` to a range of memory. -/
def copyToMemory (dest length : Word) (source : ByteArray) (start : Word) : Exec Unit := do
  match ← touch dest length with
  | none => return ()
  | some (o, n) =>
    charge .copy (← bounded (Price.copyWord * wordCount n))
    writeMemory o (Memory.excerpt source start n)

/-- Goes on at a jump destination. -/
def jump (target : Word) : Exec Unit := do
  match target.size? with
  | none => throw (.badJump target)
  | some d =>
    ensure ((← get).dests.getD d false) (.badJump target)
    setPc d

/-- Fails in a static context. -/
def requireMutable (mnemonic : String) : Exec Unit := do
  ensure (!(← get).message.isStatic) (.staticViolation mnemonic)

def onView (g : View → View) : Exec Unit := modify fun f => { f with view := g f.view }

end Exec

end ParticleChain.Evm
