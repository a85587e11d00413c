import ParticleChain.Evm.Trap

/-!
# Gas

Prices, the meter of a frame, and the profile that books what a transaction spends by
category. Amounts are 64-bit numbers; sums in a profile and memory costs stop at the largest
one.
-/

namespace ParticleChain.Evm

/-- The largest amount. -/
def maxAmount : Nat := 0xffffffffffffffff

/-- The amount, or the largest one if it is larger. -/
def saturate (n : Nat) : Nat := min n maxAmount

namespace Price

def transaction : Nat := 21000
def creation : Nat := 32000
def zeroByte : Nat := 4
def dataByte : Nat := 16
def copyWord : Nat := 3
def hashWord : Nat := 6
def exponentByte : Nat := 50
def logByte : Nat := 8
def initWord : Nat := 2
def codeByte : Nat := 200
def storageSet : Nat := 20000
def storageReset : Nat := 2900
def storageWarm : Nat := 100
/-- What a callee gets on top for a call that moves value. -/
def stipend : Nat := 2300
def callValue : Nat := 9000
def newAccount : Nat := 25000

end Price

/-- The most bytes deployed code may have. -/
def maxCodeSize : Nat := 24576

/-- The most bytes init code may have. -/
def maxInitSize : Nat := 2 * maxCodeSize

/-- The gas limit of a block. -/
def blockGasLimit : Nat := 30000000

/-- The number of words that hold `n` bytes. -/
def wordCount (n : Nat) : Nat := (n + 31) / 32

/-- The cost of a memory of `n` words. -/
def memoryCost (n : Nat) : Nat := saturate (saturate (n * 3) + saturate (n * n) / 512)

/-- What a frame may hand to a callee: all but one 64th. -/
def allButOne64th (n : Nat) : Nat := n - n / 64

/-- The cost of a transaction before any instruction runs. -/
def intrinsicGas (input : ByteArray) (creates : Bool) : Nat :=
  let data := input.data.foldl
    (fun n b => n + if b = 0 then Price.zeroByte else Price.dataByte) 0
  let creation :=
    if creates then Price.creation + Price.initWord * wordCount input.size else 0
  Price.transaction + data + creation

/-- The gas of a frame: what it was given and what it has left. -/
structure Meter where
  limit : Nat
  remaining : Nat

namespace Meter

def full (limit : Nat) : Meter := ⟨limit, limit⟩

def used (m : Meter) : Nat := m.limit - m.remaining

def covers (m : Meter) (n : Nat) : Bool := n ≤ m.remaining

/-- Takes `n` away; only for a meter that covers it. -/
def spend (m : Meter) (n : Nat) : Meter := { m with remaining := m.remaining - n }

/-- Takes `n` away, or nothing if less is left. -/
def charge (n : Nat) : EStateM Trap Meter Unit := fun m =>
  if m.covers n then .ok () (m.spend n) else .error (.outOfGas n m.remaining) m

/-- Gives back what a callee has not used. -/
def reclaim (m : Meter) (n : Nat) : Meter :=
  { m with remaining := min (saturate (m.remaining + n)) m.limit }

end Meter

/-- What gas is spent on. -/
inductive Category where
  | intrinsic | opcodeBase | memory | copy | storage | callOverhead | deployment | log | exponent
  deriving DecidableEq

def Category.all : List Category :=
  [.intrinsic, .opcodeBase, .memory, .copy, .storage, .callOverhead, .deployment, .log,
    .exponent]

/-- The name of a category in a profile. -/
def Category.label : Category → String
  | intrinsic => "Intrinsic"
  | opcodeBase => "Opcode Base"
  | memory => "Memory"
  | copy => "Copy"
  | storage => "State Store"
  | callOverhead => "Call Overhead"
  | deployment => "Deployment"
  | log => "Log"
  | exponent => "Exp"

/-- The gas spent in each category. -/
@[ext] structure Profile where
  intrinsic : Nat := 0
  opcodeBase : Nat := 0
  memory : Nat := 0
  copy : Nat := 0
  storage : Nat := 0
  callOverhead : Nat := 0
  deployment : Nat := 0
  log : Nat := 0
  exponent : Nat := 0

namespace Profile

def empty : Profile := {}

def get (p : Profile) : Category → Nat
  | .intrinsic => p.intrinsic
  | .opcodeBase => p.opcodeBase
  | .memory => p.memory
  | .copy => p.copy
  | .storage => p.storage
  | .callOverhead => p.callOverhead
  | .deployment => p.deployment
  | .log => p.log
  | .exponent => p.exponent

def add (p : Profile) (c : Category) (n : Nat) : Profile :=
  match c with
  | .intrinsic => { p with intrinsic := saturate (p.intrinsic + n) }
  | .opcodeBase => { p with opcodeBase := saturate (p.opcodeBase + n) }
  | .memory => { p with memory := saturate (p.memory + n) }
  | .copy => { p with copy := saturate (p.copy + n) }
  | .storage => { p with storage := saturate (p.storage + n) }
  | .callOverhead => { p with callOverhead := saturate (p.callOverhead + n) }
  | .deployment => { p with deployment := saturate (p.deployment + n) }
  | .log => { p with log := saturate (p.log + n) }
  | .exponent => { p with exponent := saturate (p.exponent + n) }

def total (p : Profile) : Nat := Category.all.foldl (fun n c => saturate (n + p.get c)) 0

end Profile

end ParticleChain.Evm
