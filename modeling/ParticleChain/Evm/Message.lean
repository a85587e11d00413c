import ParticleChain.Evm.Opcode
import ParticleChain.Evm.Gas

/-!
# Messages and outcomes

A message starts a frame: a call of an account, or the creation of a contract whose init code
is the input. An outcome is what its sender learns.
-/

namespace ParticleChain.Evm

/-- What contracts can read about the block. -/
structure Block where
  chainId : Nat
  number : Nat
  timestamp : Nat
  gasLimit : Nat
  coinbase : Address
  baseFee : Word
  gasPrice : Word
  prevRandao : Word

def Block.standard : Block := ⟨1, 1, 0, blockGasLimit, .zero, .zero, .zero, .zero⟩

/-- How a frame is entered. -/
inductive Entry where
  | call (k : CallKind)
  | create
  | create2 (salt : Word)
  deriving DecidableEq

namespace Entry

def creates : Entry → Bool
  | call _ => false
  | create | create2 _ => true

/-- Whether entering moves the value of the message. -/
def movesValue : Entry → Bool
  | call .call | call .callCode | create | create2 _ => true
  | call .delegateCall | call .staticCall => false

end Entry

structure Message where
  entry : Entry
  /-- The sender the code sees; the deployer of a creation. -/
  caller : Address
  /-- Whose storage and balance the code works on. Ignored for a creation. -/
  address : Address
  /-- Whose code runs. Ignored for a creation. -/
  codeAddress : Address
  value : Word
  input : ByteArray
  gas : Nat
  isStatic : Bool
  depth : Nat

namespace Message

/-- A plain call. -/
def plainCall (caller callee : Address) (input : ByteArray) (gas : Nat) (value : Word) : Message :=
  ⟨.call .call, caller, callee, callee, value, input, gas, false, 0⟩

/-- A salted creation. -/
def salted (caller : Address) (init : ByteArray) (salt : Word) (gas : Nat) (value : Word) :
    Message :=
  ⟨.create2 salt, caller, .zero, .zero, value, init, gas, false, 0⟩

end Message

/-- What a `LOGn` instruction emits. -/
structure Log where
  address : Address
  topics : List Word
  data : ByteArray
  deriving DecidableEq

inductive Status where
  | success
  /-- `REVERT`: the writes are discarded and the gas left is returned. -/
  | reverted
  /-- The writes are discarded and the gas is consumed. -/
  | failed (t : Trap)
  deriving DecidableEq

def Status.isSuccess (s : Status) : Bool := s == .success

structure Outcome where
  status : Status
  gasLeft : Nat
  /-- Return or revert data; empty for a creation that succeeds. -/
  output : ByteArray
  created : Option Address
  logs : Array Log

namespace Outcome

def failure (t : Trap) (gasLeft : Nat) : Outcome := ⟨.failed t, gasLeft, .empty, none, #[]⟩

/-- The call of an account without code. -/
def nothingRun (gasLeft : Nat) : Outcome := ⟨.success, gasLeft, .empty, none, #[]⟩

end Outcome

/-! ## Addresses of new contracts -/

/-- How many of the 64 bits of a number stand before the first that is set. -/
def leadingZeros (n : Nat) : Nat := if n = 0 then 64 else 63 - n.log2

/-- The lowest `k` bytes of a number, the highest first. -/
def lowBytes : Nat → Nat → List UInt8
  | 0, _ => []
  | k + 1, n => (n >>> (8 * k)).toUInt8 :: lowBytes k n

/-- The eight bytes of a number without those that are zero in front. -/
def minimalBytes (n : Nat) : List UInt8 := (lowBytes 8 n).drop (leadingZeros n / 8)

/-- A nonce as a list item: a small byte stands for itself, longer ones have a length prefix. -/
def nonceItem (nonce : Nat) : List UInt8 :=
  match minimalBytes nonce with
  | [] => [0x80]
  | [b] => if b < 0x80 then [b] else [0x81, b]
  | bytes => (0x80 + bytes.length).toUInt8 :: bytes

/-- The list of a sender and its nonce. -/
def createPreimage (sender : Address) (nonce : Nat) : ByteArray :=
  let item := nonceItem nonce
  Bytes.ofList [(0xc0 + (21 + item.length)).toUInt8, 0x94] ++ sender.toBytes ++ Bytes.ofList item

/-- The address of a contract that `sender` creates with this nonce. -/
def createAddress (sender : Address) (nonce : Nat) : Address :=
  .ofWord (Keccak.hash (createPreimage sender nonce))

def create2Preimage (sender : Address) (salt initHash : Word) : ByteArray :=
  Bytes.ofList [0xff] ++ sender.toBytes ++ salt.toBytes ++ initHash.toBytes

/-- The address of a contract that `sender` creates from init code with a salt. -/
def create2Address (sender : Address) (salt : Word) (init : ByteArray) : Address :=
  .ofWord (Keccak.hash (create2Preimage sender salt (Keccak.hash init)))

end ParticleChain.Evm
