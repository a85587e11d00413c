import ParticleChain.Config
import ParticleChain.Evm.Run
import ParticleChain.Node.Bytecode

/-!
# The node

A chain of one world, on which every transaction is a block of its own. Contracts are created
with one fixed salt, so a contract's address is known from its sender and its init code. A node that
has stopped answers no request.
-/

namespace ParticleChain

namespace Node

/-- The contracts that everything else goes through. -/
structure EntryPoints where
  registry : Address
  runner : Address
  deriving DecidableEq

end Node

structure Node where
  isRunning : Bool
  world : Evm.World
  block : Evm.Block
  /-- The gas of a request for which no other amount is given. -/
  gasLimit : Nat
  entryPoints : Option Node.EntryPoints

namespace Node

/-- The salt of every contract that is deployed. -/
def salt : Word := Keccak.hash "message_salt_42".toUTF8

/-- The account that deploys the entry points. -/
def genesis : Address := .ofBytes "genesis".toUTF8

def console : Address := .ofBytes "console.log".toUTF8

def amount (n : Nat) : Word := .ofUInt64 n.toUInt64

/-- A node whose genesis and console accounts have balance. -/
def start (c : Config) : Node where
  isRunning := true
  world :=
    let funded := some (Evm.Account.withBalance (amount c.gasLimit))
    (Evm.World.empty.setAccount genesis funded).setAccount console funded
  block := { Evm.Block.standard with chainId := c.chainId, gasLimit := c.gasLimit }
  gasLimit := c.gasLimit
  entryPoints := none

/-- The registry contract; zero as long as there is none. -/
def registry (n : Node) : Address := (n.entryPoints.map EntryPoints.registry).getD .zero

def runner (n : Node) : Address := (n.entryPoints.map EntryPoints.runner).getD .zero

/-! ## Accounts -/

def balance? (n : Node) (a : Address) : Option Word :=
  if n.isRunning then (n.world.account? a).map Evm.Account.balance else none

def setAccount (n : Node) (a : Address) (x : Evm.Account) : Node :=
  { n with world := n.world.setAccount a (some x) }

/-- Creates an account. -/
def addAccount (n : Node) (a : Address) (balance : Nat) : Except AccountError Node :=
  if !n.isRunning then .error .closed
  else match n.world.account? a with
    | some _ => .error (.alreadyExists a)
    | none => .ok (n.setAccount a (.withBalance (amount balance)))

/-- Gives an account another balance. -/
def setBalance (n : Node) (a : Address) (balance : Nat) : Except AccountError Node :=
  if !n.isRunning then .error .closed
  else match n.world.account? a with
    | none => .error (.missing a)
    | some x => .ok (n.setAccount a { x with balance := amount balance })

/-! ## Transactions -/

/-- Runs a transaction. -/
def transact (n : Node) (m : Evm.Message) : Evm.Outcome × Node :=
  let receipt := Evm.transact n.block n.world m
  (receipt.outcome, { n with world := receipt.world })

/-- Creates a contract from init code, which the arguments of its constructor follow. -/
def create (n : Node) (code args : ByteArray) (sender : Address) (gas value : Nat) :
    Except Error Address × Node :=
  let (o, n) := n.transact (.salted sender (code ++ args) salt gas (amount value))
  if o.status.isSuccess then
    match o.created with
    | some a => (.ok a, n)
    | none => (.error (.deploy .failure "creation returned no address" .empty), n)
  else (.error (.ofCreation o), n)

/-- Creates a contract from init code given as text. -/
def deploy (n : Node) (text : String) (args : ByteArray) (sender : Address) (gas value : Nat) :
    Except Error Address × Node :=
  if !n.isRunning then (.error .closed, n)
  else match parseBytecode text with
    | .error e => (.error e, n)
    | .ok code => n.create code args sender gas value

/-- Calls a contract and returns its output. -/
def call (n : Node) (sender callee : Address) (input : ByteArray) (gas value : Nat) :
    Except Error ByteArray × Node :=
  if callee.isZero then (.error (.call .invalidInput "recipient is the zero address" .empty), n)
  else if !n.isRunning then (.error .closed, n)
  else
    let (o, n) := n.transact (.plainCall sender callee input gas (amount value))
    if o.status.isSuccess then (.ok o.output, n) else (.error (.ofCall o), n)

end Node

end ParticleChain
