import ParticleChain.Evm.Message
import ParticleChain.Node.Fault
import ParticleChain.Revert

/-!
# Failed requests

Why the node did not deploy a contract or make a call. What the code returned is kept, since
the contracts say in it why they reverted.
-/

namespace ParticleChain.Node

inductive DeployFault where
  | invalidBytecode
  | reverted
  | outOfGas
  | failure
  | addressCollision
  | insufficientBalance
  | unreadable
  deriving DecidableEq, Repr

def DeployFault.label : DeployFault → String
  | invalidBytecode => "INVALID_BYTECODE"
  | reverted => "REVERT"
  | outOfGas => "OUT_OF_GAS"
  | failure => "FAILURE"
  | addressCollision => "ADDRESS_COLLISION"
  | insufficientBalance => "INSUFFICIENT_BALANCE"
  | unreadable => "IO"

inductive CallFault where
  | invalidInput
  | reverted
  | outOfGas
  | failure
  | insufficientBalance
  deriving DecidableEq, Repr

def CallFault.label : CallFault → String
  | invalidInput => "INVALID_INPUT"
  | reverted => "REVERT"
  | outOfGas => "OUT_OF_GAS"
  | failure => "FAILURE"
  | insufficientBalance => "INSUFFICIENT_BALANCE"

inductive Error where
  | deploy (fault : DeployFault) (reason : String) (output : ByteArray)
  | call (fault : CallFault) (reason : String) (output : ByteArray)
  /-- The node has stopped. -/
  | closed
  deriving DecidableEq

namespace Error

def message : Error → String
  | deploy fault reason _ =>
    let label := fault.label
    s!"deploy failed ({label}): {reason}"
  | call fault reason _ =>
    let label := fault.label
    s!"execute failed ({label}): {reason}"
  | closed => "engine is not running"

/-- What the code returned, if it ran. -/
def output : Error → ByteArray
  | deploy _ _ output | call _ _ output => output
  | closed => .empty

/-- The contract's own reason. -/
def revert? (e : Error) : Option Revert := Revert.decode? e.output

def fault : Error → Fault
  | deploy .invalidBytecode _ _ | call .invalidInput _ _ => .invalidInput
  | deploy .unreadable _ _ | closed => .rpcError
  | deploy .. | call .. => .transactionReverted

/-- A creation that did not succeed. -/
def ofCreation (o : Evm.Outcome) : Error :=
  match o.status with
  | .success => deploy .failure "unexpected success" o.output
  | .reverted => deploy .reverted "constructor reverted" o.output
  | .failed t =>
    let fault := match t with
      | .outOfGas .. => .outOfGas
      | .addressCollision _ => .addressCollision
      | .insufficientBalance => .insufficientBalance
      | _ => .failure
    deploy fault t.message o.output

/-- A call that did not succeed. -/
def ofCall (o : Evm.Outcome) : Error :=
  match o.status with
  | .success => call .failure "unexpected success" o.output
  | .reverted => call .reverted "call reverted" o.output
  | .failed t =>
    let fault := match t with
      | .outOfGas .. => .outOfGas
      | .insufficientBalance => .insufficientBalance
      | _ => .failure
    call fault t.message o.output

end Error

inductive AccountError where
  | alreadyExists (address : Address)
  | missing (address : Address)
  | closed
  deriving DecidableEq

def AccountError.message : AccountError → String
  | alreadyExists address =>
    let text := address.render
    s!"account {text} already exists"
  | missing address =>
    let text := address.render
    s!"account {text} does not exist"
  | closed => "engine is not running"

end ParticleChain.Node
