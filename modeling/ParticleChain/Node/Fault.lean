/-!
# Classes of failure

What kind of trouble a request ran into, whichever node serves it.
-/

namespace ParticleChain.Node

inductive Fault where
  | invalidConfig
  | invalidInput
  | rpcError
  | rpcMalformed
  | signingError
  | transactionReverted
  | timeout
  deriving DecidableEq, Repr

namespace Fault

def all : List Fault := [
  invalidConfig, invalidInput, rpcError, rpcMalformed, signingError, transactionReverted,
  timeout]

def label : Fault → String
  | invalidConfig => "INVALID_CONFIG"
  | invalidInput => "INVALID_INPUT"
  | rpcError => "RPC_ERROR"
  | rpcMalformed => "RPC_MALFORMED"
  | signingError => "SIGNING_ERROR"
  | transactionReverted => "TRANSACTION_REVERTED"
  | timeout => "TIMEOUT"

end Fault

end ParticleChain.Node
