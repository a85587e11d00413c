import ParticleChain.Sampling.Request
import ParticleChain.Site

/-!
# Sampling a particle

A request is sent to the runner contract on behalf of a sender, who is given the gas for it,
as is the runner.
-/

namespace ParticleChain.Sampling

def maxCount : UInt32 := 65536

def signature : String := "gen(string,uint32,(uint32,uint32)[])"

inductive Error where
  | tooMany (count : UInt32)
  | notBootstrapped
  | account (reason : Node.AccountError)
  /-- The contract said why there are no samples. -/
  | reverted (reason : Revert)
  | call (reason : Node.Error)
  | output (reason : Abi.DecodeError)
  deriving DecidableEq

namespace Error

def message : Error → String
  | tooMany count =>
    let limit := maxCount.toNat
    s!"samples_count {count.toNat} is too large (max {limit})"
  | notBootstrapped => "runner is not deployed"
  | account reason =>
    let text := reason.message
    s!"account setup failed: {text}"
  | reverted reason =>
    let text := reason.render
    s!"runner reverted with {text}"
  | call reason =>
    let text := reason.message
    s!"failed to execute code: {text}"
  | output reason =>
    let text := reason.message
    s!"failed to decode samples: {text}"

def ofCall (e : Node.Error) : Error :=
  match e.revert? with
  | some reason => reverted reason
  | none => call e

end Error

def Request.input (q : Request) : ByteArray :=
  Abi.encodeCall signature [.string q.particle, .uint32 q.count, .pairList q.pairs]

/-- Gives an account a balance. -/
def supply (a : Address) : Work Error Unit :=
  Site.onNode fun n =>
    match n.setBalance a n.gasLimit with
    | .ok n => (.ok (), n)
    | .error e => (.error (.account e), n)

/-- Sends a request to a runner. -/
def generateAt (runner sender : Address) (q : Request) : Work Error (List Samples) := do
  unless q.count ≤ maxCount do throw (.tooMany q.count)
  (Site.ensureAccount sender).adaptExcept .account
  supply sender
  supply runner
  let output ← (Site.onNode fun n =>
    n.call sender runner q.input n.gasLimit 0).adaptExcept .ofCall
  match readSamples output with
  | .ok samples => return samples
  | .error e => throw (.output e)

/-- Sends a request to the runner of the node. -/
def generate (sender : Address) (q : Request) : Work Error (List Samples) := do
  let runner := (← get).node.runner
  if runner.isZero then throw .notBootstrapped else generateAt runner sender q

end ParticleChain.Sampling
