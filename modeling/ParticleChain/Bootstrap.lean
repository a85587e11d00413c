import ParticleChain.Abi.Value
import ParticleChain.Site

/-!
# Bootstrap

Compiles and deploys the registry and the runner, each behind a proxy. The proxies' addresses
are the entry points of the node, which has them once and for all.
-/

namespace ParticleChain.Bootstrap

inductive Error where
  | alreadyDone
  | compile (contract : String) (reason : Compiler.Error)
  | deploy (contract : String) (reason : Node.Error)
  deriving DecidableEq

def Error.message : Error → String
  | alreadyDone => "engine already bootstrapped"
  | compile contract reason =>
    let text := reason.message
    s!"failed to compile {contract}: {text}"
  | deploy contract reason =>
    let text := reason.message
    s!"failed to deploy {contract}: {text}"

section

variable (u : Setup)

/-- Compiles a contract of a directory of the templates. -/
def build (directory contract : String) : Work Error Unit :=
  let c := u.config
  (Site.compile u {
    source := c.contracts / directory / s!"{contract}.sol"
    output := c.built / directory
    base := some c.contracts
    library := some c.modules }).adaptExcept (.compile contract)

def deploy (directory contract : String) (args : List Abi.Value) : Work Error Address :=
  let c := u.config
  (Site.deployFile (c.built / directory / s!"{contract}.bin") (Abi.encodeArgs args) Node.genesis
    c.gasLimit 0).adaptExcept (.deploy contract)

def run : Work Error Node.EntryPoints := do
  let site ← get
  if site.node.entryPoints.isSome then throw .alreadyDone
  build u "registry" "RegistryBase"
  build u "proxy" "PTRegistryProxy"
  let registryBase ← deploy u "registry" "RegistryBase" []
  let registry ← deploy u "proxy" "PTRegistryProxy" [.address registryBase]
  build u "runner" "Runner"
  build u "proxy" "PTContractProxy"
  let runnerBase ← deploy u "runner" "Runner" []
  let runner ← deploy u "proxy" "PTContractProxy" [.address runnerBase, .address registry]
  let entryPoints : Node.EntryPoints := ⟨registry, runner⟩
  modify fun s => { s with node := { s.node with entryPoints := some entryPoints } }
  return entryPoints

end

end ParticleChain.Bootstrap
