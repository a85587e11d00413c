import ParticleChain.Artifact.Source
import ParticleChain.Artifact.Validation
import ParticleChain.Publishing.Layout
import ParticleChain.Site

/-!
# Why publishing fails

Each cause has a class, which callers tell apart, and a text.
-/

namespace ParticleChain.Publishing

open Artifact (Kind)

inductive Error where
  | invalid (reason : Artifact.Invalid)
  | badOwner (owner : String) (reason : Address.ParseError)
  | source (reason : Artifact.SourceError)
  | unwritable (file : Path) (reason : Disk.Error)
  | compiler (k : Kind) (name : String) (reason : Compiler.Error)
  | noBinary (name : String)
  | unfunded (reason : Node.AccountError)
  /-- The contract said why it cannot be created. -/
  | reverted (reason : Revert)
  | deploy (reason : Node.Error)
  | ownerCall (reason : Node.Error)
  | ownerOutput (reason : Abi.DecodeError)
  | foreignOwner (contract actual expected : Address)
  | rejected (reason : Registry.Rejection)
  | unsaved (k : Kind) (name : String) (reason : SaveError)
  /-- The builds of another version cannot be removed. -/
  | staleBuilds (reason : Disk.Error)
  | unlisted (k : Kind) (reason : Disk.Error)
  | notLoaded (k : Kind) (failed total : Nat)
  | several (reasons : List Error)

namespace Error

/-- The class of a failure. -/
def label : Error → String
  | invalid _ | source _ | foreignOwner .. => "INVALID_DATA"
  | badOwner .. => "INVALID_ADDRESS"
  | compiler .. | noBinary _ => "COMPILATION_ERROR"
  | reverted reason => reason.kind.label
  | unwritable .. | unfunded _ | deploy _ | ownerCall _ | ownerOutput _ | rejected _ | unsaved .. |
    staleBuilds _ | unlisted .. | notLoaded .. | several _ => "GENERIC_ERROR"

mutual

def detail : Error → String
  | invalid reason => reason.message
  | badOwner owner reason =>
    let text := reason.message
    s!"owner `{owner}`: {text}"
  | source reason => reason.message
  | unwritable file reason =>
    let path := file.render
    let text := reason.message
    s!"cannot write {path}: {text}"
  | compiler k name reason =>
    let kind := k.label
    let text := reason.message
    s!"{kind} `{name}`: {text}"
  | noBinary name => s!"compiler produced no binary for `{name}`"
  | unfunded reason => reason.message
  | reverted reason => reason.render
  | deploy reason =>
    let fault := reason.fault.label
    let text := reason.message
    s!"{fault}: {text}"
  | ownerCall reason =>
    let text := reason.message
    s!"getOwner() failed: {text}"
  | ownerOutput reason =>
    let text := reason.message
    s!"getOwner() output: {text}"
  | foreignOwner contract actual expected =>
    let place := contract.render
    let owner := actual.render
    let other := expected.render
    s!"contract {place} is owned by {owner}, not {other}"
  | rejected reason => reason.message
  | unsaved k name reason =>
    let kind := k.label
    let text := reason.message
    s!"failed to persist {kind} `{name}`: {text}"
  | staleBuilds reason =>
    let text := reason.message
    s!"build cache cleanup failed: {text}"
  | unlisted k reason =>
    let kinds := k.plural
    let text := reason.message
    s!"cannot scan {kinds}: {text}"
  | notLoaded k failed total =>
    let kinds := k.plural
    s!"{failed} of {total} stored {kinds} failed to load"
  | several reasons => "; ".intercalate (details reasons)

def details : List Error → List String
  | [] => []
  | e :: rest => e.detail :: details rest

end

def message (e : Error) : String := e.label ++ ": " ++ e.detail

end Error

end ParticleChain.Publishing
