import ParticleChain.Abi.Reader

/-!
# Revert reasons

The registry contracts revert with errors of their own: the selector of the error's signature,
then one argument. All but one carry the short name of the artifact at fault; a
`RegistryError` carries a code. An argument that does not decode is left out.
-/

namespace ParticleChain

namespace Revert

inductive Kind where
  | invalidInput
  | particleAlreadyRegistered
  | particleMissing
  | particleDimensionsMismatch
  | featureAlreadyRegistered
  | featureMissing
  | transformationAlreadyRegistered
  | transformationArgumentsMismatch
  | transformationMissing
  | conditionAlreadyRegistered
  | conditionArgumentsMismatch
  | conditionMissing
  | registryError
  | conditionNotMet
  deriving DecidableEq, Repr

namespace Kind

def all : List Kind := [
  invalidInput, particleAlreadyRegistered, particleMissing, particleDimensionsMismatch,
  featureAlreadyRegistered, featureMissing, transformationAlreadyRegistered,
  transformationArgumentsMismatch, transformationMissing, conditionAlreadyRegistered,
  conditionArgumentsMismatch, conditionMissing, registryError, conditionNotMet]

def label : Kind → String
  | invalidInput => "INVALID_INPUT"
  | particleAlreadyRegistered => "PARTICLE_ALREADY_REGISTERED"
  | particleMissing => "PARTICLE_MISSING"
  | particleDimensionsMismatch => "PARTICLE_DIMENSIONS_MISMATCH"
  | featureAlreadyRegistered => "FEATURE_ALREADY_REGISTERED"
  | featureMissing => "FEATURE_MISSING"
  | transformationAlreadyRegistered => "TRANSFORMATION_ALREADY_REGISTERED"
  | transformationArgumentsMismatch => "TRANSFORMATION_ARGUMENTS_MISMATCH"
  | transformationMissing => "TRANSFORMATION_MISSING"
  | conditionAlreadyRegistered => "CONDITION_ALREADY_REGISTERED"
  | conditionArgumentsMismatch => "CONDITION_ARGUMENTS_MISMATCH"
  | conditionMissing => "CONDITION_MISSING"
  | registryError => "REGISTRY_ERROR"
  | conditionNotMet => "CONDITION_NOT_MET"

/-- The signature the contracts declare; none of them raises `invalidInput`. -/
def signature? : Kind → Option String
  | invalidInput => none
  | particleAlreadyRegistered => some "ParticleAlreadyRegistered(bytes32)"
  | particleMissing => some "ParticleMissing(bytes32)"
  | particleDimensionsMismatch => some "ParticleDimensionsMismatch(bytes32)"
  | featureAlreadyRegistered => some "FeatureAlreadyRegistered(bytes32)"
  | featureMissing => some "FeatureMissing(bytes32)"
  | transformationAlreadyRegistered => some "TransformationAlreadyRegistered(bytes32)"
  | transformationArgumentsMismatch => some "TransformationArgumentsMismatch(bytes32)"
  | transformationMissing => some "TransformationMissing(bytes32)"
  | conditionAlreadyRegistered => some "ConditionAlreadyRegistered(bytes32)"
  | conditionArgumentsMismatch => some "ConditionArgumentsMismatch(bytes32)"
  | conditionMissing => some "ConditionMissing(bytes32)"
  | registryError => some "RegistryError(uint32)"
  | conditionNotMet => some "ConditionNotMet(bytes32)"

def selector? (k : Kind) : Option ByteArray := k.signature?.map Keccak.selector

end Kind

/-- The declared errors by selector. -/
def selectors : List (ByteArray × Kind) :=
  Kind.all.filterMap fun k => k.selector?.map fun s => (s, k)

/-- The declared error with a selector. -/
def ofSelector? (s : ByteArray) : Option Kind :=
  (selectors.find? fun (t, _) => t == s).map Prod.snd

inductive DecodeError where
  | tooShort
  | unknown (selector : ByteArray)
  deriving DecidableEq

def DecodeError.message : DecodeError → String
  | tooShort => "revert data shorter than a selector"
  | unknown selector =>
    let digits := Hex.encode selector
    s!"unknown error selector 0x{digits}"

end Revert

/-- Why a contract reverted. -/
structure Revert where
  kind : Revert.Kind
  /-- The argument of any error but `registryError`. -/
  name : Option Word
  /-- The argument of `registryError`. -/
  code : Option UInt32
  deriving DecidableEq

namespace Revert

def render (r : Revert) : String :=
  let name := match r.name.bind Word.shortText? with
    | some s => s!"({s})"
    | none => ""
  let code := match r.code with
    | some c => s!"({c.toNat})"
    | none => ""
  r.kind.label ++ name ++ code

/-- The reason in what a frame returned; no bytes give no reason. -/
def decode (output : ByteArray) : Except DecodeError (Option Revert) :=
  if output.isEmpty then .ok none
  else if output.size < 4 then .error .tooShort
  else
    let selector := output.extract 0 4
    match ofSelector? selector with
    | none => .error (.unknown selector)
    | some .registryError => .ok (some ⟨.registryError, none, (Abi.readUInt32 output 4).toOption⟩)
    | some k => .ok (some ⟨k, (Abi.readBytes32 output 4).toOption, none⟩)

/-- The reason, if there is one and it decodes. -/
def decode? (output : ByteArray) : Option Revert :=
  match decode output with
  | .ok r => r
  | .error _ => none

end Revert

end ParticleChain
