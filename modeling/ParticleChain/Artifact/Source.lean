import ParticleChain.Artifact.Definition

/-!
# Contract sources

Each definition is wrapped in a contract derived from the base contract of its kind, whose
constructor registers it under its name. A body takes as many arguments as the highest index
it uses asks for.
-/

namespace ParticleChain.Artifact

inductive SourceError where
  /-- The digits of an index that is too high. -/
  | argumentIndex (digits : String)
  deriving DecidableEq, Repr

def SourceError.message : SourceError → String
  | .argumentIndex digits => s!"argument index `{digits}` is out of range"

/-! ## Arguments -/

def indexValue (digits : List Char) : Nat :=
  digits.foldl (fun n c => n * 10 + (c.toNat - 48)) 0

/-- One past the highest `N` in an `args[N]`, or `count` if that is higher. -/
def countArgs (limit : Nat) (count : UInt32) : List Char → Except SourceError UInt32
  | [] => .ok count
  | 'a' :: 'r' :: 'g' :: 's' :: '[' :: r =>
    let digits := r.takeWhile Char.isDigit
    if digits.isEmpty || (r.dropWhile Char.isDigit).head? != some ']' then countArgs limit count r
    else
      let index := indexValue digits
      if index ≤ limit && index < UInt64.size then
        countArgs limit (max count (index.toUInt32 + 1)) r
      else .error (.argumentIndex (String.ofList digits))
  | _ :: r => countArgs limit count r

/-- The number of arguments of a body, none of whose indices may be above `limit`. -/
def argsCount (body : String) (limit : Nat) : Except SourceError UInt32 :=
  countArgs limit 0 body.toList

/-! ## Contracts -/

def lines (l : List String) : String := "\n".intercalate l

def license : String := "//SPDX-License-Identifier: MIT"

def quotedName (name : String) : String := "\"" ++ name ++ "\""

def call (function : String) (args : List String) : String :=
  function ++ "(" ++ ", ".intercalate args ++ ")"

def opening (name base : String) : String := s!"contract {name} is {base}\x7b"

/-- The constructor of a contract, up to its body. -/
def constructor (base name : String) (args : List String) : String :=
  "constructor(address registryAddr) " ++ call base ("registryAddr" :: quotedName name :: args)
    ++ " \x7b"

def argumentCheck : String :=
  "require(args.length == this.getArgsCount(), \"wrong number of arguments\");"

namespace Transformation

def maxIndex : Nat := 0xfffffffe

def source (t : Transformation) : Except SourceError String := do
  let args ← argsCount t.body maxIndex
  return lines [
    license,
    "pragma solidity ^0.8.0;",
    "import \"transformation/TransformationBase.sol\";",
    opening t.name "TransformationBase",
    constructor "TransformationBase" t.name [toString args.toNat] ++ "\x7d",
    "function run(uint32 x, uint32 [] calldata args) view external returns (uint32)\x7b",
    argumentCheck,
    t.body,
    "\x7d",
    "\x7d"]

end Transformation

def pragmaRange : String := "pragma solidity >=0.8.2 <0.9.0;"

namespace Condition

def maxIndex : Nat := 0x7fffffff

def source (c : Condition) : Except SourceError String := do
  let args ← argsCount c.body maxIndex
  return lines [
    license,
    pragmaRange,
    "import \"condition/ConditionBase.sol\";",
    opening c.name "ConditionBase",
    constructor "ConditionBase" c.name [toString args.toNat] ++ "\x7d",
    "function check(int32 [] calldata args) view external returns (bool)\x7b",
    argumentCheck,
    c.body,
    "\x7d",
    "\x7d"]

end Condition

namespace Feature

/-- The line for a transformation along the axis `i`. -/
def applicationLine (i : Nat) (a : Application) : String :=
  let args := if a.args.isEmpty then []
    else ["[" ++ ", ".intercalate (a.args.map fun n => s!"uint32({n.toNat})") ++ "]"]
  call "getCallDef().push" (toString i :: quotedName a.transformation :: args) ++ ";\n"

def applicationLines (f : Feature) : String :=
  String.join (f.dimensions.zipIdx.flatMap fun (d, i) => d.applications.map (applicationLine i))

def source (f : Feature) : String :=
  lines [
    license,
    pragmaRange,
    "import \"feature/FeatureBase.sol\";",
    opening f.name "FeatureBase",
    constructor "FeatureBase" f.name [toString f.dimensions.length],
    applicationLines f ++ "super.init();",
    "\x7d",
    "\x7d"]

end Feature

namespace Particle

/-- The function that returns the elements of a list, assigned one by one. -/
def listFunction (type list : String) (elements : List String) : String :=
  let assignments := elements.zipIdx.map fun (e, i) => s!"{list}[{i}] = {e};\n"
  let length := elements.length
  s!"function _{list}() internal pure returns ({type}[] memory {list}) \x7b" ++
    s!"{list} = new {type}[]({length});" ++ String.join assignments ++ "\x7d"

def source (p : Particle) : String :=
  lines [
    license,
    pragmaRange,
    "import \"particle/ParticleBase.sol\";",
    opening p.name "ParticleBase",
    listFunction "uint32" "compositeDimIds" (p.composites.map fun (i, _) => s!"uint32({i.toNat})"),
    listFunction "string" "compositeNames" (p.composites.map fun (_, name) => quotedName name),
    listFunction "int32" "conditionArgs" (p.conditionArgs.map fun n => s!"int32({n.toInt})"),
    constructor "ParticleBase" p.name [
      quotedName p.feature, "_compositeDimIds()", "_compositeNames()", quotedName p.condition,
      "_conditionArgs()"] ++ "\x7d",
    "\x7d"]

end Particle

/-- The contract source of a definition. -/
def Definition.source : {k : Kind} → Definition k → Except SourceError String
  | .transformation, d => Transformation.source d
  | .condition, d => Condition.source d
  | .feature, d => .ok (Feature.source d)
  | .particle, d => .ok (Particle.source d)

end ParticleChain.Artifact
