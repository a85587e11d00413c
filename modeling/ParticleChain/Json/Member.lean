import ParticleChain.Json.Value

/-!
# Reading values

A structure is written as an object with its fields, or as an array of them in order. An
object may have other fields too, but none of its own twice; an array has no others.
-/

namespace ParticleChain.Json

def toText? : Json → Option String
  | text s => s
  | _ => none

def toInt? : Json → Option Int
  | number n => n
  | _ => none

def toUInt32? (v : Json) : Option UInt32 := do
  let n ← v.toInt?
  if 0 ≤ n ∧ n ≤ 0xffffffff then some n.toNat.toUInt32 else none

def toInt32? (v : Json) : Option Int32 := do
  let n ← v.toInt?
  if -0x80000000 ≤ n ∧ n ≤ 0x7fffffff then some (Int32.ofInt n) else none

def toList? {α : Type} (read : Json → Option α) : Json → Option (List α)
  | array items => items.mapM read
  | _ => none

/-- The values of a key among fields. -/
def valuesOf (key : String) (fields : List (Option String × Json)) : List Json :=
  fields.filterMap fun (k, v) => if k = some key then some v else none

/-- The field values of a structure with the given keys, in their order; `none` for a field
that is not there. -/
def members? (keys : List String) : Json → Option (List (Option Json))
  | array items =>
    if items.length ≤ keys.length then
      some (items.map some ++ List.replicate (keys.length - items.length) none)
    else none
  | object fields =>
    if fields.all fun (k, _) => k.isSome then
      keys.mapM fun k => match valuesOf k fields with
        | [] => some none
        | [v] => some (some v)
        | _ => none
    else none
  | _ => none

/-- A list that may be left out when it is empty. -/
def orEmpty {α : Type} (read : Json → Option (List α)) : Option Json → Option (List α)
  | none => some []
  | some v => read v

end ParticleChain.Json
