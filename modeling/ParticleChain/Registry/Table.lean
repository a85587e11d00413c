import Std.Data.TreeMap
import Std.Data.TreeSet
import ParticleChain.Address
import ParticleChain.Artifact.Definition

/-!
# Registry tables

The published records of one kind. A name has a bucket of records by address and the history
of these addresses, the newest last; neither is ever empty. An owner has the set of the names
it published.
-/

namespace ParticleChain.Registry

open Artifact (Kind Record)

structure Table (k : Kind) where
  buckets : Std.TreeMap String (Std.TreeMap Address (Record k))
  histories : Std.TreeMap String (List Address)
  owned : Std.TreeMap Address (Std.TreeSet String)

namespace Table

variable {k : Kind}

def empty : Table k := ⟨∅, ∅, ∅⟩

instance : EmptyCollection (Table k) := ⟨empty⟩

instance : Inhabited (Table k) := ⟨empty⟩

/-- The records of a name. -/
def bucket (t : Table k) (name : String) : Std.TreeMap Address (Record k) := t.buckets.getD name ∅

/-- The addresses of a name, in the order of their insertion. -/
def history (t : Table k) (name : String) : List Address := t.histories.getD name []

def hasBucket (t : Table k) (name : String) : Bool := t.buckets.contains name

/-- Whether any record has the name. -/
def has (t : Table k) (name : String) : Bool := !(t.bucket name).isEmpty

def get? (t : Table k) (name : String) (address : Address) : Option (Record k) :=
  (t.bucket name)[address]?

def newestAddress? (t : Table k) (name : String) : Option Address := (t.history name).getLast?

def newest? (t : Table k) (name : String) : Option (Record k) :=
  (t.newestAddress? name).bind (t.get? name)

def ownedBy (t : Table k) (owner : Address) : Std.TreeSet String := t.owned.getD owner ∅

/-- The number of records. -/
def size (t : Table k) : Nat := t.buckets.foldl (fun n _ b => n + b.size) 0

def insert (t : Table k) (address owner : Address) (r : Record k) : Table k where
  buckets := t.buckets.insert r.name ((t.bucket r.name).insert address r)
  histories := t.histories.insert r.name (t.history r.name ++ [address])
  owned := t.owned.insert owner ((t.ownedBy owner).insert r.name)

/-- The sets of names without one name of one owner. -/
def disown (t : Table k) (owner : Address) (name : String) :
    Std.TreeMap Address (Std.TreeSet String) :=
  if t.owned.contains owner then
    let names := (t.ownedBy owner).erase name
    if names.isEmpty then t.owned.erase owner else t.owned.insert owner names
  else t.owned

/-- Takes a record out. The one before it becomes the newest if it was; the name leaves the
owner's set if no record left under it has the owner written the same way. -/
def remove (t : Table k) (name : String) (address : Address) : Table k :=
  match t.get? name address with
  | none => t
  | some r =>
    let bucket := (t.bucket name).erase address
    let history := (t.history name).filter (· != address)
    { buckets := if bucket.isEmpty then t.buckets.erase name else t.buckets.insert name bucket
      histories :=
        if history.isEmpty then t.histories.erase name else t.histories.insert name history
      owned :=
        if bucket.values.any (·.owner == r.owner) then t.owned
        else match Address.parse r.owner with
          | .ok owner => t.disown owner name
          | .error _ => t.owned }

end Table

end ParticleChain.Registry
