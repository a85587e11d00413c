import ParticleChain.Address
import Std.Data.TreeMap

/-!
# World state

Accounts and storage slots. A slot that is not there reads as zero, and no slot that is there
holds zero. Removing an account removes its slots.
-/

namespace ParticleChain.Evm

/-- The code hash of an account without code. -/
def emptyCodeHash : Word := Keccak.hash .empty

structure Account where
  nonce : Nat
  balance : Word
  code : ByteArray
  codeHash : Word
  deriving DecidableEq

namespace Account

/-- An account without nonce, balance and code. -/
def fresh : Account := ⟨0, .zero, .empty, emptyCodeHash⟩

def withBalance (balance : Word) : Account := { fresh with balance }

def setCode (a : Account) (code : ByteArray) : Account :=
  { a with code, codeHash := Keccak.hash code }

/-- No nonce, no balance and no code. -/
def isEmpty (a : Account) : Bool := a.nonce == 0 && a.balance.isZero && a.code.size == 0

end Account

/-- A storage slot: the account it belongs to and its key. -/
@[ext] structure Slot where
  owner : Address
  key : Word
  deriving DecidableEq

namespace Slot

/-- By owner, then by key. -/
def cmp : Slot → Slot → Ordering := compareLex (compareOn owner) (compareOn key)

instance : Ord Slot := ⟨cmp⟩

instance : Std.TransOrd Slot := inferInstanceAs (Std.TransCmp (compareLex _ _))

instance : Std.LawfulEqOrd Slot where
  compare_self {s} := by
    change (compare s.owner s.owner).then (compare s.key s.key) = .eq
    rw [Std.ReflOrd.compare_self, Std.ReflOrd.compare_self]
    rfl
  eq_of_compare {s t} h := by
    have h' : (compare s.owner t.owner).then (compare s.key t.key) = .eq := h
    rw [Ordering.then_eq_eq] at h'
    exact Slot.ext (Std.LawfulEqOrd.eq_of_compare h'.1) (Std.LawfulEqOrd.eq_of_compare h'.2)

end Slot

structure World where
  accounts : Std.TreeMap Address Account
  storage : Std.TreeMap Slot Word

namespace World

def empty : World := ⟨∅, ∅⟩

def account? (w : World) (a : Address) : Option Account := w.accounts[a]?

def slot (w : World) (s : Slot) : Word := w.storage[s]?.getD .zero

/-- Creates, replaces or removes an account. -/
def setAccount (w : World) (a : Address) : Option Account → World
  | some x => { w with accounts := w.accounts.insert a x }
  | none =>
    { accounts := w.accounts.erase a, storage := w.storage.filter fun s _ => s.owner != a }

def setSlot (w : World) (s : Slot) (v : Word) : World :=
  if v.isZero then { w with storage := w.storage.erase s }
  else { w with storage := w.storage.insert s v }

end World

end ParticleChain.Evm
