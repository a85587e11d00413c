import ParticleChain.Evm.World

/-!
# Views of the world

A call frame writes to a layer of its own. Reads fall through the layers, the innermost first,
down to the world; a layer is dropped, or committed to the one below it. In a layer a removed
account is marked as such, and a slot keeps a zero that was written.
-/

namespace ParticleChain.Evm

/-- The writes of one frame; `none` marks a removed account. -/
structure Layer where
  accounts : Std.TreeMap Address (Option Account)
  storage : Std.TreeMap Slot Word

def Layer.empty : Layer := ⟨∅, ∅⟩

/-- A world under layers of writes, the innermost layer first. -/
structure View where
  layers : List Layer
  base : World

namespace View

def ofWorld (w : World) : View := ⟨[], w⟩

def accountIn (base : World) (a : Address) : List Layer → Option Account
  | [] => base.account? a
  | l :: r => match l.accounts[a]? with
    | some x => x
    | none => accountIn base a r

def account? (v : View) (a : Address) : Option Account := accountIn v.base a v.layers

/-- The account, or a fresh one. -/
def account (v : View) (a : Address) : Account := (v.account? a).getD .fresh

def balance (v : View) (a : Address) : Word := (v.account a).balance

/-- Whether there is no account, or an empty one. -/
def isVacant (v : View) (a : Address) : Bool := (v.account? a).all (·.isEmpty)

def slotIn (base : World) (s : Slot) : List Layer → Word
  | [] => base.slot s
  | l :: r => match l.storage[s]? with
    | some x => x
    | none => slotIn base s r

def slot (v : View) (s : Slot) : Word := slotIn v.base s v.layers

/-- Creates, replaces or removes an account. -/
def setAccount (v : View) (a : Address) (x : Option Account) : View :=
  match v with
  | ⟨[], w⟩ => ⟨[], w.setAccount a x⟩
  | ⟨l :: r, w⟩ => ⟨{ l with accounts := l.accounts.insert a x } :: r, w⟩

def setSlot (v : View) (s : Slot) (x : Word) : View :=
  match v with
  | ⟨[], w⟩ => ⟨[], w.setSlot s x⟩
  | ⟨l :: r, w⟩ => ⟨{ l with storage := l.storage.insert s x } :: r, w⟩

/-- Opens a layer. -/
def enter (v : View) : View := { v with layers := .empty :: v.layers }

/-- Writes a layer: the accounts first, then the slots, each in order. -/
def write (v : View) (l : Layer) : View :=
  let v := l.accounts.foldl (fun v a x => v.setAccount a x) v
  l.storage.foldl (fun v s x => v.setSlot s x) v

/-- Closes the innermost layer and discards its writes. -/
def drop (v : View) : View := { v with layers := v.layers.tail }

/-- Closes the innermost layer and writes it below. -/
def commit (v : View) : View :=
  match v with
  | ⟨[], _⟩ => v
  | ⟨l :: r, w⟩ => write ⟨r, w⟩ l

/-- Moves a value, if it is not zero; the sender is debited before the recipient is read. -/
def transfer (v : View) (sender recipient : Address) (value : Word) : View :=
  if value.isZero then v
  else
    let s := v.account sender
    let v := v.setAccount sender (some { s with balance := s.balance - value })
    let r := v.account recipient
    v.setAccount recipient (some { r with balance := r.balance + value })

end View

end ParticleChain.Evm
