import ParticleChain.Evm.Gas

/-!
# Frame memory

A byte array that grows by whole words. Operands are checked by `range` first, and memory is
grown over a range before it is read or written there.
-/

namespace ParticleChain.Evm

structure Memory where
  bytes : ByteArray

namespace Memory

/-- No byte from this offset on can be reached. -/
def limit : Nat := 0x100000000

def empty : Memory := ⟨.empty⟩

def size (m : Memory) : Nat := m.bytes.size

/-- The byte range of two operands; none for a zero length, whatever the offset. -/
def range (offset length : Word) : Except Trap (Option (Nat × Nat)) :=
  if length.isZero then .ok none
  else match offset.size?, length.size? with
    | some o, some n => if o + n ≤ limit then .ok (some (o, n)) else .error .memoryLimit
    | _, _ => .error .memoryLimit

/-- The gas for growing over `length` bytes from `offset` on. -/
def expansionGas (m : Memory) (offset length : Nat) : Nat :=
  let current := wordCount m.size
  let needed := wordCount (offset + length)
  if needed ≤ current then 0 else memoryCost needed - memoryCost current

/-- Zeros up to the end of the word that holds the last byte of the range. -/
def grow (m : Memory) (offset length : Nat) : Memory :=
  let size := wordCount (offset + length) * 32
  if m.size < size then ⟨m.bytes ++ Bytes.zeros (size - m.size)⟩ else m

def loadWord (m : Memory) (offset : Nat) : Word := Bytes.wordAt m.bytes offset

def slice (m : Memory) (offset length : Nat) : ByteArray :=
  m.bytes.extract offset (offset + length)

/-- Overwrites the bytes from `offset` on, within the memory. -/
def store (m : Memory) (offset : Nat) (b : ByteArray) : Memory :=
  ⟨b.copySlice 0 m.bytes offset b.size⟩

def storeByte (m : Memory) (offset : Nat) (b : UInt8) : Memory := ⟨m.bytes.set! offset b⟩

/-- The `length` bytes of the zero extension of `source` from `start` on. -/
def excerpt (source : ByteArray) (start : Word) (length : Nat) : ByteArray :=
  match start.size? with
  | some i => Bytes.window source i length
  | none => Bytes.zeros length

/-- Overwrites `length` bytes with those of `source` from `start` on, zero past its end. -/
def copyPadded (m : Memory) (offset : Nat) (source : ByteArray) (start : Word) (length : Nat) :
    Memory :=
  m.store offset (excerpt source start length)

end Memory

end ParticleChain.Evm
