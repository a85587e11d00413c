import ParticleChain.Abi.Reader

/-!
# Samples

What the runner contract returns: for each path of the particle tree, the values along it.
-/

namespace ParticleChain.Sampling

structure Samples where
  path : String
  data : List UInt32
  deriving DecidableEq, Repr

/-- A `(string path, uint32[] data)`, whose offsets count from its start. -/
def readTuple (b : ByteArray) (tuple : Nat) : Except Abi.DecodeError Samples := do
  let path ← Abi.readOffset b tuple tuple
  let data ← Abi.readOffset b (← Abi.position (tuple + 32)) tuple
  return ⟨← Abi.readString b path, ← Abi.readUInt32s b data⟩

/-- The samples in a `(string path, uint32[] data)[]`. -/
def readSamples (b : ByteArray) : Except Abi.DecodeError (List Samples) := do
  Abi.readItems readTuple b (← Abi.readOffset b 0 0)

end ParticleChain.Sampling
