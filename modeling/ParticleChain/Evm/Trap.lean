import ParticleChain.Address

/-!
# Exceptional halts

Whatever ends a frame exceptionally consumes its gas and discards its writes. A `REVERT` is
none of these.
-/

namespace ParticleChain.Evm

inductive Trap where
  /-- No instruction has this byte. -/
  | invalidOpcode (byte : UInt8) (offset : Nat)
  /-- The instruction `INVALID`. -/
  | designatedInvalid (offset : Nat)
  | badJump (target : Word)
  | stackUnderflow (mnemonic : String) (needed available : Nat)
  | stackOverflow (mnemonic : String)
  | outOfGas (needed remaining : Nat)
  | memoryLimit
  /-- A copy of return data up to byte `stop` of `size`. -/
  | returnDataOutOfBounds (stop size : Nat)
  | staticViolation (mnemonic : String)
  | callTooDeep
  | insufficientBalance
  | addressCollision (address : Address)
  | codeTooLarge (size limit : Nat)
  /-- Deployed code must not start with the byte `0xef`. -/
  | reservedCode
  | nonceOverflow
  /-- A machine number or an index out of its range, which no run has. -/
  | fault
  deriving DecidableEq

def Trap.message : Trap → String
  | invalidOpcode byte offset =>
    let digits := Hex.encode (Bytes.ofList [byte])
    s!"invalid opcode 0x{digits} at offset {offset}"
  | designatedInvalid offset => s!"designated invalid instruction at offset {offset}"
  | badJump target =>
    let digits := Hex.encode target.toBytes
    s!"invalid jump destination 0x{digits}"
  | stackUnderflow mnemonic needed available =>
    s!"stack underflow: {mnemonic} needs {needed} items, {available} available"
  | stackOverflow mnemonic => s!"stack overflow at {mnemonic}"
  | outOfGas needed remaining => s!"out of gas: needed {needed}, remaining {remaining}"
  | memoryLimit => "memory access out of range"
  | returnDataOutOfBounds stop size => s!"return data read out of bounds: {stop} > {size}"
  | staticViolation mnemonic => s!"{mnemonic} not allowed in static context"
  | callTooDeep => "call depth limit exceeded"
  | insufficientBalance => "insufficient balance for transfer"
  | addressCollision address =>
    let text := address.render
    s!"contract address collision at {text}"
  | codeTooLarge size limit => s!"code size {size} exceeds limit {limit}"
  | reservedCode => "deployed code starts with reserved byte 0xef"
  | nonceOverflow => "nonce overflow"
  | fault => "machine fault"

end ParticleChain.Evm
