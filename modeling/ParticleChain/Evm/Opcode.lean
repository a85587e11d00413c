import ParticleChain.Word.Division

/-!
# Instructions

The instructions of the Shanghai revision, grouped by what they do with the stack. The table
`plain` and the four families `PUSHn`, `DUPn`, `SWAPn` and `LOGn` fix byte, name, static gas
and stack shape of each; `Opcode.ofByte?` reads it backwards.
-/

namespace ParticleChain.Evm

/-- Instructions that replace two words by one, the top of the stack being the first. -/
inductive Binary where
  | add | mul | sub | div | sdiv | mod | smod | signExtend
  | lt | gt | slt | sgt | eq | and | or | xor | byte | shl | shr | sar
  deriving DecidableEq

/-- Instructions that push a word the frame or the block knows. -/
inductive Query where
  | address | origin | caller | callValue | callDataSize | codeSize | gasPrice | returnDataSize
  | coinbase | timestamp | number | prevRandao | gasLimit | chainId | selfBalance | baseFee
  | pc | memorySize | gas
  deriving DecidableEq

/-- Instructions that replace an address by a word of its account. -/
inductive AccountQuery where
  | balance | codeSize | codeHash
  deriving DecidableEq

/-- What is copied to memory. -/
inductive CopySource where
  | callData | code | returnData | accountCode
  deriving DecidableEq

/-- The four ways to call an account. -/
inductive CallKind where
  | call | callCode | delegateCall | staticCall
  deriving DecidableEq

inductive Opcode where
  | stop
  | binary (o : Binary)
  | isZero | not
  | addMod | mulMod
  | exp
  | keccak
  | query (q : Query)
  | account (q : AccountQuery)
  | callDataLoad
  | copy (s : CopySource)
  | blockHash
  | pop
  | mload | mstore | mstore8
  | sload | sstore
  | jump | jumpIf | jumpDest
  | push (n : Fin 33)
  /-- `dup n` copies the word below `n` others. -/
  | dup (n : Fin 16)
  /-- `swap n` exchanges the top with the word below `n` others under it. -/
  | swap (n : Fin 16)
  | log (topics : Fin 5)
  | create | create2
  | call (k : CallKind)
  | ret | revert
  | invalid
  | selfDestruct
  deriving DecidableEq

/-- Name, words taken from and put on the stack, and static gas of an instruction. -/
structure Shape where
  mnemonic : String
  pops : Nat
  pushes : Nat
  gas : Nat

namespace Binary

def apply : Binary → Word → Word → Word
  | add, a, b => a + b
  | mul, a, b => a * b
  | sub, a, b => a - b
  | div, a, b => a / b
  | sdiv, a, b => a.signedDiv b
  | mod, a, b => a % b
  | smod, a, b => a.signedMod b
  | signExtend, b, x => x.signExtend b
  | lt, a, b => .ofBool (a.lt b)
  | gt, a, b => .ofBool (b.lt a)
  | slt, a, b => .ofBool (a.signedCmp b == .lt)
  | sgt, a, b => .ofBool (a.signedCmp b == .gt)
  | eq, a, b => .ofBool (a == b)
  | and, a, b => a &&& b
  | or, a, b => a ||| b
  | xor, a, b => a ^^^ b
  | byte, i, x => x.byte i
  | shl, s, x => x <<< s.shiftAmount
  | shr, s, x => x >>> s.shiftAmount
  | sar, s, x => x.shiftRightSigned s.shiftAmount

def mnemonic : Binary → String
  | add => "ADD" | mul => "MUL" | sub => "SUB" | div => "DIV" | sdiv => "SDIV"
  | mod => "MOD" | smod => "SMOD" | signExtend => "SIGNEXTEND"
  | lt => "LT" | gt => "GT" | slt => "SLT" | sgt => "SGT" | eq => "EQ"
  | and => "AND" | or => "OR" | xor => "XOR" | byte => "BYTE"
  | shl => "SHL" | shr => "SHR" | sar => "SAR"

def gas : Binary → Nat
  | mul | div | sdiv | mod | smod | signExtend => 5
  | _ => 3

end Binary

namespace Query

def mnemonic : Query → String
  | address => "ADDRESS" | origin => "ORIGIN" | caller => "CALLER" | callValue => "CALLVALUE"
  | callDataSize => "CALLDATASIZE" | codeSize => "CODESIZE" | gasPrice => "GASPRICE"
  | returnDataSize => "RETURNDATASIZE" | coinbase => "COINBASE" | timestamp => "TIMESTAMP"
  | number => "NUMBER" | prevRandao => "PREVRANDAO" | gasLimit => "GASLIMIT"
  | chainId => "CHAINID" | selfBalance => "SELFBALANCE" | baseFee => "BASEFEE"
  | pc => "PC" | memorySize => "MSIZE" | gas => "GAS"

end Query

namespace Opcode

/-- The name of the `n`-th instruction of a family. -/
def numbered (family : String) (n : Nat) : String := family ++ toString n

def shape : Opcode → Shape
  | stop => ⟨"STOP", 0, 0, 0⟩
  | binary o => ⟨o.mnemonic, 2, 1, o.gas⟩
  | isZero => ⟨"ISZERO", 1, 1, 3⟩
  | not => ⟨"NOT", 1, 1, 3⟩
  | addMod => ⟨"ADDMOD", 3, 1, 8⟩
  | mulMod => ⟨"MULMOD", 3, 1, 8⟩
  | exp => ⟨"EXP", 2, 1, 10⟩
  | keccak => ⟨"KECCAK256", 2, 1, 30⟩
  | query q => ⟨q.mnemonic, 0, 1, if q = .selfBalance then 5 else 2⟩
  | account .balance => ⟨"BALANCE", 1, 1, 100⟩
  | account .codeSize => ⟨"EXTCODESIZE", 1, 1, 100⟩
  | account .codeHash => ⟨"EXTCODEHASH", 1, 1, 100⟩
  | callDataLoad => ⟨"CALLDATALOAD", 1, 1, 3⟩
  | copy .callData => ⟨"CALLDATACOPY", 3, 0, 3⟩
  | copy .code => ⟨"CODECOPY", 3, 0, 3⟩
  | copy .returnData => ⟨"RETURNDATACOPY", 3, 0, 3⟩
  | copy .accountCode => ⟨"EXTCODECOPY", 4, 0, 100⟩
  | blockHash => ⟨"BLOCKHASH", 1, 1, 20⟩
  | pop => ⟨"POP", 1, 0, 2⟩
  | mload => ⟨"MLOAD", 1, 1, 3⟩
  | mstore => ⟨"MSTORE", 2, 0, 3⟩
  | mstore8 => ⟨"MSTORE8", 2, 0, 3⟩
  | sload => ⟨"SLOAD", 1, 1, 100⟩
  | sstore => ⟨"SSTORE", 2, 0, 0⟩
  | jump => ⟨"JUMP", 1, 0, 8⟩
  | jumpIf => ⟨"JUMPI", 2, 0, 10⟩
  | jumpDest => ⟨"JUMPDEST", 0, 0, 1⟩
  | push n => ⟨numbered "PUSH" n, 0, 1, if n = 0 then 2 else 3⟩
  | dup n => ⟨numbered "DUP" (n + 1), n + 1, n + 2, 3⟩
  | swap n => ⟨numbered "SWAP" (n + 1), n + 2, n + 2, 3⟩
  | log n => ⟨numbered "LOG" n, n + 2, 0, 375 * (n + 1)⟩
  | create => ⟨"CREATE", 3, 1, 32000⟩
  | create2 => ⟨"CREATE2", 4, 1, 32000⟩
  | call .call => ⟨"CALL", 7, 1, 100⟩
  | call .callCode => ⟨"CALLCODE", 7, 1, 100⟩
  | call .delegateCall => ⟨"DELEGATECALL", 6, 1, 100⟩
  | call .staticCall => ⟨"STATICCALL", 6, 1, 100⟩
  | ret => ⟨"RETURN", 2, 0, 0⟩
  | revert => ⟨"REVERT", 2, 0, 0⟩
  | invalid => ⟨"INVALID", 0, 0, 0⟩
  | selfDestruct => ⟨"SELFDESTRUCT", 1, 0, 5000⟩

/-- The number of bytes after the instruction that belong to it. -/
def immediate : Opcode → Nat
  | push n => n
  | _ => 0

/-- The instructions outside the families, by byte. -/
def plain? (b : UInt8) : Option Opcode :=
  match b.toNat with
  | 0x00 => some stop
  | 0x01 => some (binary .add)
  | 0x02 => some (binary .mul)
  | 0x03 => some (binary .sub)
  | 0x04 => some (binary .div)
  | 0x05 => some (binary .sdiv)
  | 0x06 => some (binary .mod)
  | 0x07 => some (binary .smod)
  | 0x08 => some addMod
  | 0x09 => some mulMod
  | 0x0a => some exp
  | 0x0b => some (binary .signExtend)
  | 0x10 => some (binary .lt)
  | 0x11 => some (binary .gt)
  | 0x12 => some (binary .slt)
  | 0x13 => some (binary .sgt)
  | 0x14 => some (binary .eq)
  | 0x15 => some isZero
  | 0x16 => some (binary .and)
  | 0x17 => some (binary .or)
  | 0x18 => some (binary .xor)
  | 0x19 => some not
  | 0x1a => some (binary .byte)
  | 0x1b => some (binary .shl)
  | 0x1c => some (binary .shr)
  | 0x1d => some (binary .sar)
  | 0x20 => some keccak
  | 0x30 => some (query .address)
  | 0x31 => some (account .balance)
  | 0x32 => some (query .origin)
  | 0x33 => some (query .caller)
  | 0x34 => some (query .callValue)
  | 0x35 => some callDataLoad
  | 0x36 => some (query .callDataSize)
  | 0x37 => some (copy .callData)
  | 0x38 => some (query .codeSize)
  | 0x39 => some (copy .code)
  | 0x3a => some (query .gasPrice)
  | 0x3b => some (account .codeSize)
  | 0x3c => some (copy .accountCode)
  | 0x3d => some (query .returnDataSize)
  | 0x3e => some (copy .returnData)
  | 0x3f => some (account .codeHash)
  | 0x40 => some blockHash
  | 0x41 => some (query .coinbase)
  | 0x42 => some (query .timestamp)
  | 0x43 => some (query .number)
  | 0x44 => some (query .prevRandao)
  | 0x45 => some (query .gasLimit)
  | 0x46 => some (query .chainId)
  | 0x47 => some (query .selfBalance)
  | 0x48 => some (query .baseFee)
  | 0x50 => some pop
  | 0x51 => some mload
  | 0x52 => some mstore
  | 0x53 => some mstore8
  | 0x54 => some sload
  | 0x55 => some sstore
  | 0x56 => some jump
  | 0x57 => some jumpIf
  | 0x58 => some (query .pc)
  | 0x59 => some (query .memorySize)
  | 0x5a => some (query .gas)
  | 0x5b => some jumpDest
  | 0xf0 => some create
  | 0xf1 => some (call .call)
  | 0xf2 => some (call .callCode)
  | 0xf3 => some ret
  | 0xf4 => some (call .delegateCall)
  | 0xf5 => some create2
  | 0xfa => some (call .staticCall)
  | 0xfd => some revert
  | 0xfe => some invalid
  | 0xff => some selfDestruct
  | _ => none

/-- The instruction of a byte. -/
def ofByte? (b : UInt8) : Option Opcode :=
  let n := b.toNat
  if h : 0x5f ≤ n ∧ n < 0x80 then some (push ⟨n - 0x5f, by omega⟩)
  else if h : 0x80 ≤ n ∧ n < 0x90 then some (dup ⟨n - 0x80, by omega⟩)
  else if h : 0x90 ≤ n ∧ n < 0xa0 then some (swap ⟨n - 0x90, by omega⟩)
  else if h : 0xa0 ≤ n ∧ n < 0xa5 then some (log ⟨n - 0xa0, by omega⟩)
  else plain? b

end Opcode

end ParticleChain.Evm
