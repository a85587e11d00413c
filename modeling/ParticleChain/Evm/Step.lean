import ParticleChain.Evm.Frame

/-!
# One instruction

`step` runs the instruction at the program counter. It does not start frames itself: a call or
a creation gives the message of the callee, and `Resume.finish` takes up its outcome later.
-/

namespace ParticleChain.Evm

/-- How code ends by itself. -/
inductive Halt where
  | stop
  | ret (data : ByteArray)
  | revert (data : ByteArray)

/-- What is to be done with the outcome of a callee. -/
inductive Resume where
  /-- The output goes to a range of memory. -/
  | call (out : Option (Nat × Nat))
  | create

/-- How a frame goes on after an instruction. -/
inductive Flow where
  | next
  | halt (h : Halt)
  | enter (m : Message) (r : Resume)

/-- What all frames of a transaction share. -/
structure Tx where
  block : Block
  origin : Address

open Exec

def proceed (x : Exec Unit) : Exec Flow := do
  x
  return .next

/-- The word of 32 bytes of the zero extension. -/
def paddedWord (b : ByteArray) (start : Word) : Word :=
  match start.size? with
  | some i => Bytes.wordAt b i
  | none => .zero

/-- The number in the first `n` of the 32 bytes from `i` on. -/
def immediateWord (code : ByteArray) (i n : Nat) : Word :=
  Bytes.wordAt code i >>> (8 * (32 - n))

def Query.answer (tx : Tx) (offset : Nat) (f : Frame) : Query → Word
  | .address => f.message.address.toWord
  | .origin => tx.origin.toWord
  | .caller => f.message.caller.toWord
  | .callValue => f.message.value
  | .callDataSize => .ofNat f.message.input.size
  | .codeSize => .ofNat f.code.size
  | .gasPrice => tx.block.gasPrice
  | .returnDataSize => .ofNat f.returned.size
  | .coinbase => tx.block.coinbase.toWord
  | .timestamp => .ofNat tx.block.timestamp
  | .number => .ofNat tx.block.number
  | .prevRandao => tx.block.prevRandao
  | .gasLimit => .ofNat tx.block.gasLimit
  | .chainId => .ofNat tx.block.chainId
  | .selfBalance => f.view.balance f.message.address
  | .baseFee => tx.block.baseFee
  | .pc => .ofNat offset
  | .memorySize => .ofNat f.memory.size
  | .gas => .ofNat f.gas.remaining

def AccountQuery.answer (v : View) (a : Address) : AccountQuery → Word
  | .balance => v.balance a
  | .codeSize => .ofNat (v.account a).code.size
  | .codeHash => if v.isVacant a then .zero else (v.account a).codeHash

/-- The end of a range of return data; a range that is none ends at the largest number. -/
def endOfRange (start length : Word) : Nat :=
  match start.size?, length.size? with
  | some s, some n => saturate (s + n)
  | _, _ => maxAmount

/-- Copies code or data to memory. Return data must not be read past its end. -/
def copyFrom : CopySource → Exec Unit
  | .callData => do
    let (dest, start, length) ← pop3
    copyToMemory dest length (← get).message.input start
  | .code => do
    let (dest, start, length) ← pop3
    copyToMemory dest length (← get).code start
  | .returnData => do
    let (dest, start, length) ← pop3
    let stop := endOfRange start length
    ensure (stop ≤ (← get).returned.size) (.returnDataOutOfBounds stop (← get).returned.size)
    copyToMemory dest length (← get).returned start
  | .accountCode => do
    let (who, dest, start, length) ← pop4
    let code := ((← get).view.account (.ofWord who)).code
    copyToMemory dest length code start

/-- What writing a slot costs: most for a slot that was zero before the transaction and is not
written yet. -/
def storageCost (before current value : Word) : Nat :=
  if current == value || before != current then Price.storageWarm
  else if before.isZero then Price.storageSet
  else Price.storageReset

/-- Writes a slot; a frame that has no more gas than a stipend cannot. -/
def writeSlot : Exec Unit := do
  requireMutable "SSTORE"
  let left ← gasLeft
  ensure (Price.stipend < left) (.outOfGas (Price.stipend + 1) left)
  let (key, value) ← pop2
  let f ← get
  let slot : Slot := ⟨f.message.address, key⟩
  charge .storage (storageCost (f.view.base.slot slot) (f.view.slot slot) value)
  onView (·.setSlot slot value)

/-- Pops `n` words, the top one first. -/
def popTopics : Nat → Exec (List Word)
  | 0 => return []
  | n + 1 => do
    let t ← pop
    return t :: (← popTopics n)

def emitLog (topics : Fin 5) : Exec Unit := do
  requireMutable (Opcode.log topics).shape.mnemonic
  let (offset, length) ← pop2
  let topics ← popTopics topics
  let data ← memorySlice offset length
  charge .log (← bounded (Price.logByte * data.size))
  modify fun f => { f with logs := f.logs.push ⟨f.message.address, topics, data⟩ }

/-- The salt of a salted creation is on the stack. -/
def popEntry (salted : Bool) : Exec Entry :=
  if salted then Entry.create2 <$> pop else pure .create

/-- Prepares a creation: the init code comes from memory, all but one 64th of the gas goes to
the new frame. The address of a salted one needs the hash of the init code, which costs. -/
def startCreate (salted : Bool) : Exec Flow := do
  requireMutable (if salted then "CREATE2" else "CREATE")
  let (value, offset, length) ← pop3
  let entry ← popEntry salted
  let init ← memorySlice offset length
  ensure (init.size ≤ maxInitSize) (.codeTooLarge init.size maxInitSize)
  let words := wordCount init.size
  charge .deployment (← bounded (Price.initWord * words))
  charge .copy (← bounded (if salted then Price.hashWord * words else 0))
  let gas := allButOne64th (← gasLeft)
  spend gas
  let m := (← get).message
  return .enter ⟨entry, m.address, .zero, .zero, value, init, gas, false, m.depth + 1⟩ .create

/-- What moving `value` by a call of `callee` costs on top. -/
def callSurcharge (v : View) (k : CallKind) (callee : Address) (value : Word) : Nat :=
  if value.isZero then 0
  else if k == .call && v.isVacant callee then Price.callValue + Price.newAccount
  else Price.callValue

/-- The message of a call from a frame with message `m`. -/
def calleeMessage (m : Message) (k : CallKind) (callee : Address) (value : Word)
    (input : ByteArray) (gas : Nat) : Message :=
  let depth := m.depth + 1
  match k with
  | .call => ⟨.call k, m.address, callee, callee, value, input, gas, m.isStatic, depth⟩
  | .callCode => ⟨.call k, m.address, m.address, callee, value, input, gas, m.isStatic, depth⟩
  | .delegateCall => ⟨.call k, m.caller, m.address, callee, m.value, input, gas, m.isStatic, depth⟩
  | .staticCall => ⟨.call k, m.address, callee, callee, .zero, input, gas, true, depth⟩

/-- Only `CALL` and `CALLCODE` take a value from the stack. -/
def popValue : CallKind → Exec Word
  | .call | .callCode => pop
  | .delegateCall | .staticCall => pure .zero

/-- Prepares a call: at most all but one 64th of the gas goes to the callee, and a stipend on
top if value moves. -/
def startCall (k : CallKind) : Exec Flow := do
  let requested ← pop
  let callee := Address.ofWord (← pop)
  let value ← popValue k
  let (inOffset, inLength, outOffset, outLength) ← pop4
  ensure (!(k == .call && !value.isZero && (← get).message.isStatic)) (.staticViolation "CALL")
  let input ← memorySlice inOffset inLength
  let out ← touch outOffset outLength
  charge .callOverhead (callSurcharge (← get).view k callee value)
  let available := allButOne64th (← gasLeft)
  let forwarded := min (requested.size?.getD available) available
  spend forwarded
  let gas ← bounded (forwarded + if value.isZero then 0 else Price.stipend)
  return .enter (calleeMessage (← get).message k callee value input gas) (.call out)

/-- What removing an account costs on top: its balance may create the beneficiary. -/
def destroySurcharge (v : View) (self beneficiary : Address) : Nat :=
  if !(v.balance self).isZero && v.isVacant beneficiary then Price.newAccount else 0

/-- Moves the balance to the beneficiary and removes the account at once. -/
def destroy : Exec Flow := do
  requireMutable "SELFDESTRUCT"
  let beneficiary := Address.ofWord (← pop)
  let self := (← get).message.address
  charge .callOverhead (destroySurcharge (← get).view self beneficiary)
  onView fun v => (v.transfer self beneficiary (v.balance self)).setAccount self none
  return .halt .stop

/-- Runs the instruction at `offset`, whose static gas is paid; the program counter stands
behind it. -/
def perform (tx : Tx) (offset : Nat) : Opcode → Exec Flow
  | .stop => return .halt .stop
  | .binary o => proceed do
    let (a, b) ← pop2
    push (o.apply a b)
  | .isZero => proceed do push (.ofBool (← pop).isZero)
  | .not => proceed do push (~~~(← pop))
  | .addMod => proceed do
    let (a, b, m) ← pop3
    push (a.addMod b m)
  | .mulMod => proceed do
    let (a, b, m) ← pop3
    push (a.mulMod b m)
  | .exp => proceed do
    let (a, e) ← pop2
    charge .exponent (← bounded (Price.exponentByte * e.byteLength))
    push (a.pow e)
  | .keccak => proceed do
    let (offset, length) ← pop2
    let data ← memorySlice offset length
    charge .copy (← bounded (Price.hashWord * wordCount data.size))
    push (Keccak.hash data)
  | .query q => proceed do push (q.answer tx offset (← get))
  | .account q => proceed do
    let who ← pop
    push (q.answer (← get).view (.ofWord who))
  | .callDataLoad => proceed do
    let start ← pop
    push (paddedWord (← get).message.input start)
  | .copy s => proceed (copyFrom s)
  | .blockHash => proceed do
    let _ ← pop
    push .zero
  | .pop => proceed do
    let _ ← pop
  | .mload => proceed do
    let offset ← pop
    match ← touch offset (.ofNat 32) with
    | some (o, _) => push (← loadWord o)
    | none => push .zero
  | .mstore => proceed do
    let (offset, value) ← pop2
    match ← touch offset (.ofNat 32) with
    | some (o, _) => writeMemory o value.toBytes
    | none => return ()
  | .mstore8 => proceed do
    let (offset, value) ← pop2
    match ← touch offset .one with
    | some (o, _) => writeMemory o (Bytes.ofList [value.w0.toUInt8])
    | none => return ()
  | .sload => proceed do
    let key ← pop
    let f ← get
    push (f.view.slot ⟨f.message.address, key⟩)
  | .sstore => proceed writeSlot
  | .jump => proceed do jump (← pop)
  | .jumpIf => proceed do
    let (target, condition) ← pop2
    if condition.isZero then return () else jump target
  | .jumpDest => return .next
  | .push n => proceed do
    let pc := (← get).pc
    push (immediateWord (← get).code pc n)
    setPc (← bounded (pc + n))
  | .dup n => proceed (onStack (Stack.dup (n + 1)))
  | .swap n => proceed (onStack (Stack.swap (n + 1)))
  | .log topics => proceed (emitLog topics)
  | .create => startCreate false
  | .create2 => startCreate true
  | .call k => startCall k
  | .ret => do
    let (offset, length) ← pop2
    return .halt (.ret (← memorySlice offset length))
  | .revert => do
    let (offset, length) ← pop2
    return .halt (.revert (← memorySlice offset length))
  | .invalid => throw (.designatedInvalid offset)
  | .selfDestruct => destroy

/-- Checks the stack for an instruction and pays its static gas. -/
def prepare (op : Opcode) (offset : Nat) : Exec Unit := do
  let s := op.shape
  onStack (Stack.require s.mnemonic s.pops s.pushes)
  charge .opcodeBase s.gas
  setPc (offset + 1)

/-- Runs the instruction at the program counter; code that runs out stops. -/
def step (tx : Tx) : Exec Flow := do
  let offset := (← get).pc
  let code := (← get).code
  if h : offset < code.size then
    let byte := code[offset]
    match Opcode.ofByte? byte with
    | none => throw (.invalidOpcode byte offset)
    | some op =>
      prepare op offset
      perform tx offset op
  else return .halt .stop

/-- Takes back the gas and the output of a callee, and its logs if it succeeded. -/
def Frame.takeBack (f : Frame) (o : Outcome) : Frame :=
  { f with
    gas := f.gas.reclaim o.gasLeft
    returned := o.output
    logs := if o.status.isSuccess then f.logs ++ o.logs else f.logs }

/-- As much of the output of a callee as fits goes to the range it was asked for. -/
def storeOutput (output : ByteArray) : Option (Nat × Nat) → Exec Unit
  | some (start, n) => writeMemory start (output.extract 0 (min n output.size))
  | none => return ()

/-- Takes up the outcome of a callee and pushes how it went: for a call whether it succeeded,
for a creation the new address or zero. A creation shows only the data of a `REVERT`. -/
def Resume.finish (o : Outcome) : Resume → Exec Unit
  | .call out => do
    modify (·.takeBack o)
    storeOutput o.output out
    push (.ofBool o.status.isSuccess)
  | .create => do
    let output := if o.status == .reverted then o.output else .empty
    modify (·.takeBack { o with output })
    push (if o.status.isSuccess then (o.created.getD .zero).toWord else .zero)

end ParticleChain.Evm
