import ParticleChain.Address

/-!
# Contract arguments

Arguments and results of contracts are written in words of 32 bytes. A static value is one
word. A dynamic value (a string or a list) stands in the tail, a length word first, and its
place in the head holds the offset of its tail. `Slot.join` lays out head and tail.
-/

namespace ParticleChain.Abi

inductive Value where
  | address (a : Address)
  | uint32 (n : UInt32)
  | int32 (n : Int32)
  | bool (b : Bool)
  | bytes32 (w : Word)
  | uint256 (w : Word)
  | string (s : String)
  | uint32List (ns : List UInt32)
  | pairList (ps : List (UInt32 × UInt32))
  deriving DecidableEq

/-- The word of a 64-bit size. -/
def sizeWord (n : Nat) : ByteArray := (Word.ofUInt64 n.toUInt64).toBytes

/-- The word of an unsigned number of 32 bits. -/
def uint32Word (n : UInt32) : ByteArray := (Word.ofUInt64 n.toUInt64).toBytes

/-- The word of a signed number, its sign carried on to the top. -/
def int32Word (n : Int32) : ByteArray :=
  let fill : UInt64 := if n < 0 then -1 else 0
  (Word.mk n.toInt64.toUInt64 fill fill fill).toBytes

namespace Value

def isDynamic : Value → Bool
  | string _ | uint32List _ | pairList _ => true
  | _ => false

/-- The word of a static value; length and elements of a dynamic one. -/
def encode : Value → ByteArray
  | address a => a.toWord.toBytes
  | uint32 n => uint32Word n
  | int32 n => int32Word n
  | bool b => (Word.ofBool b).toBytes
  | bytes32 w => w.toBytes
  | uint256 w => w.toBytes
  | string s => sizeWord s.utf8ByteSize ++ Bytes.padRight s.toUTF8
  | uint32List ns => ns.foldl (fun b n => b ++ uint32Word n) (sizeWord ns.length)
  | pairList ps =>
    ps.foldl (fun b p => b ++ uint32Word p.1 ++ uint32Word p.2) (sizeWord ps.length)

end Value

/-- An argument as it is laid out. -/
inductive Slot where
  /-- The word of a static value, which stands in the head. -/
  | static (word : ByteArray)
  /-- The body of a dynamic value, which stands in the tail and has its offset in the head. -/
  | dynamic (body : ByteArray)

namespace Slot

/-- The number of bytes in the head. -/
def headSize : Slot → Nat
  | static word => word.size
  | dynamic _ => 32

/-- The number of bytes in the head of some slots. -/
def headLength (slots : List Slot) : Nat := slots.foldr (fun s n => s.headSize + n) 0

/-- Head and tail of some slots, the first body standing at offset `start`. -/
def layout : Nat → List Slot → ByteArray × ByteArray
  | _, [] => (.empty, .empty)
  | start, static word :: r =>
    let (head, tail) := layout start r
    (word ++ head, tail)
  | start, dynamic body :: r =>
    let (head, tail) := layout (start + body.size) r
    (sizeWord start ++ head, body ++ tail)

/-- The head of some slots and then their tail; offsets count from the start of the head. -/
def join (slots : List Slot) : ByteArray :=
  let (head, tail) := layout (headLength slots) slots
  head ++ tail

end Slot

def Value.slot (v : Value) : Slot := if v.isDynamic then .dynamic v.encode else .static v.encode

/-- The number of bytes in the head of some arguments. -/
def headLength (args : List Value) : Nat := Slot.headLength (args.map Value.slot)

def encodeArgs (args : List Value) : ByteArray := Slot.join (args.map Value.slot)

/-- The call of the function with a signature: its selector, then its arguments. -/
def encodeCall (signature : String) (args : List Value) : ByteArray :=
  Keccak.selector signature ++ encodeArgs args

end ParticleChain.Abi
