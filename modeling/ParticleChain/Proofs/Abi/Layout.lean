import ParticleChain.Proofs.Abi.Canonical

/-!
# Head and tail

A slot splits the slots of a layout into those before and those behind it, and with them head and
tail (`layout_append`). Where each slot has one word in the head, the word of a static one stands in
its place there (`holds_static`), and so does the offset of a dynamic one, at which its body stands
(`holds_dynamic`). So each argument is read again from its word in the head (`arguments_read_back`).
-/

namespace ParticleChain.Abi

open Bytes (Holds)

namespace Slot

variable {slots : List Slot} {word body : ByteArray}

/-- The number of bytes in the tail. -/
def tailSize : Slot → Nat
  | static _ => 0
  | dynamic body => body.size

/-- The number of bytes in the tail of some slots. -/
def tailLength (slots : List Slot) : Nat := (slots.map tailSize).sum

theorem headLength_cons (s : Slot) (slots : List Slot) :
    headLength (s :: slots) = s.headSize + headLength slots := rfl

theorem tailLength_cons (s : Slot) (slots : List Slot) :
    tailLength (s :: slots) = s.tailSize + tailLength slots := rfl

theorem tailLength_append (before behind : List Slot) :
    tailLength (before ++ behind) = tailLength before + tailLength behind := by
  rw [tailLength, List.map_append, List.sum_append]
  rfl

theorem layout_static (start : Nat) (word : ByteArray) (slots : List Slot) :
    layout start (static word :: slots) =
      (word ++ (layout start slots).1, (layout start slots).2) := rfl

theorem layout_dynamic (start : Nat) (body : ByteArray) (slots : List Slot) :
    layout start (dynamic body :: slots) =
      (sizeWord start ++ (layout (start + body.size) slots).1,
        body ++ (layout (start + body.size) slots).2) := rfl

theorem size_layout (start : Nat) (slots : List Slot) :
    (layout start slots).1.size = headLength slots ∧
      (layout start slots).2.size = tailLength slots := by
  induction slots generalizing start with
  | nil => exact ⟨rfl, rfl⟩
  | cons s slots ih =>
    cases s with
    | static word =>
      obtain ⟨hhead, htail⟩ := ih start
      rw [layout_static, headLength_cons, tailLength_cons, ByteArray.size_append, hhead, htail]
      exact ⟨rfl, (Nat.zero_add _).symm⟩
    | dynamic body =>
      obtain ⟨hhead, htail⟩ := ih (start + body.size)
      rw [layout_dynamic, headLength_cons, tailLength_cons, ByteArray.size_append,
        ByteArray.size_append, hhead, htail, size_sizeWord]
      exact ⟨rfl, rfl⟩

theorem layout_append (start : Nat) (before behind : List Slot) :
    layout start (before ++ behind) =
      ((layout start before).1 ++ (layout (start + tailLength before) behind).1,
        (layout start before).2 ++ (layout (start + tailLength before) behind).2) := by
  induction before generalizing start with
  | nil =>
    change layout start behind =
      (.empty ++ (layout start behind).1, .empty ++ (layout start behind).2)
    rw [ByteArray.empty_append, ByteArray.empty_append]
  | cons s before ih =>
    cases s with
    | static word =>
      rw [List.cons_append, layout_static, layout_static, ih, tailLength_cons, tailSize,
        Nat.zero_add, ByteArray.append_assoc]
    | dynamic body =>
      rw [List.cons_append, layout_dynamic, layout_dynamic, ih, tailLength_cons, tailSize,
        Nat.add_assoc, ByteArray.append_assoc, ByteArray.append_assoc]

theorem size_join (slots : List Slot) : (join slots).size = headLength slots + tailLength slots := by
  obtain ⟨hhead, htail⟩ := size_layout (headLength slots) slots
  rw [join, ByteArray.size_append, hhead, htail]

/-- What stands in the head and in the tail of some slots. -/
theorem holds_join (slots : List Slot) :
    Holds (join slots) 0 (layout (headLength slots) slots).1 ∧
      Holds (join slots) (headLength slots) (layout (headLength slots) slots).2 := by
  have h := Bytes.holds_append_iff.1 (Bytes.holds_self (join slots))
  rwa [(size_layout (headLength slots) slots).1, Nat.zero_add] at h

/-- What stands in the head and in the tail from a slot on. -/
theorem holds_from (before behind : List Slot) (start : Nat) :
    Holds (layout start (before ++ behind)).1 (headLength before)
        (layout (start + tailLength before) behind).1 ∧
      Holds (layout start (before ++ behind)).2 (tailLength before)
        (layout (start + tailLength before) behind).2 := by
  obtain ⟨hhead, htail⟩ := size_layout start before
  rw [layout_append, ← hhead, ← htail]
  exact ⟨Bytes.holds_append_right _ _, Bytes.holds_append_right _ _⟩

/-- Slots of one word each in the head. -/
theorem headLength_of_words (hwords : ∀ s ∈ slots, s.headSize = 32) :
    headLength slots = 32 * slots.length := by
  induction slots with
  | nil => rfl
  | cons s slots ih =>
    have hrest := ih fun t ht => hwords t (List.mem_cons_of_mem s ht)
    rw [headLength_cons, hwords s List.mem_cons_self, hrest, List.length_cons, Nat.mul_succ,
      Nat.add_comm]

section

variable {i : Nat} (hi : i < slots.length)
include hi

theorem split_at : slots = slots.take i ++ slots[i] :: slots.drop (i + 1) := by
  rw [List.getElem_cons_drop, List.take_append_drop]

/-- If no slot is behind one, its body is the last. -/
theorem tailLength_last (hlast : i + 1 = slots.length) :
    tailLength slots = tailLength (slots.take i) + slots[i].tailSize := by
  conv => lhs; rw [split_at hi, hlast, List.drop_length, tailLength_append]
  rfl

variable (hwords : ∀ s ∈ slots, s.headSize = 32)
include hwords

theorem headLength_take : headLength (slots.take i) = 32 * i := by
  rw [headLength_of_words fun s hs => hwords s (List.mem_of_mem_take hs), List.length_take,
    Nat.min_eq_left (Nat.le_of_lt hi)]

theorem holds_static (hs : slots[i] = static word) : Holds (join slots) (32 * i) word := by
  have hhead := (holds_from (slots.take i) (slots[i] :: slots.drop (i + 1)) (headLength slots)).1
  rw [← split_at hi, hs, layout_static, headLength_take hi hwords] at hhead
  have h := (holds_join slots).1.trans (Bytes.holds_append_iff.1 hhead).1
  rwa [Nat.zero_add] at h

theorem holds_dynamic (hs : slots[i] = dynamic body) :
    Holds (join slots) (32 * i) (sizeWord (headLength slots + tailLength (slots.take i))) ∧
      Holds (join slots) (headLength slots + tailLength (slots.take i)) body := by
  obtain ⟨hhead, htail⟩ :=
    holds_from (slots.take i) (slots[i] :: slots.drop (i + 1)) (headLength slots)
  rw [← split_at hi, hs, layout_dynamic] at hhead htail
  rw [headLength_take hi hwords] at hhead
  have hword := (holds_join slots).1.trans (Bytes.holds_append_iff.1 hhead).1
  rw [Nat.zero_add] at hword
  exact ⟨hword, (holds_join slots).2.trans (Bytes.holds_append_iff.1 htail).1⟩

end

end Slot

/-! ## Arguments -/

/-- The types of arguments. -/
inductive Kind where
  | address | uint32 | int32 | bool | bytes32 | uint256 | string | uint32List | pairList
  deriving DecidableEq

namespace Kind

/-- Reads the argument of a type whose word in the head stands at an offset. The offset in the word
of a dynamic one counts from the start. -/
def read (k : Kind) (b : ByteArray) (place : Nat) : Except DecodeError Value :=
  match k with
  | address => (readAddress b place).map .address
  | uint32 => (readUInt32 b place).map .uint32
  | int32 => (readInt32 b place).map .int32
  | bool => (readBool b place).map .bool
  | bytes32 => (readBytes32 b place).map .bytes32
  | uint256 => (readWord b place).map fun w => .uint256 (Word.ofBytes w)
  | string => do return .string (← readString b (← readOffset b place 0))
  | uint32List => do return .uint32List (← readUInt32s b (← readOffset b place 0))
  | pairList => do return .pairList (← readPairs b (← readOffset b place 0))

end Kind

namespace Value

/-- The type of an argument. -/
def kind : Value → Kind
  | address _ => .address
  | uint32 _ => .uint32
  | int32 _ => .int32
  | bool _ => .bool
  | bytes32 _ => .bytes32
  | uint256 _ => .uint256
  | string _ => .string
  | uint32List _ => .uint32List
  | pairList _ => .pairList

theorem size_encode_static {v : Value} (h : v.isDynamic = false) : v.encode.size = 32 := by
  cases v with
  | address a => exact Word.size_toBytes a.toWord
  | uint32 n => exact size_uint32Word n
  | int32 n => exact size_int32Word n
  | bool x => exact Word.size_toBytes (Word.ofBool x)
  | bytes32 w => exact Word.size_toBytes w
  | uint256 w => exact Word.size_toBytes w
  | string s => cases h
  | uint32List ns => cases h
  | pairList ps => cases h

theorem size_padRight (b : ByteArray) : (Bytes.padRight b).size = Bytes.paddedLength b.size := by
  rw [Bytes.padRight, ByteArray.size_append, Bytes.size_zeros]
  unfold Bytes.paddedLength
  omega

theorem size_encode_string (s : String) :
    (string s).encode.size = 32 + Bytes.paddedLength s.utf8ByteSize := by
  rw [encode, ByteArray.size_append, size_sizeWord, size_padRight]
  rfl

/-- Every argument is written in whole words. -/
theorem dvd_size_encode (v : Value) : 32 ∣ v.encode.size := by
  by_cases h : v.isDynamic
  · cases v with
    | string s =>
      rw [size_encode_string]
      exact Nat.dvd_add_right (Nat.dvd_refl 32) |>.2 (Nat.dvd_mul_left 32 _)
    | uint32List ns =>
      rw [encode_uint32List, size_listBytes size_uint32Word]
      omega
    | pairList ps =>
      rw [encode_pairList, size_listBytes size_pairBytes]
      omega
    | _ => cases h
  · rw [size_encode_static (Bool.eq_false_iff.2 h)]

theorem slot_static {v : Value} (h : v.isDynamic = false) : v.slot = .static v.encode := by
  rw [slot, h]
  rfl

theorem slot_dynamic {v : Value} (h : v.isDynamic = true) : v.slot = .dynamic v.encode := by
  rw [slot, h]
  rfl

theorem headSize_slot (v : Value) : v.slot.headSize = 32 := by
  cases h : v.isDynamic with
  | false =>
    rw [slot_static h]
    exact size_encode_static h
  | true =>
    rw [slot_dynamic h]
    rfl

theorem dvd_tailSize_slot (v : Value) : 32 ∣ v.slot.tailSize := by
  cases h : v.isDynamic with
  | false =>
    rw [slot_static h]
    exact Nat.dvd_zero 32
  | true =>
    rw [slot_dynamic h]
    exact dvd_size_encode v

end Value

theorem headSize_slots (args : List Value) : ∀ s ∈ args.map Value.slot, s.headSize = 32 := by
  intro s hs
  obtain ⟨v, -, rfl⟩ := List.mem_map.1 hs
  exact v.headSize_slot

theorem headLength_eq (args : List Value) : headLength args = 32 * args.length := by
  rw [headLength, Slot.headLength_of_words (headSize_slots args), List.length_map]

/-- The number of bytes in the tail of some arguments. -/
theorem tailLength_eq (args : List Value) : Slot.tailLength (args.map Value.slot) =
    ((args.filter Value.isDynamic).map fun v => v.encode.size).sum := by
  induction args with
  | nil => rfl
  | cons v args ih =>
    rw [List.map_cons, Slot.tailLength_cons, ih]
    cases h : v.isDynamic with
    | false =>
      rw [Value.slot_static h, List.filter_cons_of_neg (by rw [h]; exact Bool.false_ne_true)]
      exact Nat.zero_add _
    | true =>
      rw [Value.slot_dynamic h, List.filter_cons_of_pos h]
      rfl

theorem dvd_tailLength (args : List Value) : 32 ∣ Slot.tailLength (args.map Value.slot) := by
  induction args with
  | nil => exact Nat.dvd_zero 32
  | cons v args ih =>
    rw [List.map_cons, Slot.tailLength_cons]
    exact (Nat.dvd_add_right v.dvd_tailSize_slot).2 ih

/-! ## Reading arguments again -/

theorem readOffset_of_holds {b : ByteArray} {place base n : Nat} (h : Holds b place (sizeWord n))
    (hlt : base + n < UInt64.size) : readOffset b place base = .ok (base + n) := by
  have hn : readSize b place = .ok n := readSize_eq_ok.2 ⟨by omega, h⟩
  rw [readOffset, hn]
  exact if_pos hlt

theorem Value.read_static {v : Value} {b : ByteArray} {place : Nat} (hv : v.isDynamic = false)
    (h : Holds b place v.encode) : v.kind.read b place = .ok v := by
  cases v with
  | address a => exact map_eq_ok.2 ⟨a, readAddress_iff.2 h, rfl⟩
  | uint32 n => exact map_eq_ok.2 ⟨n, readUInt32_eq_ok.2 h, rfl⟩
  | int32 n => exact map_eq_ok.2 ⟨n, readInt32_eq_ok.2 h, rfl⟩
  | bool x => exact map_eq_ok.2 ⟨x, readBool_iff.2 h, rfl⟩
  | bytes32 w => exact map_eq_ok.2 ⟨w, readBytes32_eq_ok.2 h, rfl⟩
  | uint256 w =>
    exact map_eq_ok.2 ⟨w.toBytes, readWord_eq_ok.2 ⟨Word.size_toBytes w, h⟩,
      congrArg Value.uint256 (Word.ofBytes_toBytes w)⟩
  | string s => cases hv
  | uint32List ns => cases hv
  | pairList ps => cases hv

theorem Value.read_dynamic {v : Value} {b : ByteArray} {place n : Nat}
    (hb : b.size < UInt64.size) (hv : v.isDynamic = true) (hplace : readOffset b place 0 = .ok n)
    (h : Holds b n v.encode) : v.kind.read b place = .ok v := by
  cases v with
  | string s =>
    exact bind_eq_ok.2 ⟨n, hplace, bind_eq_ok.2 ⟨s, readString_of_holds hb h, rfl⟩⟩
  | uint32List ns =>
    rw [encode_uint32List] at h
    exact bind_eq_ok.2 ⟨n, hplace, bind_eq_ok.2 ⟨ns, (readUInt32s_eq_ok hb).2 h, rfl⟩⟩
  | pairList ps =>
    rw [encode_pairList] at h
    exact bind_eq_ok.2 ⟨n, hplace, bind_eq_ok.2 ⟨ps, (readPairs_eq_ok hb).2 h, rfl⟩⟩
  | _ => cases hv

section

variable {args : List Value} {i : Nat} (hi : i < args.length)
include hi

/-- A dynamic argument stands in whole words behind the head, at the offset in its word. -/
theorem holds_body (hsize : (encodeArgs args).size < UInt64.size)
    (hv : args[i].isDynamic = true) : ∃ n, headLength args ≤ n ∧ 32 ∣ n ∧
      readOffset (encodeArgs args) (32 * i) 0 = .ok n ∧
      Holds (encodeArgs args) n args[i].encode := by
  have hi' : i < (args.map Value.slot).length := by rwa [List.length_map]
  obtain ⟨hword, hbody⟩ := Slot.holds_dynamic hi' (headSize_slots args)
    ((List.getElem_map Value.slot).trans (Value.slot_dynamic hv))
  have hlt : Slot.headLength (args.map Value.slot) +
      Slot.tailLength ((args.map Value.slot).take i) < UInt64.size :=
    Nat.lt_of_le_of_lt (Nat.le_of_add_right_le hbody.1) hsize
  have hplace := readOffset_of_holds hword (by rwa [Nat.zero_add])
  rw [Nat.zero_add] at hplace
  have hhead : 32 ∣ headLength args := headLength_eq args ▸ Nat.dvd_mul_right 32 _
  have htail : 32 ∣ Slot.tailLength ((args.map Value.slot).take i) := by
    rw [← List.map_take]
    exact dvd_tailLength (args.take i)
  exact ⟨_, Nat.le_add_right _ _, (Nat.dvd_add_right hhead).2 htail, hplace, hbody⟩

theorem read_argument (hsize : (encodeArgs args).size < UInt64.size) :
    args[i].kind.read (encodeArgs args) (32 * i) = .ok args[i] := by
  have hi' : i < (args.map Value.slot).length := by rwa [List.length_map]
  cases hv : args[i].isDynamic with
  | false =>
    exact Value.read_static hv (Slot.holds_static hi' (headSize_slots args)
      ((List.getElem_map Value.slot).trans (Value.slot_static hv)))
  | true =>
    obtain ⟨n, -, -, hn, hbody⟩ := holds_body hi hsize hv
    exact Value.read_dynamic hsize hv hn hbody

end

/-- What is sent to a contract: the call of a function, or the arguments of its creation. -/
def payload : Option String → List Value → ByteArray
  | some signature, args => encodeCall signature args
  | none, args => encodeArgs args

/-- A payload without its selector. -/
def withoutSelector (signature : Option String) (sent : ByteArray) : ByteArray :=
  sent.extract (if signature.isSome then 4 else 0) sent.size

theorem withoutSelector_payload (signature : Option String) (args : List Value) :
    withoutSelector signature (payload signature args) = encodeArgs args := by
  cases signature with
  | none => exact ByteArray.extract_zero_size
  | some s =>
    have hsize : (Keccak.selector s).size = 4 := by
      rw [Keccak.selector, ByteArray.size_extract, Word.size_toBytes]
      rfl
    refine ByteArray.extract_append_eq_right hsize.symm ?_
    rw [payload, encodeCall, ByteArray.size_append]

/-- Arguments are read again from what is sent to a contract: each with the reader of its type, from
its word in the head. The head is of the length that was counted for it, and the tail behind it holds
the dynamic arguments in whole words. -/
theorem arguments_read_back (signature : Option String) (args : List Value)
    (hsize : (encodeArgs args).size < UInt64.size) :
    let sent := withoutSelector signature (payload signature args)
    (∀ (i : Nat) (hi : i < args.length), args[i].kind.read sent (32 * i) = .ok args[i]) ∧
    (Slot.layout (headLength args) (args.map Value.slot)).1.size = headLength args ∧
    headLength args = 32 * args.length ∧
    sent.size = headLength args +
      ((args.filter Value.isDynamic).map fun v => v.encode.size).sum ∧
    ∀ (i : Nat) (hi : i < args.length), args[i].isDynamic = true →
      ∃ n, headLength args ≤ n ∧ 32 ∣ n ∧ readOffset sent (32 * i) 0 = .ok n ∧
        Holds sent n args[i].encode := by
  simp only [withoutSelector_payload]
  refine ⟨fun i hi => read_argument hi hsize, (Slot.size_layout _ _).1, headLength_eq args, ?_,
    fun i hi hv => holds_body hi hsize hv⟩
  rw [encodeArgs, Slot.size_join, ← headLength, tailLength_eq]

theorem arguments_read_back_gen :
    Kind.string.read (withoutSelector (some "gen(string,uint32,(uint32,uint32)[])")
      (payload (some "gen(string,uint32,(uint32,uint32)[])")
        [.string "Wave", .uint32 3, .pairList [(0, 1)]])) 0 = .ok (.string "Wave") ∧
    Kind.pairList.read (withoutSelector (some "gen(string,uint32,(uint32,uint32)[])")
      (payload (some "gen(string,uint32,(uint32,uint32)[])")
        [.string "Wave", .uint32 3, .pairList [(0, 1)]])) 64 = .ok (.pairList [(0, 1)]) := by
  have hsize : (encodeArgs [.string "Wave", .uint32 3, .pairList [(0, 1)]]).size < UInt64.size := by
    rw [encodeArgs, Slot.size_join, ← headLength, headLength_eq, tailLength_eq]
    change 32 * 3 + ((Value.string "Wave").encode.size +
      ((Value.pairList [(0, 1)]).encode.size + 0)) < UInt64.size
    rw [Value.size_encode_string, encode_pairList, size_listBytes size_pairBytes]
    decide
  have hargs := (arguments_read_back (some "gen(string,uint32,(uint32,uint32)[])")
    [.string "Wave", .uint32 3, .pairList [(0, 1)]] hsize).1
  exact ⟨hargs 0 (by decide), hargs 2 (by decide)⟩

end ParticleChain.Abi
