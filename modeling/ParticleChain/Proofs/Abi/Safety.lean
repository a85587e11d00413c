import ParticleChain.Proofs.Abi.Places
import ParticleChain.Sampling.Samples

/-!
# Reading bytes that are not trusted

`Safe b read`: reading `b` is no fault, so that no slice leaves the buffer and no sum of offsets
leaves the 64 bits, and what is read stays the same when bytes are added behind. A reading is safe
if its steps are (`Safe.bind`, `Safe.mapM`). A sum that is not checked follows a read that has
bounded it: a word that is read lies in the buffer (`le_size_of_readSize`), and so do all words of a
list that is counted (`le_size_of_readCount`).
-/

namespace ParticleChain.Abi

variable {α β ι : Type} {b : ByteArray} {offset base width wordsEach count : Nat}

/-- Reading `b` is no fault, and a value that is read does not depend on what follows. -/
structure Safe (b : ByteArray) (read : ByteArray → Except DecodeError α) : Prop where
  no_fault : read b ≠ .error .fault
  extend (rest : ByteArray) (v : α) : read b = .ok v → read (b ++ rest) = .ok v

namespace Safe

theorem const {x : Except DecodeError α} (h : x ≠ .error .fault) : Safe b fun _ => x :=
  ⟨h, fun _ _ hv => hv⟩

theorem pure (v : α) : Safe b fun _ => Pure.pure v := const nofun

theorem throw {e : DecodeError} (h : e ≠ .fault) :
    Safe b fun _ => (throw e : Except DecodeError α) :=
  const fun he => h (Except.error.inj he)

theorem position {n : Nat} (h : n < UInt64.size) : Safe b fun _ => Abi.position n :=
  const (by rw [position_of_lt h]; nofun)

theorem bind {read : ByteArray → Except DecodeError α}
    {next : ByteArray → α → Except DecodeError β} (h : Safe b read)
    (hnext : ∀ a, read b = .ok a → Safe b (next · a)) : Safe b fun b => read b >>= next b where
  no_fault := by
    cases hr : read b with
    | error e =>
      intro he
      cases he
      exact h.no_fault hr
    | ok a => exact (hnext a hr).no_fault
  extend rest v hv := by
    obtain ⟨a, ha, hv⟩ := bind_eq_ok.1 hv
    exact bind_eq_ok.2 ⟨a, h.extend rest a ha, (hnext a ha).extend rest v hv⟩

theorem map {read : ByteArray → Except DecodeError α} {f : α → β} (h : Safe b read) :
    Safe b fun b => (read b).map f where
  no_fault := by
    cases hr : read b with
    | error e =>
      intro he
      cases he
      exact h.no_fault hr
    | ok a => nofun
  extend rest v hv := by
    obtain ⟨a, ha, hf⟩ := map_eq_ok.1 hv
    exact map_eq_ok.2 ⟨a, h.extend rest a ha, hf⟩

theorem ite {p : Prop} [Decidable p] {read read' : ByteArray → Except DecodeError α}
    (h : p → Safe b read) (h' : ¬ p → Safe b read') :
    Safe b fun b => if p then read b else read' b := by
  by_cases hp : p
  · simp only [if_pos hp]
    exact h hp
  · simp only [if_neg hp]
    exact h' hp

theorem mapM {read : ByteArray → ι → Except DecodeError α} {l : List ι}
    (h : ∀ i ∈ l, Safe b (read · i)) : Safe b fun b => l.mapM (read b) := by
  induction l with
  | nil => exact pure []
  | cons i l ih =>
    simp only [List.mapM_cons]
    exact bind (h i List.mem_cons_self) fun v _ =>
      bind (ih fun j hj => h j (List.mem_cons_of_mem i hj)) fun vs _ => pure (v :: vs)

end Safe

/-! ## Words -/

theorem safe_readBytes (b : ByteArray) (offset width : Nat) : Safe b (readBytes · offset width) where
  no_fault := by
    rw [readBytes_eq]
    split <;> nofun
  extend rest x hx := by
    obtain ⟨hs, hx⟩ := readBytes_eq_ok.1 hx
    exact readBytes_eq_ok.2 ⟨hs, hx.extend rest⟩

theorem safe_readWord (b : ByteArray) (offset : Nat) : Safe b (readWord · offset) :=
  safe_readBytes b offset 32

theorem safe_readUnsigned (b : ByteArray) (offset : Nat) (hw : width ≤ 8) :
    Safe b (readUnsigned · offset width) := by
  unfold readUnsigned
  rw [distance_of_le (Nat.le_trans hw (by decide))]
  exact (safe_readWord b offset).bind fun word _ => .bind (.pure (32 - width)) fun front _ =>
    .ite (fun _ => .bind (.throw nofun) nofun) fun _ => .pure _

theorem safe_readSize (b : ByteArray) (offset : Nat) : Safe b (readSize · offset) :=
  safe_readUnsigned b offset (Nat.le_refl 8)

theorem safe_readUInt32 (b : ByteArray) (offset : Nat) : Safe b (readUInt32 · offset) :=
  (safe_readUnsigned b offset (by decide)).map

theorem safe_readInt32 (b : ByteArray) (offset : Nat) : Safe b (readInt32 · offset) := by
  unfold readInt32
  exact (safe_readWord b offset).bind fun word _ =>
    .ite (fun _ => .bind (.throw nofun) nofun) fun _ => .pure _

/-- A boolean is read if the number is, and is 0 or 1. -/
theorem readBool_eq_ok {v : Bool} :
    readBool b offset = .ok v ↔ readUnsigned b offset 1 = .ok v.toNat := by
  unfold readBool
  cases v <;> split <;> simp_all

theorem safe_readBool (b : ByteArray) (offset : Nat) : Safe b (readBool · offset) where
  no_fault := by
    intro h
    unfold readBool at h
    split at h <;> cases h
    rename_i hr
    exact (safe_readUnsigned b offset (by decide)).no_fault hr
  extend rest v hv :=
    readBool_eq_ok.2 ((safe_readUnsigned b offset (by decide)).extend rest _ (readBool_eq_ok.1 hv))

theorem safe_readAddress (b : ByteArray) (offset : Nat) : Safe b (readAddress · offset) := by
  unfold readAddress
  exact (safe_readWord b offset).bind fun word _ =>
    .ite (fun _ => .bind (.throw nofun) nofun) fun _ => .pure _

theorem safe_readBytes32 (b : ByteArray) (offset : Nat) : Safe b (readBytes32 · offset) :=
  (safe_readWord b offset).map

theorem safe_readOffset (b : ByteArray) (offset base : Nat) : Safe b (readOffset · offset base) := by
  unfold readOffset
  exact (safe_readSize b offset).bind fun relative _ => .ite (fun _ => .pure _) fun _ => .throw nofun

/-! ## What a read has bounded -/

theorem le_size_of_readSize {n : Nat} (h : readSize b offset = .ok n) : offset + 32 ≤ b.size := by
  obtain ⟨word, hword, -⟩ := bind_eq_ok.1 h
  obtain ⟨hs, hle, -⟩ := readBytes_eq_ok.1 hword
  rwa [hs] at hle

theorem le_size_of_readOffset {n : Nat} (h : readOffset b offset base = .ok n) :
    offset + 32 ≤ b.size := by
  obtain ⟨relative, hr, -⟩ := bind_eq_ok.1 h
  exact le_size_of_readSize hr

theorem readCount_eq_ok (hb : b.size < UInt64.size) (hw : wordsEach * 32 < UInt64.size) :
    readCount b offset wordsEach = .ok count ↔
      readSize b offset = .ok count ∧ offset + 32 + count * (wordsEach * 32) ≤ b.size := by
  unfold readCount
  rw [bind_eq_ok, position_of_lt hw]
  constructor
  · rintro ⟨n, hn, h⟩
    obtain ⟨_, heach, h⟩ := bind_eq_ok.1 h
    cases heach
    dsimp only at h
    split at h
    · obtain ⟨start, hstart, h⟩ := bind_eq_ok.1 h
      obtain ⟨body, hbody, h⟩ := bind_eq_ok.1 h
      cases h
      obtain ⟨-, rfl⟩ := position_eq_ok.1 hstart
      obtain ⟨hs, hle, -⟩ := readBytes_eq_ok.1 hbody
      rw [hs] at hle
      exact ⟨hn, hle⟩
    · cases h
  · rintro ⟨hn, hle⟩
    refine ⟨count, hn, bind_eq_ok.2 ⟨_, rfl, ?_⟩⟩
    dsimp only
    rw [if_pos (by omega), position_of_lt (by omega)]
    have hbody := readBytes_eq b (offset + 32) (count * (wordsEach * 32))
    rw [if_pos hle] at hbody
    exact bind_eq_ok.2 ⟨offset + 32, rfl, bind_eq_ok.2 ⟨_, hbody, rfl⟩⟩

/-! ## Lists -/

section

variable (hb : b.size < UInt64.size)
include hb

theorem le_size_of_readCount (hw : wordsEach * 32 < UInt64.size)
    (h : readCount b offset wordsEach = .ok count) :
    offset + 32 + count * (wordsEach * 32) ≤ b.size := ((readCount_eq_ok hb hw).1 h).2

theorem safe_readCount (offset : Nat) (hw : wordsEach * 32 < UInt64.size) :
    Safe b (readCount · offset wordsEach) := by
  unfold readCount
  refine (safe_readSize b offset).bind fun n hn => ?_
  have hle := le_size_of_readSize hn
  refine .bind (.position hw) fun each _ => ?_
  refine .ite (fun _ => ?_) fun _ => .bind (.throw nofun) nofun
  exact .bind (.position (by omega)) fun start _ =>
    (safe_readBytes b start _).bind fun _ _ => .pure n

/-- The place of an element is an offset in the buffer. -/
theorem Safe.list {read : ByteArray → Nat → Except DecodeError α}
    (hw : wordsEach * 32 < UInt64.size) (h : ∀ n, readCount b offset wordsEach = .ok n →
      ∀ i < n, Safe b (read · i)) :
    Safe b fun b => readCount b offset wordsEach >>= fun n => (List.range n).mapM (read b) :=
  (safe_readCount hb offset hw).bind fun n hn => .mapM fun i hi =>
    h n hn i (List.mem_range.1 hi)

theorem safe_readString (offset : Nat) : Safe b (readString · offset) := by
  unfold readString
  refine (safe_readSize b offset).bind fun n hn => ?_
  have hle := le_size_of_readSize hn
  refine .bind (.position (by omega)) fun start _ => ?_
  refine (safe_readBytes b start n).bind fun bytes _ => .const ?_
  split <;> nofun

theorem Safe.row {read : ByteArray → Nat → Except DecodeError α}
    (h : ∀ place, Safe b (read · place)) (offset : Nat) : Safe b (readRow read · offset) := by
  refine .list hb (by decide) fun n hn i hi => ?_
  have hle := le_size_of_readCount hb (by decide) hn
  exact .bind (.position (by omega)) fun place _ => h place

theorem safe_readInt32s (offset : Nat) : Safe b (readInt32s · offset) :=
  .row hb (safe_readInt32 b) offset

theorem safe_readUInt32s (offset : Nat) : Safe b (readUInt32s · offset) :=
  .row hb (safe_readUInt32 b) offset

theorem safe_readPairs (offset : Nat) : Safe b (readPairs · offset) := by
  refine .list hb (by decide) fun n hn i hi => ?_
  have hle := le_size_of_readCount hb (by decide) hn
  refine .bind (.position (by omega)) fun first hfirst => ?_
  obtain ⟨-, rfl⟩ := position_eq_ok.1 hfirst
  exact .bind (.position (by omega)) fun second _ =>
    (safe_readUInt32 b _).bind fun _ _ => (safe_readUInt32 b second).bind fun _ _ => .pure _

theorem Safe.items {read : ByteArray → Nat → Except DecodeError α}
    (h : ∀ item, Safe b (read · item)) (offset : Nat) : Safe b (readItems read · offset) := by
  unfold readItems
  refine (safe_readCount hb offset (by decide)).bind fun n hn => ?_
  have hle := le_size_of_readCount hb (by decide) hn
  refine .bind (.position (by omega)) fun start hstart => .mapM fun i hi => ?_
  obtain ⟨-, rfl⟩ := position_eq_ok.1 hstart
  have hi := List.mem_range.1 hi
  exact .bind (.position (by omega)) fun place _ =>
    (safe_readOffset b place _).bind fun item _ => h item

theorem safe_readStrings (offset : Nat) : Safe b (readStrings · offset) :=
  .items hb (safe_readString hb) offset

theorem safe_readTuple (tuple : Nat) : Safe b (Sampling.readTuple · tuple) := by
  unfold Sampling.readTuple
  refine (safe_readOffset b tuple tuple).bind fun path hpath => ?_
  have htuple := le_size_of_readOffset hpath
  refine .bind (.position (by omega)) fun second _ => ?_
  exact (safe_readOffset b second tuple).bind fun data _ => (safe_readString hb path).bind fun _ _ =>
    (safe_readUInt32s hb data).bind fun _ _ => .pure _

theorem safe_readSamples : Safe b Sampling.readSamples := by
  unfold Sampling.readSamples
  exact (safe_readOffset b 0 0).bind fun list _ => .items hb (safe_readTuple hb) list

end

/-- Bytes that are not trusted are read safely, wherever and as whatever they are read. No number is
asked for that has more than 8 bytes, and no list whose elements alone leave the 64 bits. -/
theorem readers_are_safe (b : ByteArray) (hb : b.size < UInt64.size) (offset base width : Nat) :
    (∀ x, readBytes b offset width = .ok x → x.size = width) ∧
    Safe b (readBytes · offset width) ∧ Safe b (readWord · offset) ∧
    (width ≤ 8 → Safe b (readUnsigned · offset width)) ∧ Safe b (readSize · offset) ∧
    Safe b (readUInt32 · offset) ∧ Safe b (readInt32 · offset) ∧ Safe b (readBool · offset) ∧
    Safe b (readAddress · offset) ∧ Safe b (readBytes32 · offset) ∧
    Safe b (readOffset · offset base) ∧
    (width * 32 < UInt64.size → Safe b (readCount · offset width)) ∧
    Safe b (readString · offset) ∧ Safe b (readStrings · offset) ∧ Safe b (readInt32s · offset) ∧
    Safe b (readUInt32s · offset) ∧ Safe b (readPairs · offset) ∧
    Safe b (Sampling.readTuple · offset) ∧ Safe b Sampling.readSamples :=
  ⟨fun _ hx => (readBytes_eq_ok.1 hx).1, safe_readBytes b offset width, safe_readWord b offset,
    safe_readUnsigned b offset, safe_readSize b offset, safe_readUInt32 b offset,
    safe_readInt32 b offset, safe_readBool b offset, safe_readAddress b offset,
    safe_readBytes32 b offset, safe_readOffset b offset base, safe_readCount hb offset,
    safe_readString hb offset, safe_readStrings hb offset, safe_readInt32s hb offset,
    safe_readUInt32s hb offset, safe_readPairs hb offset, safe_readTuple hb offset,
    safe_readSamples hb⟩

theorem readers_are_safe_hugeCount :
    readCount (sizeWord 32 ++ sizeWord (2 ^ 63)) 32 1 ≠ .error .fault ∧
    readOffset (sizeWord 32 ++ sizeWord (2 ^ 63)) 32 (2 ^ 64 - 1) ≠ .error .fault ∧
    Sampling.readSamples (sizeWord 32 ++ sizeWord (2 ^ 63)) ≠ .error .fault := by
  have hsize : (sizeWord 32 ++ sizeWord (2 ^ 63)).size < UInt64.size := by
    rw [ByteArray.size_append, sizeWord, sizeWord, Word.size_toBytes, Word.size_toBytes]
    decide
  obtain ⟨-, -, -, -, -, -, -, -, -, -, hoffset, hcount, -, -, -, -, -, -, hsamples⟩ :=
    readers_are_safe (sizeWord 32 ++ sizeWord (2 ^ 63)) hsize 32 (2 ^ 64 - 1) 1
  exact ⟨(hcount (by decide)).no_fault, hoffset.no_fault, hsamples.no_fault⟩

end ParticleChain.Abi
