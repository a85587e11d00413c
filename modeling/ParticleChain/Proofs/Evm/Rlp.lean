import Mathlib.Data.Nat.Digits.Lemmas
import ParticleChain.Proofs.Word.Digits

/-!
# Recursive length prefixes

An item is a byte string or a list of items. It is encoded as a header that tells its kind and its
length, and its content; a byte below `0x80` stands for itself. Nothing else is encoded as the same
bytes, whatever follows them (`Item.encode_inj`).
-/

namespace ParticleChain.Rlp

/-! ## Numbers -/

/-- The bytes of a number, the highest first, and none for zero. -/
def bigEndian (n : Nat) : List UInt8 := (Nat.digits 256 n).reverse.map Nat.toUInt8

theorem bigEndian_of_pos {n : Nat} (h : 0 < n) :
    bigEndian n = bigEndian (n / 256) ++ [n.toUInt8] := by
  have hbyte : (n % 256).toUInt8 = n.toUInt8 := by
    rw [← UInt8.toNat_inj]
    simp
  unfold bigEndian
  rw [Nat.digits_def' (by decide) h, List.reverse_cons, List.map_append, List.map_singleton, hbyte]

theorem spelled_bigEndian (n : Nat) : Bytes.spelled (bigEndian n) = n := by
  induction n using Nat.strongRecOn with
  | _ n ih =>
    rcases Nat.eq_zero_or_pos n with rfl | h
    · rfl
    · rw [bigEndian_of_pos h, Bytes.spelled, List.foldl_append, ← Bytes.spelled,
        ih (n / 256) (Nat.div_lt_self h (by decide))]
      show n / 256 * 256 + n.toUInt8.toNat = n
      rw [Nat.toUInt8, UInt8.toNat_ofNat']
      omega

theorem bigEndian_inj {n m : Nat} : bigEndian n = bigEndian m ↔ n = m :=
  ⟨fun h => by rw [← spelled_bigEndian n, h, spelled_bigEndian], fun h => h ▸ rfl⟩

theorem length_bigEndian_le {n k : Nat} : (bigEndian n).length ≤ k ↔ n < 256 ^ k := by
  rw [bigEndian, List.length_map, List.length_reverse]
  exact Nat.digits_length_le_iff (by decide) n

theorem bigEndian_eq_nil {n : Nat} : bigEndian n = [] ↔ n = 0 := bigEndian_inj (m := 0)

/-- No leading zero. -/
theorem head?_bigEndian (n : Nat) : (bigEndian n).head? ≠ some 0 := by
  induction n using Nat.strongRecOn with
  | _ n ih =>
    rcases Nat.eq_zero_or_pos n with rfl | h
    · exact nofun
    · rw [bigEndian_of_pos h, List.head?_append]
      have hrest := ih (n / 256) (Nat.div_lt_self h (by decide))
      rcases hd : (bigEndian (n / 256)).head? with _ | x
      · have hsmall : n / 256 = 0 := bigEndian_eq_nil.1 (List.head?_eq_none_iff.1 hd)
        intro h0
        have hzero : n.toUInt8.toNat = 0 := congrArg UInt8.toNat (Option.some.inj h0)
        rw [Nat.toUInt8, UInt8.toNat_ofNat'] at hzero
        omega
      · rwa [hd] at hrest

/-! ## Headers -/

inductive Kind where
  | string | list
  deriving DecidableEq

namespace Kind

/-- The first of the bytes that headers of the kind start with. -/
def base : Kind → Nat
  | string => 0x80
  | list => 0xc0

/-- The first byte of the header for `n` bytes of content. -/
def front (k : Kind) (n : Nat) : Nat :=
  if n < 56 then k.base + n else k.base + 55 + (bigEndian n).length

/-- The header for `n` bytes of content: one byte that tells how many, or how many bytes it takes to
tell. -/
def header (k : Kind) (n : Nat) : List UInt8 :=
  (k.front n).toUInt8 :: if n < 56 then [] else bigEndian n

variable {k k' : Kind} {n m : Nat} {r s : List UInt8}

theorem base_bounds (k : Kind) : 0x80 ≤ k.base ∧ k.base + 64 ≤ 256 := by
  cases k <;> decide

theorem front_range (h : n < 256 ^ 8) : k.base ≤ k.front n ∧ k.front n < k.base + 64 := by
  have hlen : (bigEndian n).length ≤ 8 := length_bigEndian_le.2 h
  unfold front
  split <;> omega

theorem front_bounds (h : n < 256 ^ 8) : 0x80 ≤ k.front n ∧ k.front n < 256 := by
  have hbase := k.base_bounds
  have hrange := front_range (k := k) h
  omega

/-- The kinds have no first byte in common. -/
theorem eq_of_front (hn : n < 256 ^ 8) (hm : m < 256 ^ 8) (h : k.front n = k'.front m) :
    k = k' := by
  have hrange := front_range (k := k) hn
  have hrange' := front_range (k := k') hm
  rw [h] at hrange
  cases k <;> cases k' <;> simp only [base] at hrange hrange'
  · rfl
  · omega
  · omega
  · rfl

/-- The first byte tells the kind, and the length or the length of the length. -/
theorem front_inj (hn : n < 256 ^ 8) (hm : m < 256 ^ 8) (h : k.front n = k'.front m) :
    k = k' ∧ (n < 56 ∧ n = m ∨ 56 ≤ n ∧ 56 ≤ m ∧ (bigEndian n).length = (bigEndian m).length) := by
  obtain rfl := eq_of_front hn hm h
  have hpos : ∀ {i}, 56 ≤ i → 0 < (bigEndian i).length := fun hi =>
    List.length_pos_iff.2 (mt bigEndian_eq_nil.1 (by omega))
  refine ⟨rfl, ?_⟩
  unfold front at h
  rcases Nat.lt_or_ge n 56 with h1 | h1 <;> rcases Nat.lt_or_ge m 56 with h2 | h2
  · rw [if_pos h1, if_pos h2] at h
    exact .inl ⟨h1, Nat.add_left_cancel h⟩
  · rw [if_pos h1, if_neg (by omega)] at h
    have := hpos h2
    omega
  · rw [if_neg (by omega), if_pos h2] at h
    have := hpos h1
    omega
  · rw [if_neg (by omega), if_neg (by omega)] at h
    exact .inr ⟨h1, h2, Nat.add_left_cancel h⟩

theorem header_inj (hn : n < 256 ^ 8) (hm : m < 256 ^ 8)
    (h : k.header n ++ r = k'.header m ++ s) : k = k' ∧ n = m ∧ r = s := by
  obtain ⟨hfront, hrest⟩ := List.cons.inj h
  have hfront : k.front n = k'.front m := by
    have hmod : k.front n % 256 = k'.front m % 256 := congrArg UInt8.toNat hfront
    rwa [Nat.mod_eq_of_lt (front_bounds hn).2, Nat.mod_eq_of_lt (front_bounds hm).2] at hmod
  obtain ⟨hk, ⟨h1, rfl⟩ | ⟨h1, h2, hlen⟩⟩ := front_inj hn hm hfront
  · exact ⟨hk, rfl, List.append_cancel_left hrest⟩
  · rw [if_neg (by omega), if_neg (by omega)] at hrest
    obtain ⟨hbytes, hrs⟩ := List.append_inj hrest hlen
    exact ⟨hk, bigEndian_inj.1 hbytes, hrs⟩

example : list.header 1024 = [0xf9, 0x04, 0x00] := by decide

end Kind

/-! ## Items -/

/-- A byte string encoded: a single byte below `0x80` as it is, and all else behind a header. -/
def encodeString : List UInt8 → List UInt8
  | [x] => if x < 0x80 then [x] else Kind.string.header 1 ++ [x]
  | bytes => Kind.string.header bytes.length ++ bytes

inductive Item where
  | string (bytes : List UInt8)
  | list (items : List Item)

mutual

def Item.encode : Item → List UInt8
  | .string bytes => encodeString bytes
  | .list items => Kind.list.header (encodeAll items).length ++ encodeAll items

/-- Items encoded one after another. -/
def encodeAll : List Item → List UInt8
  | [] => []
  | a :: items => a.encode ++ encodeAll items

end

theorem encodeString_cases (bytes : List UInt8) :
    (∃ x < 0x80, bytes = [x] ∧ encodeString bytes = [x]) ∨
      encodeString bytes = Kind.string.header bytes.length ++ bytes := by
  rcases bytes with _ | ⟨x, _ | ⟨y, bytes⟩⟩
  · exact .inr rfl
  · by_cases hx : x < 0x80
    · exact .inl ⟨x, hx, rfl, if_pos hx⟩
    · exact .inr (if_neg hx)
  · exact .inr rfl

variable {r s : List UInt8}

/-- A header is no byte that stands for itself. -/
theorem header_ne_byte {k : Kind} {n : Nat} {x : UInt8} {t : List UInt8} (hn : n < 256 ^ 8)
    (hx : x < 0x80) : k.header n ++ t ++ r ≠ [x] ++ s := by
  intro h
  obtain ⟨hfront, -⟩ := List.cons.inj h
  obtain ⟨hle, hlt⟩ := Kind.front_bounds (k := k) hn
  have hmod : k.front n % 256 = x.toNat := congrArg UInt8.toNat hfront
  have hx : x.toNat < 0x80 := hx
  omega

theorem encodeString_inj {a b : List UInt8} (ha : a.length < 256 ^ 8) (hb : b.length < 256 ^ 8)
    (h : encodeString a ++ r = encodeString b ++ s) : a = b ∧ r = s := by
  obtain ⟨x, hx, rfl, hax⟩ | hax := encodeString_cases a <;>
    obtain ⟨y, hy, rfl, hby⟩ | hby := encodeString_cases b <;> rw [hax, hby] at h
  · obtain ⟨rfl, rfl⟩ := List.cons.inj h
    exact ⟨rfl, rfl⟩
  · exact absurd h.symm (header_ne_byte hb hx)
  · exact absurd h (header_ne_byte ha hy)
  · rw [List.append_assoc, List.append_assoc] at h
    obtain ⟨-, hlen, h⟩ := Kind.header_inj ha hb h
    exact List.append_inj h hlen

theorem length_le_encodeString (bytes : List UInt8) :
    bytes.length ≤ (encodeString bytes).length := by
  obtain ⟨x, -, rfl, hx⟩ | hx := encodeString_cases bytes
  · rw [hx]
  · rw [hx, List.length_append]
    exact Nat.le_add_left _ _

theorem encodeString_ne_list {bytes : List UInt8} {n : Nat} {t : List UInt8}
    (hb : bytes.length < 256 ^ 8) (hn : n < 256 ^ 8) :
    encodeString bytes ++ r ≠ Kind.list.header n ++ t ++ s := by
  intro h
  obtain ⟨x, hx, rfl, hx'⟩ | hx' := encodeString_cases bytes <;> rw [hx'] at h
  · exact header_ne_byte hn hx h.symm
  · rw [List.append_assoc, List.append_assoc] at h
    exact nomatch (Kind.header_inj hb hn h).1

theorem Item.encode_ne_nil (a : Item) : a.encode ≠ [] := by
  cases a with
  | string bytes =>
    obtain ⟨x, -, -, hx⟩ | hx := encodeString_cases bytes <;> rw [Item.encode, hx] <;> exact nofun
  | list items =>
    rw [Item.encode]
    exact nofun

mutual

/-- No two items have encodings of which one starts with the other. -/
theorem Item.encode_inj (a b : Item) {r s : List UInt8} (ha : a.encode.length < 256 ^ 8)
    (hb : b.encode.length < 256 ^ 8) (h : a.encode ++ r = b.encode ++ s) : a = b ∧ r = s := by
  match a, b with
  | .string x, .string y =>
    rw [Item.encode] at ha hb
    rw [Item.encode, Item.encode] at h
    obtain ⟨rfl, rfl⟩ := encodeString_inj (Nat.lt_of_le_of_lt (length_le_encodeString x) ha)
      (Nat.lt_of_le_of_lt (length_le_encodeString y) hb) h
    exact ⟨rfl, rfl⟩
  | .string x, .list l =>
    rw [Item.encode, List.length_append] at hb
    rw [Item.encode] at ha
    rw [Item.encode, Item.encode] at h
    exact absurd h
      (encodeString_ne_list (Nat.lt_of_le_of_lt (length_le_encodeString x) ha) (by omega))
  | .list l, .string y =>
    rw [Item.encode, List.length_append] at ha
    rw [Item.encode] at hb
    rw [Item.encode, Item.encode] at h
    exact absurd h.symm
      (encodeString_ne_list (Nat.lt_of_le_of_lt (length_le_encodeString y) hb) (by omega))
  | .list l, .list m =>
    rw [Item.encode, List.length_append] at ha hb
    rw [Item.encode, Item.encode, List.append_assoc, List.append_assoc] at h
    -- The headers tell the same length, so the contents end at the same place.
    obtain ⟨-, hlen, h⟩ := Kind.header_inj (by omega) (by omega) h
    obtain ⟨hall, rfl⟩ := List.append_inj h hlen
    rw [encodeAll_inj l m (by omega) (by omega) hall]
    exact ⟨rfl, rfl⟩

theorem encodeAll_inj (items others : List Item) (ha : (encodeAll items).length < 256 ^ 8)
    (hb : (encodeAll others).length < 256 ^ 8) (h : encodeAll items = encodeAll others) :
    items = others := by
  match items, others with
  | [], [] => rfl
  | [], b :: others =>
    rw [encodeAll, encodeAll] at h
    exact absurd (List.append_eq_nil_iff.1 h.symm).1 b.encode_ne_nil
  | a :: items, [] =>
    rw [encodeAll, encodeAll] at h
    exact absurd (List.append_eq_nil_iff.1 h).1 a.encode_ne_nil
  | a :: items, b :: others =>
    rw [encodeAll, List.length_append] at ha hb
    rw [encodeAll, encodeAll] at h
    obtain ⟨rfl, hrest⟩ := Item.encode_inj a b (by omega) (by omega) h
    rw [encodeAll_inj items others (by omega) (by omega) hrest]

end

example : (Item.list [.string [0x63, 0x61, 0x74], .string [], .list [.string [0x80]]]).encode =
    [0xc8, 0x83, 0x63, 0x61, 0x74, 0x80, 0xc2, 0x81, 0x80] := by decide

end ParticleChain.Rlp
