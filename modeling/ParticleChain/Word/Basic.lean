/-!
# 256-bit words

A word is four 64-bit limbs, the least significant first, and `toNat` is the number they
spell in base `UInt64.size`, which is `2^64`. Words are compared limb by limb from the top,
which is the order of their numbers (`cmp_eq_compare_toNat`).
-/

namespace ParticleChain

/-- A 256-bit word. -/
@[ext] structure Word where
  w0 : UInt64
  w1 : UInt64
  w2 : UInt64
  w3 : UInt64
  deriving DecidableEq, Inhabited

namespace Word

/-- The number of words, `2^256`. -/
def modulus : Nat := 0x10000000000000000000000000000000000000000000000000000000000000000

/-- The number a word stands for. -/
def toNat (a : Word) : Nat :=
  a.w0.toNat + UInt64.size * (a.w1.toNat + UInt64.size * (a.w2.toNat + UInt64.size * a.w3.toNat))

/-- The word of `n` modulo `2^256`. -/
def ofNat (n : Nat) : Word :=
  let n1 := n / UInt64.size
  let n2 := n1 / UInt64.size
  ⟨n.toUInt64, n1.toUInt64, n2.toUInt64, (n2 / UInt64.size).toUInt64⟩

instance : OfNat Word n := ⟨ofNat n⟩

/-- The word with only the lowest limb set. -/
def ofUInt64 (n : UInt64) : Word := ⟨n, 0, 0, 0⟩

def zero : Word := ⟨0, 0, 0, 0⟩

def one : Word := ⟨1, 0, 0, 0⟩

/-- The word of all ones. -/
def max : Word := ⟨-1, -1, -1, -1⟩

def ofBool (b : Bool) : Word := if b then one else zero

theorem toNat_lt (a : Word) : a.toNat < modulus := by
  have h0 := a.w0.toNat_lt
  have h1 := a.w1.toNat_lt
  have h2 := a.w2.toNat_lt
  have h3 := a.w3.toNat_lt
  simp only [toNat, modulus, UInt64.size]
  omega

theorem toNat_inj {a b : Word} : a.toNat = b.toNat ↔ a = b := by
  refine ⟨fun h => ?_, fun h => h ▸ rfl⟩
  have ha0 := a.w0.toNat_lt
  have ha1 := a.w1.toNat_lt
  have ha2 := a.w2.toNat_lt
  have hb0 := b.w0.toNat_lt
  have hb1 := b.w1.toNat_lt
  have hb2 := b.w2.toNat_lt
  simp only [toNat, UInt64.size] at h
  ext1 <;> apply UInt64.toNat_inj.1 <;> omega

@[simp] theorem toNat_ofNat (n : Nat) : (ofNat n).toNat = n % modulus := by
  simp only [toNat, ofNat, modulus, UInt64.size, Nat.toUInt64, UInt64.toNat_ofNat']
  omega

@[simp] theorem toNat_zero : zero.toNat = 0 := rfl

@[simp] theorem toNat_one : one.toNat = 1 := rfl

@[simp] theorem toNat_ofUInt64 (n : UInt64) : (ofUInt64 n).toNat = n.toNat := by
  simp [toNat, ofUInt64]

def isZero (a : Word) : Bool := a.w0 == 0 && a.w1 == 0 && a.w2 == 0 && a.w3 == 0

theorem isZero_iff {a : Word} : a.isZero = true ↔ a = zero := by
  cases a
  simp [isZero, zero, and_assoc]

/-- The word as a 64-bit size, if it fits. -/
def size? (a : Word) : Option Nat :=
  if a.w1 == 0 && a.w2 == 0 && a.w3 == 0 then some a.w0.toNat else none

theorem size?_eq_some_iff {a : Word} {n : Nat} :
    a.size? = some n ↔ a.toNat = n ∧ n < UInt64.size := by
  have h0 := a.w0.toNat_lt
  have h1 : a.w1 = 0 ↔ a.w1.toNat = 0 := by rw [← UInt64.toNat_inj]; rfl
  have h2 : a.w2 = 0 ↔ a.w2.toNat = 0 := by rw [← UInt64.toNat_inj]; rfl
  have h3 : a.w3 = 0 ↔ a.w3.toNat = 0 := by rw [← UInt64.toNat_inj]; rfl
  simp only [size?, Option.ite_none_right_eq_some, Bool.and_eq_true, beq_iff_eq, h1, h2, h3,
    Option.some.injEq, toNat, UInt64.size]
  omega

/-- The order of two words, decided by the highest limb in which they differ. -/
def cmp (a b : Word) : Ordering :=
  (compare a.w3 b.w3).then <| (compare a.w2 b.w2).then <|
    (compare a.w1 b.w1).then <| compare a.w0 b.w0

instance : Ord Word := ⟨cmp⟩

private theorem compare_limb (x y : UInt64) : compare x y = compare x.toNat y.toNat := by
  simp [compare, compareOfLessAndEq, UInt64.lt_iff_toNat_lt, ← UInt64.toNat_inj]

/-- Comparing the high digits first is comparing the two-digit numbers. -/
private theorem compare_then_compare {x y u v m : Nat} (hu : u < m) (hv : v < m) :
    (compare x y).then (compare u v) = compare (u + m * x) (v + m * y) := by
  rcases Nat.lt_trichotomy x y with h | h | h
  · have := Nat.mul_le_mul_left m h
    rw [Nat.mul_succ] at this
    have h' : u + m * x < v + m * y := by omega
    rw [Nat.compare_eq_lt.2 h, Nat.compare_eq_lt.2 h']
    rfl
  · subst h
    simp only [Nat.compare_eq_eq.2, Ordering.then, Nat.compare_eq_ite_lt]
    simp only [Nat.add_lt_add_iff_right]
  · have := Nat.mul_le_mul_left m h
    rw [Nat.mul_succ] at this
    have h' : v + m * y < u + m * x := by omega
    rw [Nat.compare_eq_gt.2 h, Nat.compare_eq_gt.2 h']
    rfl

theorem cmp_eq_compare_toNat (a b : Word) : cmp a b = compare a.toNat b.toNat := by
  have ha0 := a.w0.toNat_lt
  have ha1 := a.w1.toNat_lt
  have ha2 := a.w2.toNat_lt
  have hb0 := b.w0.toNat_lt
  have hb1 := b.w1.toNat_lt
  have hb2 := b.w2.toNat_lt
  simp only [cmp, compare_limb, ← Ordering.then_assoc]
  rw [compare_then_compare ha2 hb2, compare_then_compare ha1 hb1, compare_then_compare ha0 hb0]
  rfl

private theorem cmp_eq_compareOn : cmp = compareOn toNat := by
  funext a b
  rw [cmp_eq_compare_toNat]
  rfl

instance : Std.TransOrd Word := by
  change Std.TransCmp cmp
  rw [cmp_eq_compareOn]
  infer_instance

instance : Std.LawfulEqOrd Word where
  compare_self := by
    intro a
    change cmp a a = .eq
    rw [cmp_eq_compare_toNat, Nat.compare_eq_eq]
  eq_of_compare := by
    intro a b h
    change cmp a b = .eq at h
    rw [cmp_eq_compare_toNat, Nat.compare_eq_eq] at h
    exact toNat_inj.1 h

/-- `a < b` as numbers. -/
def lt (a b : Word) : Bool := cmp a b == .lt

/-- `a ≤ b` as numbers. -/
def le (a b : Word) : Bool := !lt b a

theorem lt_iff {a b : Word} : a.lt b = true ↔ a.toNat < b.toNat := by
  rw [lt, cmp_eq_compare_toNat, beq_iff_eq, Nat.compare_eq_lt]

theorem le_iff {a b : Word} : a.le b = true ↔ a.toNat ≤ b.toNat := by
  rw [le, Bool.not_eq_true', Bool.eq_false_iff, ne_eq, lt_iff, Nat.not_lt]

end Word

end ParticleChain
