import ParticleChain.Word.Bits

/-!
# Word division

Bit-serial long division, and what rests on it: signed division, arithmetic modulo a word,
and powers. Dividing by zero gives zero throughout.
-/

namespace ParticleChain.Word

/-- The quotient and remainder of the top bits of `n` are `q` and `r`; bits `i - 1`, …, `0`
are still to come. A bit lost in doubling `r` counts in the comparison. -/
def divideBits (n d : Word) : Nat → Word → Word → Word × Word
  | 0, q, r => (q, r)
  | i + 1, q, r =>
    let (twice, carry) := addCarry r r
    let r := if n.bit i then twice ||| one else twice
    if carry || d.le r then divideBits n d i (q ||| ofBit i) (r - d)
    else divideBits n d i q r

/-- Quotient and remainder; both zero for a zero divisor. -/
def divMod (n d : Word) : Word × Word :=
  if d.isZero then (zero, zero)
  else if n.lt d then (zero, n)
  else divideBits n d n.bitLength zero zero

instance : Div Word := ⟨fun n d => (divMod n d).1⟩

instance : Mod Word := ⟨fun n d => (divMod n d).2⟩

/-- The magnitude in two's complement; the least word is its own magnitude. -/
def abs (a : Word) : Word := if a.isNegative then -a else a

/-- Two's complement division, truncated toward zero. -/
def signedDiv (a b : Word) : Word :=
  if b.isZero then zero
  else
    let q := a.abs / b.abs
    if a.isNegative != b.isNegative then -q else q

/-- The remainder of `signedDiv`; it has the sign of `a`. -/
def signedMod (a b : Word) : Word :=
  if b.isZero then zero
  else
    let r := a.abs % b.abs
    if a.isNegative then -r else r

/-- The order of the two's complement readings. -/
def signedCmp (a b : Word) : Ordering :=
  match a.isNegative, b.isNegative with
  | true, false => .lt
  | false, true => .gt
  | _, _ => cmp a b

/-- `a + b` modulo `m`, for words below `m`; a sum that wraps is past `m` too. -/
def addBelow (a b m : Word) : Word :=
  let (s, carry) := addCarry a b
  if carry || m.le s then s - m else s

/-- `a + b` modulo `m`, without wrapping in between; zero for a zero modulus. -/
def addMod (a b m : Word) : Word := if m.isZero then zero else addBelow (a % m) (b % m) m

/-- Horner's scheme over bits `i - 1`, …, `0` of `b`, modulo `m`. -/
def mulModBits (a b m : Word) : Nat → Word → Word
  | 0, acc => acc
  | i + 1, acc =>
    let twice := addBelow acc acc m
    mulModBits a b m i (if b.bit i then addBelow twice a m else twice)

/-- `a * b` modulo `m`, without wrapping in between; zero for a zero modulus. -/
def mulMod (a b m : Word) : Word :=
  if m.isZero then zero else mulModBits (a % m) b m b.bitLength zero

/-- Square and multiply, from bit `i` of the exponent for `n` more bits. -/
def powBits (e : Word) (i : Nat) : Nat → Word → Word → Word
  | 0, _, acc => acc
  | n + 1, base, acc =>
    powBits e (i + 1) n (base * base) (if e.bit i then acc * base else acc)

/-- `a ^ e` modulo `2^256`, one squaring for each significant bit of `e`. -/
def pow (a e : Word) : Word := powBits e 0 e.bitLength a one

end ParticleChain.Word
