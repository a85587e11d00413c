/-!
# JSON tokens

The words of a JSON text. Blanks between them are passed over; whatever is no word of the
grammar ends the reading.
-/

namespace ParticleChain.Json

inductive Token where
  | openBracket
  | closeBracket
  | openBrace
  | closeBrace
  | comma
  | colon
  | null
  | bool (b : Bool)
  /-- `none` if written with a fraction or an exponent, or as `-0`. -/
  | number (n : Option Int)
  /-- `none` if an escape is one half of a surrogate pair. -/
  | text (s : Option String)
  deriving DecidableEq, Repr

namespace Token

def isBlank (c : Char) : Bool := c == ' ' || c == '\n' || c == '\t' || c == '\r'

/-! ## Texts -/

def hexValue? (c : Char) : Option Nat :=
  if c.isDigit then some (c.toNat - 48)
  else if 'a' ≤ c ∧ c ≤ 'f' then some (c.toNat - 87)
  else if 'A' ≤ c ∧ c ≤ 'F' then some (c.toNat - 55)
  else none

/-- The code unit spelled by four digits. -/
def codeUnit? (a b c d : Char) : Option Nat := do
  return (← hexValue? a) * 4096 + (← hexValue? b) * 256 + (← hexValue? c) * 16 + (← hexValue? d)

/-- The character after a backslash stands for. -/
def plainEscape? : Char → Option Char
  | '"' => some '"'
  | '\\' => some '\\'
  | '/' => some '/'
  | 'b' => some '\x08'
  | 'f' => some '\x0c'
  | 'n' => some '\n'
  | 'r' => some '\r'
  | 't' => some '\t'
  | _ => none

def isHighSurrogate (n : Nat) : Bool := 0xd800 ≤ n && n < 0xdc00

def isLowSurrogate (n : Nat) : Bool := 0xdc00 ≤ n && n < 0xe000

/-- The character of a surrogate pair. -/
def ofPair (high low : Nat) : Char :=
  Char.ofNat (0x10000 + (high - 0xd800) * 0x400 + (low - 0xdc00))

/-- The low surrogate of an escape, if a text goes on with one. -/
def lowSurrogate? : List Char → Option Nat
  | '\\' :: 'u' :: a :: b :: c :: d :: _ => (codeUnit? a b c d).filter isLowSurrogate
  | _ => none

/-- Reads a text up to its closing quote; `done` has what was read, the last character first. -/
def scanText (done : Option (List Char)) : List Char → Option (Option String × List Char)
  | [] => none
  | '"' :: r => some (done.map fun l => String.ofList l.reverse, r)
  | '\\' :: 'u' :: a :: b :: c :: d :: r =>
    match codeUnit? a b c d with
    | none => none
    | some n =>
      if isHighSurrogate n then
        match lowSurrogate? r, r with
        | some low, _ :: _ :: _ :: _ :: _ :: _ :: r =>
          scanText (done.map (ofPair n low :: ·)) r
        | _, r => scanText none r
      else if isLowSurrogate n then scanText none r
      else scanText (done.map (Char.ofNat n :: ·)) r
  | '\\' :: c :: r =>
    match plainEscape? c with
    | none => none
    | some e => scanText (done.map (e :: ·)) r
  | c :: r => if c.toNat < 32 then none else scanText (done.map (c :: ·)) r

/-! ## Numbers -/

def digitsValue (l : List Char) : Nat := l.foldl (fun n c => n * 10 + (c.toNat - 48)) 0

/-- The digits a text starts with, and the rest. -/
def spanDigits (l : List Char) : List Char × List Char :=
  (l.takeWhile Char.isDigit, l.dropWhile Char.isDigit)

/-- Passes over a fraction; whether there was one. -/
def skipFraction : List Char → Option (Bool × List Char)
  | '.' :: r => match spanDigits r with
    | ([], _) => none
    | (_, r) => some (true, r)
  | r => some (false, r)

/-- Passes over an exponent; whether there was one. -/
def skipExponent : List Char → Option (Bool × List Char)
  | c :: r =>
    if c = 'e' ∨ c = 'E' then
      let r := match r with
        | '+' :: r | '-' :: r => r
        | r => r
      match spanDigits r with
      | ([], _) => none
      | (_, r) => some (true, r)
    else some (false, c :: r)
  | [] => some (false, [])

/-- Whether digits can stand before a fraction: some, and none behind a leading zero. -/
def isWhole : List Char → Bool
  | [] => false
  | '0' :: _ :: _ => false
  | _ => true

/-- The integer with a sign and digits, `-0` being none. -/
def signed (negative : Bool) (digits : List Char) : Option Int :=
  let n := digitsValue digits
  if !negative then some n
  else if n = 0 then none
  else some (-n)

/-- Reads a number without its sign. -/
def scanMagnitude (negative : Bool) (l : List Char) : Option (Option Int × List Char) :=
  let (digits, r) := spanDigits l
  if isWhole digits then do
    let (fraction, r) ← skipFraction r
    let (exponent, r) ← skipExponent r
    return (if fraction || exponent then none else signed negative digits, r)
  else none

/-! ## Lengths -/

theorem spanDigits_length (l : List Char) :
    (spanDigits l).1.length + (spanDigits l).2.length = l.length := by
  rw [← List.length_append]
  simp [spanDigits]

theorem scanText_length {done : Option (List Char)} {l r : List Char} {s : Option String}
    (h : scanText done l = some (s, r)) : r.length < l.length := by
  fun_induction scanText done l <;> simp_all <;> grind

theorem skipFraction_length {l r : List Char} {b : Bool} (h : skipFraction l = some (b, r)) :
    r.length ≤ l.length := by
  unfold skipFraction at h
  have := spanDigits_length l.tail
  grind

theorem skipExponent_length {l r : List Char} {b : Bool} (h : skipExponent l = some (b, r)) :
    r.length ≤ l.length := by
  unfold skipExponent at h
  grind [spanDigits_length]

theorem scanMagnitude_length {negative : Bool} {l r : List Char} {n : Option Int}
    (h : scanMagnitude negative l = some (n, r)) : r.length < l.length := by
  simp only [scanMagnitude, Option.ite_none_right_eq_some, Option.bind_eq_bind,
    Option.bind_eq_some_iff, Option.pure_def, Option.some.injEq, Prod.mk.injEq] at h
  obtain ⟨whole, ⟨_, r1⟩, h1, ⟨_, r2⟩, h2, -, rfl⟩ := h
  simp only at h1 h2 ⊢
  have digits : 0 < (spanDigits l).1.length := by
    cases h : (spanDigits l).1 <;> simp_all [isWhole]
  have := spanDigits_length l
  have := skipFraction_length h1
  have := skipExponent_length h2
  omega

/-! ## Words -/

def punctuation? : Char → Option Token
  | '[' => some openBracket
  | ']' => some closeBracket
  | '\x7b' => some openBrace
  | '\x7d' => some closeBrace
  | ',' => some comma
  | ':' => some colon
  | _ => none

/-- The word a text starts with, and the rest. -/
def next? : List Char → Option (Token × List Char)
  | [] => none
  | 'n' :: 'u' :: 'l' :: 'l' :: r => some (null, r)
  | 't' :: 'r' :: 'u' :: 'e' :: r => some (bool true, r)
  | 'f' :: 'a' :: 'l' :: 's' :: 'e' :: r => some (bool false, r)
  | '"' :: r => (scanText (some []) r).map fun (s, r) => (text s, r)
  | '-' :: r => (scanMagnitude true r).map fun (n, r) => (number n, r)
  | c :: r =>
    match punctuation? c with
    | some t => some (t, r)
    | none => (scanMagnitude false (c :: r)).map fun (n, r) => (number n, r)

theorem next?_length {l r : List Char} {t : Token} (h : next? l = some (t, r)) :
    r.length < l.length := by
  fun_cases next? l <;> simp_all [next?]
  · omega
  · omega
  · omega
  · obtain ⟨s, h, -⟩ := h
    have := scanText_length h
    omega
  · obtain ⟨n, h, -⟩ := h
    have := scanMagnitude_length h
    omega
  · obtain ⟨n, h, -⟩ := h
    have := scanMagnitude_length h
    simpa using this

/-- The words of a text behind those in `done`, which has the last one first. -/
def scan (done : List Token) : List Char → Option (List Token)
  | [] => some done.reverse
  | c :: r =>
    if isBlank c then scan done r
    else match h : next? (c :: r) with
      | none => none
      | some (t, rest) =>
        have := next?_length h
        scan (t :: done) rest
termination_by l => l.length
decreasing_by
  · exact Nat.lt_succ_self _
  · exact this

end Token

/-- The words of a text, if it has no others. -/
def tokens? (text : String) : Option (List Token) := Token.scan [] text.toList

end ParticleChain.Json
