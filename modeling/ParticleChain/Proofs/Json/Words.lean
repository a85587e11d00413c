import Mathlib
import ParticleChain.Json.Token
import ParticleChain.Json.Value

/-!
# The words of printed JSON

Text that is printed is read back word by word: a quoted text is one word, whatever its characters
(`scan_quote`), and so is a number that something else follows than what could belong to it
(`scan_int`). So a printed value comes to its words (`tokens?_pretty`).
-/

namespace ParticleChain.Json

namespace Token

variable {done : List Token} {c : Char} {l r rest : List Char} {t : Token}

/-! ## Words one by one -/

theorem scan_of_next? (hb : isBlank c = false) (h : next? (c :: r) = some (t, rest)) :
    scan done (c :: r) = scan (t :: done) rest := by
  rw [scan, hb, if_neg Bool.false_ne_true]
  split
  · rename_i hn
    rw [h] at hn
    cases hn
  · rename_i hn
    rw [h] at hn
    cases hn
    rfl

theorem scan_blank (hb : isBlank c = true) : scan done (c :: r) = scan done r := by
  rw [scan, if_pos hb]

theorem scan_newLine (level : Nat) : scan done (newLine level ++ r) = scan done r := by
  have hspaces : ∀ n, scan done (List.replicate n ' ' ++ r) = scan done r := by
    intro n
    induction n with
    | zero => rfl
    | succ n ih => rwa [List.replicate_succ, List.cons_append, scan_blank rfl]
  rw [newLine, List.cons_append, scan_blank rfl, hspaces]

/-! ## Texts -/

theorem codeUnit?_hexDigit {n : Nat} (h : n < 32) :
    codeUnit? '0' '0' (hexDigit (n / 16)) (hexDigit (n % 16)) = some n := by
  revert n
  decide +kernel

theorem scanText_plainEscape {text : Option (List Char)} {e : Char} (h : plainEscape? e = some c) :
    scanText text ('\\' :: e :: r) = scanText (text.map (c :: ·)) r := by
  have hne : e ≠ 'u' := by
    rintro rfl
    cases h
  rw [scanText, h]
  simp [hne]

/-- A control character, by its code. -/
theorem scanText_codeUnit {text : Option (List Char)} (h : c.toNat < 32) :
    scanText text ('\\' :: 'u' :: '0' :: '0' :: hexDigit (c.toNat / 16) ::
      hexDigit (c.toNat % 16) :: r) = scanText (text.map (c :: ·)) r := by
  have hhigh : isHighSurrogate c.toNat = false := by simp [isHighSurrogate]; omega
  have hlow : isLowSurrogate c.toNat = false := by simp [isLowSurrogate]; omega
  rw [scanText, codeUnit?_hexDigit h]
  simp only [hhigh, hlow, Bool.false_eq_true, if_false, Char.ofNat_toNat]

theorem scanText_self {text : Option (List Char)} (hq : c ≠ '"') (hb : c ≠ '\\')
    (h : ¬ c.toNat < 32) : scanText text (c :: r) = scanText (text.map (c :: ·)) r := by
  rw [scanText.eq_def]
  split <;> simp_all

/-- An escaped character is read back. -/
theorem scanText_escape (text : Option (List Char)) (c : Char) (r : List Char) :
    scanText text (escape c ++ r) = scanText (text.map (c :: ·)) r := by
  have hchar : ∀ n, c.toNat = n → c = Char.ofNat n := fun n h => h ▸ (Char.ofNat_toNat c).symm
  unfold escape
  split
  · subst c
    exact scanText_plainEscape rfl
  split
  · subst c
    exact scanText_plainEscape rfl
  split
  · rw [hchar 8 ‹_›]
    exact scanText_plainEscape rfl
  split
  · rw [hchar 9 ‹_›]
    exact scanText_plainEscape rfl
  split
  · rw [hchar 10 ‹_›]
    exact scanText_plainEscape rfl
  split
  · rw [hchar 12 ‹_›]
    exact scanText_plainEscape rfl
  split
  · rw [hchar 13 ‹_›]
    exact scanText_plainEscape rfl
  split
  · exact scanText_codeUnit ‹_›
  · exact scanText_self ‹_› ‹_› ‹_›

theorem scanText_escapes (read : List Char) (s r : List Char) :
    scanText (some read) (s.flatMap escape ++ '"' :: r) =
      some (some (String.ofList (read.reverse ++ s)), r) := by
  induction s generalizing read with
  | nil => simp [scanText]
  | cons c s ih =>
    rw [List.flatMap_cons, List.append_assoc, scanText_escape, Option.map_some, ih]
    simp

/-- A quoted text is one word. -/
theorem scan_quote (done : List Token) (s : String) (r : List Char) :
    scan done (quote s ++ r) = scan (text (some s) :: done) r := by
  have hscan := scanText_escapes [] s.toList r
  rw [quote, List.append_assoc, List.singleton_append, List.cons_append]
  refine scan_of_next? rfl ?_
  rw [next?, hscan]
  simp

/-! ## Numbers -/

/-- What may follow a number: nothing that could belong to it. -/
def Delimited (l : List Char) : Prop :=
  ∀ c ∈ l.head?, c.isDigit = false ∧ c ≠ '.' ∧ c ≠ 'e' ∧ c ≠ 'E'

theorem digitsValue_eq (l : List Char) : digitsValue l = Nat.ofDigitChars 10 l 0 := by
  rw [digitsValue, Nat.ofDigitChars_eq_foldl]
  simp [Nat.mul_comm]

theorem toDigits_head {n : Nat} (h : 0 < n) : ∃ c l, Nat.toDigits 10 n = c :: l ∧ c ≠ '0' := by
  induction n using Nat.strongRecOn with
  | _ n ih =>
    by_cases hlt : n < 10
    · refine ⟨_, [], Nat.toDigits_of_lt_base hlt, ?_⟩
      interval_cases n <;> decide
    · obtain ⟨c, l, hl, hc⟩ := ih (n / 10) (by omega) (by omega)
      exact ⟨c, l ++ [(n % 10).digitChar],
        by rw [Nat.toDigits_of_base_le (by decide) (by omega), hl, List.cons_append], hc⟩

theorem isWhole_toDigits (n : Nat) : isWhole (Nat.toDigits 10 n) = true := by
  rcases Nat.eq_zero_or_pos n with rfl | h
  · rw [Nat.toDigits_zero]
    rfl
  · obtain ⟨c, l, hl, hc⟩ := toDigits_head h
    rw [hl]
    unfold isWhole
    split <;> simp_all

theorem spanDigits_toDigits (n : Nat) (h : Delimited r) :
    spanDigits (Nat.toDigits 10 n ++ r) = (Nat.toDigits 10 n, r) := by
  have hdigits : ∀ c ∈ Nat.toDigits 10 n, c.isDigit := fun c hc =>
    Nat.isDigit_of_mem_toDigits (by decide) (by decide) hc
  have hr : r.takeWhile Char.isDigit = [] ∧ r.dropWhile Char.isDigit = r := by
    cases r with
    | nil => exact ⟨rfl, rfl⟩
    | cons c r => simp [(h c rfl).1]
  unfold spanDigits
  rw [List.takeWhile_append_of_pos hdigits, List.dropWhile_append_of_pos hdigits, hr.1, hr.2,
    List.append_nil]

theorem scanMagnitude_toDigits (negative : Bool) (n : Nat) (h : Delimited r) :
    scanMagnitude negative (Nat.toDigits 10 n ++ r) =
      some (signed negative (Nat.toDigits 10 n), r) := by
  have hfraction : skipFraction r = some (false, r) := by
    unfold skipFraction
    split
    · exact absurd rfl (h '.' rfl).2.1
    · rfl
  have hexponent : skipExponent r = some (false, r) := by
    cases r with
    | nil => rfl
    | cons c r =>
      unfold skipExponent
      exact if_neg (not_or.2 ⟨(h c rfl).2.2.1, (h c rfl).2.2.2⟩)
  unfold scanMagnitude
  rw [spanDigits_toDigits n h]
  simp [isWhole_toDigits, hfraction, hexponent]

theorem ne_of_isDigit {b : Char} (h : c.isDigit = true) (hb : b.isDigit = false) : c ≠ b := by
  rintro rfl
  rw [h] at hb
  cases hb

/-- A digit starts a number. -/
theorem next?_digit (h : c.isDigit = true) (l : List Char) : next? (c :: l) =
    (scanMagnitude false (c :: l)).map fun (n, r) => (number n, r) := by
  have hpunctuation : punctuation? c = none := by
    unfold punctuation?
    split <;> first | rfl | exact absurd rfl (ne_of_isDigit h rfl)
  rw [next?.eq_def]
  split <;> rename_i he
  · cases he
  -- The words and marks that start with no digit.
  iterate 5 exact absurd (List.cons.inj he).1 (ne_of_isDigit h rfl)
  · cases he
    rw [hpunctuation]

theorem scan_nat (done : List Token) (n : Nat) (h : Delimited r) :
    scan done (Nat.toDigits 10 n ++ r) = scan (number (some n) :: done) r := by
  have hscan := scanMagnitude_toDigits false n h
  obtain ⟨c, l, hl⟩ := List.exists_cons_of_ne_nil (Nat.toDigits_ne_nil (n := n) (b := 10))
  have hdigit : c.isDigit = true := Nat.isDigit_of_mem_toDigits (n := n) (b := 10) (by decide)
    (by decide) (hl ▸ List.mem_cons_self)
  rw [hl, List.cons_append] at hscan ⊢
  refine scan_of_next? ?_ ?_
  · have hne := fun b => ne_of_isDigit (b := b) hdigit
    simp [isBlank, hne ' ' rfl, hne '\n' rfl, hne '\t' rfl, hne '\r' rfl]
  · rw [next?_digit hdigit, hscan, signed, ← hl, digitsValue_eq, Nat.ofDigitChars_ten_toDigits]
    rfl

/-- A number is one word. -/
theorem scan_int (done : List Token) (n : Int) (h : Delimited r) :
    scan done ((toString n).toList ++ r) = scan (number (some n) :: done) r := by
  cases n with
  | ofNat n =>
    rw [show toString (Int.ofNat n) = n.repr from rfl, Nat.toList_repr]
    exact scan_nat done n h
  | negSucc n =>
    have hscan := scanMagnitude_toDigits true (n + 1) h
    rw [show toString (Int.negSucc n) = "-" ++ (n + 1).repr from rfl, String.toList_append,
      Nat.toList_repr, show "-".toList = ['-'] by simp, List.append_assoc, List.singleton_append]
    refine scan_of_next? rfl ?_
    rw [next?, hscan, signed, digitsValue_eq, Nat.ofDigitChars_ten_toDigits]
    rfl

end Token

/-! ## Values -/

mutual

/-- The words of a value as it is printed. -/
def words : Json → List Token
  | null | number none | text none => [.null]
  | bool b => [.bool b]
  | number (some n) => [.number (some n)]
  | text (some s) => [.text (some s)]
  | array [] => [.openBracket, .closeBracket]
  | array (v :: items) => .openBracket :: words v ++ itemWords items
  | object [] => [.openBrace, .closeBrace]
  | object ((k, v) :: fields) =>
    .openBrace :: .text (some (k.getD "")) :: .colon :: words v ++ fieldWords fields

/-- The words of the items after the first, and the closing bracket. -/
def itemWords : List Json → List Token
  | [] => [.closeBracket]
  | v :: items => .comma :: words v ++ itemWords items

/-- The words of the fields after the first, and the closing brace. -/
def fieldWords : List (Option String × Json) → List Token
  | [] => [.closeBrace]
  | (k, v) :: fields =>
    .comma :: .text (some (k.getD "")) :: .colon :: words v ++ fieldWords fields

end

theorem delimited_newLine (level : Nat) (r : List Char) : Token.Delimited (newLine level ++ r) := by
  rintro c ⟨⟩
  decide

theorem delimited_comma (r : List Char) : Token.Delimited (',' :: r) := by
  rintro c ⟨⟩
  decide

theorem delimited_prettyItems (level : Nat) (items : List Json) (r : List Char) :
    Token.Delimited (prettyItems level items ++ r) := by
  cases items with
  | nil =>
    rw [prettyItems, List.append_assoc]
    exact delimited_newLine level _
  | cons v items =>
    rw [prettyItems]
    exact delimited_comma _

theorem delimited_prettyFields (level : Nat) (fields : List (Option String × Json))
    (r : List Char) :
    Token.Delimited (prettyFields level fields ++ r) := by
  cases fields with
  | nil =>
    rw [prettyFields, List.append_assoc]
    exact delimited_newLine level _
  | cons f fields =>
    rw [prettyFields]
    exact delimited_comma _

mutual

/-- A printed value is read as its words, if what follows does not belong to a number. -/
theorem scan_prettyChars (v : Json) (level : Nat) (done : List Token) (r : List Char)
    (h : Token.Delimited r) :
    Token.scan done (v.prettyChars level ++ r) = Token.scan (v.words.reverse ++ done) r := by
  match v with
  | null | number none | text none =>
    rw [prettyChars, words, show "null".toList = ['n', 'u', 'l', 'l'] by simp]
    exact Token.scan_of_next? rfl rfl
  | bool true =>
    rw [prettyChars, words, show "true".toList = ['t', 'r', 'u', 'e'] by simp]
    exact Token.scan_of_next? rfl rfl
  | bool false =>
    rw [prettyChars, words, show "false".toList = ['f', 'a', 'l', 's', 'e'] by simp]
    exact Token.scan_of_next? rfl rfl
  | number (some n) =>
    rw [prettyChars, words]
    exact Token.scan_int done n h
  | text (some s) =>
    rw [prettyChars, words]
    exact Token.scan_quote done s r
  | array [] | object [] =>
    rw [prettyChars, words]
    exact (Token.scan_of_next? rfl rfl).trans (Token.scan_of_next? rfl rfl)
  | array (v :: items) =>
    rw [prettyChars, words]
    simp only [List.append_assoc, List.cons_append]
    rw [Token.scan_of_next? rfl rfl, Token.scan_newLine,
      scan_prettyChars v _ _ _ (delimited_prettyItems _ _ _), scan_prettyItems items]
    simp
  | object ((k, v) :: fields) =>
    rw [prettyChars, words]
    simp only [List.append_assoc, List.cons_append, List.nil_append]
    rw [Token.scan_of_next? rfl rfl, Token.scan_newLine, Token.scan_quote,
      Token.scan_of_next? rfl rfl, Token.scan_blank rfl,
      scan_prettyChars v _ _ _ (delimited_prettyFields _ _ _), scan_prettyFields fields]
    simp

theorem scan_prettyItems (items : List Json) (level : Nat) (done : List Token) (r : List Char) :
    Token.scan done (prettyItems level items ++ r) =
      Token.scan ((itemWords items).reverse ++ done) r := by
  match items with
  | [] =>
    rw [prettyItems, itemWords, List.append_assoc, Token.scan_newLine]
    exact Token.scan_of_next? rfl rfl
  | v :: items =>
    rw [prettyItems, itemWords]
    simp only [List.append_assoc, List.cons_append]
    rw [Token.scan_of_next? rfl rfl, Token.scan_newLine,
      scan_prettyChars v _ _ _ (delimited_prettyItems _ _ _), scan_prettyItems items]
    simp

theorem scan_prettyFields (fields : List (Option String × Json)) (level : Nat) (done : List Token)
    (r : List Char) : Token.scan done (prettyFields level fields ++ r) =
      Token.scan ((fieldWords fields).reverse ++ done) r := by
  match fields with
  | [] =>
    rw [prettyFields, fieldWords, List.append_assoc, Token.scan_newLine]
    exact Token.scan_of_next? rfl rfl
  | (k, v) :: fields =>
    rw [prettyFields, fieldWords]
    simp only [List.append_assoc, List.cons_append, List.nil_append]
    rw [Token.scan_of_next? rfl rfl, Token.scan_newLine, Token.scan_quote,
      Token.scan_of_next? rfl rfl, Token.scan_blank rfl,
      scan_prettyChars v _ _ _ (delimited_prettyFields _ _ _), scan_prettyFields fields]
    simp

end

/-- A printed value has its words and no others. -/
theorem tokens?_pretty (v : Json) : tokens? v.pretty = some v.words := by
  have hscan := scan_prettyChars v 0 [] [] nofun
  rw [List.append_nil, List.append_nil] at hscan
  rw [tokens?, pretty, String.toList_ofList, hscan, Token.scan, List.reverse_reverse]

end ParticleChain.Json
