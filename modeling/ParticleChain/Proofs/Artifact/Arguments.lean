import Mathlib.Algebra.Group.Nat.Defs
import Mathlib.Order.Bounds.Basic
import ParticleChain.Artifact.Source

/-!
# The arguments of a body

An index is digits between `args[` and `]`. Indices do not overlap, so the scan finds all of them
although it goes on behind each. `Tallies` says what a scan comes to: a lemma for each way of going
on, and from them, by recursion on the text, the whole scan (`tallies_countArgs`). The count is one
more than the highest index, and what is refused is the first that is too high (`argsCount_exact`).
-/

namespace ParticleChain.Artifact

variable {limit k i : Nat} {count n : UInt32} {text r digits : List Char} {c : Char}

/-! ## Indices -/

/-- The number that digits stand for. -/
def decimal (digits : List Char) : Nat := Nat.ofDigitChars 10 digits 0

theorem indexValue_eq (digits : List Char) : indexValue digits = decimal digits := by
  rw [indexValue, decimal, Nat.ofDigitChars_eq_foldl]
  simp [Nat.mul_comm]

/-- The text starts with digits, one at least, and a closing bracket. -/
structure Closes (text digits : List Char) : Prop where
  ne_nil : digits ≠ []
  isDigit : ∀ c ∈ digits, c.isDigit = true
  stands : ∃ after, text = digits ++ ']' :: after

/-- `args[`, the digits and `]` stand in the text from position `i` on. -/
def IndexAt (text : List Char) (i : Nat) (digits : List Char) : Prop :=
  ∃ r, text.drop i = 'a' :: 'r' :: 'g' :: 's' :: '[' :: r ∧ Closes r digits

/-- The numbers of the indices in a body. -/
def indices (body : String) : Set Nat :=
  {n | ∃ i digits, IndexAt body.toList i digits ∧ decimal digits = n}

/-- The digits are all there are: the bracket is none. -/
theorem closes_iff : Closes r digits ↔ digits = r.takeWhile Char.isDigit ∧ digits ≠ [] ∧
    (r.dropWhile Char.isDigit).head? = some ']' := by
  constructor
  · rintro ⟨hne, hdigits, after, rfl⟩
    rw [List.takeWhile_append_of_pos hdigits, List.dropWhile_append_of_pos hdigits]
    exact ⟨(List.append_nil digits).symm, hne, rfl⟩
  · rintro ⟨rfl, hne, hhead⟩
    obtain ⟨after, hafter⟩ := List.head?_eq_some_iff.1 hhead
    refine ⟨hne, List.all_eq_true.1 List.all_takeWhile, after, ?_⟩
    rw [← hafter, List.takeWhile_append_dropWhile]

theorem not_indexAt_nil : ¬ IndexAt [] i digits := by
  rintro ⟨r, hr, -⟩
  rw [List.drop_nil] at hr
  cases hr

/-- Where no bracket is opened, indices only start later. -/
theorem indexAt_cons (h : ∀ r, c :: text ≠ 'a' :: 'r' :: 'g' :: 's' :: '[' :: r) :
    IndexAt (c :: text) i digits ↔ ∃ j, i = j + 1 ∧ IndexAt text j digits := by
  cases i with
  | zero =>
    constructor
    · rintro ⟨r, hr, -⟩
      exact absurd hr (h r)
    · rintro ⟨j, hj, -⟩
      cases hj
  | succ i =>
    constructor
    · exact fun h => ⟨i, rfl, h⟩
    · rintro ⟨j, hj, h⟩
      obtain rfl := Nat.succ.inj hj
      exact h

theorem indexAt_cons_of_ne (h : c ≠ 'a') :
    IndexAt (c :: text) i digits ↔ ∃ j, i = j + 1 ∧ IndexAt text j digits :=
  indexAt_cons fun _ he => h (List.cons.inj he).1

/-- No index starts within the five characters that open one. -/
theorem indexAt_open : IndexAt ('a' :: 'r' :: 'g' :: 's' :: '[' :: r) i digits ↔
    i = 0 ∧ Closes r digits ∨ ∃ j, i = j + 5 ∧ IndexAt r j digits := by
  match i with
  | 0 =>
    constructor
    · rintro ⟨r', hr, hc⟩
      cases hr
      exact .inl ⟨rfl, hc⟩
    · rintro (⟨-, hc⟩ | ⟨j, hj, -⟩)
      · exact ⟨r, rfl, hc⟩
      · cases hj
  | i + 1 =>
    show IndexAt ('r' :: 'g' :: 's' :: '[' :: r) i digits ↔ _
    simp only [indexAt_cons_of_ne (show 'r' ≠ 'a' by decide),
      indexAt_cons_of_ne (show 'g' ≠ 'a' by decide), indexAt_cons_of_ne (show 's' ≠ 'a' by decide),
      indexAt_cons_of_ne (show '[' ≠ 'a' by decide)]
    constructor
    · rintro ⟨_, rfl, _, rfl, _, rfl, j, rfl, h⟩
      exact .inr ⟨j, rfl, h⟩
    · rintro (⟨h, -⟩ | ⟨j, hj, h⟩)
      · cases h
      · obtain rfl := Nat.succ.inj hj
        exact ⟨_, rfl, _, rfl, _, rfl, j, rfl, h⟩

/-! ## Tallies -/

/-- The first of the indices found that is too high. -/
def FirstAbove (limit : Nat) (Found : Nat → List Char → Prop) (digits : List Char) : Prop :=
  ∃ i, Found i digits ∧ limit < decimal digits ∧
    ∀ j < i, ∀ others, Found j others → decimal others ≤ limit

/-- What a count comes to when just these indices are found from there on. -/
def Tallies (limit : Nat) (count : UInt32) (Found : Nat → List Char → Prop) :
    Except SourceError UInt32 → Prop
  | .ok n =>
    (∀ i digits, Found i digits → decimal digits ≤ limit ∧ decimal digits < n.toNat) ∧
      count ≤ n ∧ (n = count ∨ ∃ i digits, Found i digits ∧ n.toNat = decimal digits + 1)
  | .error e => ∃ digits, e = .argumentIndex (String.ofList digits) ∧
      FirstAbove limit Found digits

namespace Tallies

variable {Found Rest : Nat → List Char → Prop} {result : Except SourceError UInt32}

theorem done (h : ∀ i digits, ¬ Found i digits) : Tallies limit count Found (.ok count) :=
  ⟨fun i digits hf => absurd hf (h i digits), UInt32.le_refl count, .inl rfl⟩

/-- Nothing is found in the first `k` characters. -/
theorem skip (h : ∀ i digits, Found i digits ↔ ∃ j, i = j + k ∧ Rest j digits)
    (ht : Tallies limit count Rest result) : Tallies limit count Found result := by
  cases result with
  | ok n =>
    obtain ⟨hbounds, hle, hn⟩ := ht
    refine ⟨fun i digits hf => ?_, hle, hn.imp_right ?_⟩
    · obtain ⟨j, -, hr⟩ := (h i digits).1 hf
      exact hbounds j digits hr
    · rintro ⟨j, digits, hr, hn⟩
      exact ⟨j + k, digits, (h _ _).2 ⟨j, rfl, hr⟩, hn⟩
  | error e =>
    obtain ⟨digits, he, j, hr, hlt, hbefore⟩ := ht
    refine ⟨digits, he, j + k, (h _ _).2 ⟨j, rfl, hr⟩, hlt, fun i hi others hf => ?_⟩
    obtain ⟨j', rfl, hr'⟩ := (h i others).1 hf
    exact hbefore j' (Nat.lt_of_add_lt_add_right hi) others hr'

/-- One is found at the front, and counted. -/
theorem take
    (h : ∀ i others, Found i others ↔ i = 0 ∧ others = digits ∨ ∃ j, i = j + k ∧ Rest j others)
    (hle : decimal digits ≤ limit) (hn : n.toNat = max count.toNat (decimal digits + 1))
    (ht : Tallies limit n Rest result) : Tallies limit count Found result := by
  have hfront : Found 0 digits := (h 0 digits).2 (.inl ⟨rfl, rfl⟩)
  cases result with
  | ok m =>
    obtain ⟨hbounds, hnm, hm⟩ := ht
    have hnm : n.toNat ≤ m.toNat := UInt32.le_iff_toNat_le.1 hnm
    refine ⟨fun i others hf => ?_, UInt32.le_iff_toNat_le.2 (by omega), ?_⟩
    · obtain ⟨-, rfl⟩ | ⟨j, -, hr⟩ := (h i others).1 hf
      · exact ⟨hle, by omega⟩
      · exact hbounds j others hr
    · obtain rfl | ⟨j, others, hr, hm⟩ := hm
      · by_cases hmax : decimal digits < count.toNat
        · exact .inl (UInt32.toNat_inj.1 (by omega))
        · exact .inr ⟨0, digits, hfront, by omega⟩
      · exact .inr ⟨j + k, others, (h _ _).2 (.inr ⟨j, rfl, hr⟩), hm⟩
  | error e =>
    obtain ⟨others, he, j, hr, hlt, hbefore⟩ := ht
    refine ⟨others, he, j + k, (h _ _).2 (.inr ⟨j, rfl, hr⟩), hlt, fun i hi others hf => ?_⟩
    obtain ⟨-, rfl⟩ | ⟨j', rfl, hr'⟩ := (h i others).1 hf
    · exact hle
    · exact hbefore j' (Nat.lt_of_add_lt_add_right hi) others hr'

/-- One is found at the front that is too high. -/
theorem refuse (h : Found 0 digits) (hlt : limit < decimal digits) :
    Tallies limit count Found (.error (.argumentIndex (String.ofList digits))) :=
  ⟨digits, rfl, 0, h, hlt, fun _ hi => absurd hi (Nat.not_lt_zero _)⟩

end Tallies

/-- An index within the limit is counted as it is: neither it nor the number after it wraps. -/
theorem toNat_index (hl : limit < 2 ^ 32 - 1) (h : decimal digits ≤ limit) :
    (max count ((indexValue digits).toUInt32 + 1)).toNat =
      max count.toNat (decimal digits + 1) := by
  rw [UInt32.toNat_max, UInt32.toNat_add, indexValue_eq, Nat.toUInt32, UInt32.toNat_ofNat']
  simp only [UInt32.toNat_one]
  omega

theorem tallies_countArgs (hl : limit < 2 ^ 32 - 1) (count : UInt32) (text : List Char) :
    Tallies limit count (IndexAt text) (countArgs limit count text) := by
  fun_induction countArgs limit count text with
  | case1 count => exact .done fun _ _ => not_indexAt_nil
  | case2 count r found hnone ih =>
    -- The bracket is left open, or has something else in it.
    refine .skip (k := 5) (fun i digits => ?_) ih
    rw [indexAt_open, or_iff_right]
    rintro ⟨-, hc⟩
    obtain ⟨rfl, hne, hhead⟩ := closes_iff.1 hc
    simp [found, hne, hhead] at hnone
  | case3 count r found hsome index hle ih =>
    have hcloses : ∀ digits, Closes r digits ↔ digits = found := by
      intro digits
      rw [closes_iff]
      refine and_iff_left_of_imp ?_
      rintro rfl
      simpa [found] using hsome
    have hle : decimal found ≤ limit := by
      rw [← indexValue_eq]
      exact (by simpa [index] using hle : _ ∧ _).1
    refine .take (k := 5) (fun i digits => ?_) hle (toNat_index hl hle) ih
    rw [indexAt_open, hcloses]
  | case4 count r found hsome index hnot =>
    refine .refuse (indexAt_open.2 (.inl ⟨rfl, closes_iff.2 ⟨rfl, ?_⟩⟩)) ?_
    · simpa [found] using hsome
    · rw [← indexValue_eq]
      have hsize : UInt64.size = 2 ^ 64 := rfl
      simp [index] at hnot
      omega
  | case5 count c r hother ih =>
    refine .skip (k := 1) (fun i digits => indexAt_cons fun r' he => ?_) ih
    obtain ⟨hc, hr⟩ := List.cons.inj he
    exact hother r' hc hr

/-! ## Counts -/

variable {body : String}

theorem tallies_argsCount (hl : limit < 2 ^ 32 - 1) (body : String) :
    Tallies limit 0 (IndexAt body.toList) (argsCount body limit) :=
  tallies_countArgs hl 0 body.toList

/-- Arguments are counted just if no index is too high. -/
theorem argsCount_ok_iff (hl : limit < 2 ^ 32 - 1) :
    (∃ count, argsCount body limit = .ok count) ↔ ∀ n ∈ indices body, n ≤ limit := by
  have htally := tallies_argsCount hl body
  constructor
  · rintro ⟨count, hcount⟩ n ⟨i, digits, hat, rfl⟩
    rw [hcount] at htally
    exact (htally.1 i digits hat).1
  · intro hall
    cases hr : argsCount body limit with
    | ok count => exact ⟨count, rfl⟩
    | error e =>
      rw [hr] at htally
      obtain ⟨digits, -, i, hat, hlt, -⟩ := htally
      exact absurd (hall _ ⟨i, digits, hat, rfl⟩) (Nat.not_le.2 hlt)

/-- If no index in a body is above the limit, its arguments are counted: one more than the highest
index, and none if there is no index. Otherwise the first index above the limit is refused, by its
digits. The scan is a recursion on the text, so that there is an answer for each. -/
theorem argsCount_exact (body : String) (limit : Nat) (hl : limit < 2 ^ 32 - 1) :
    ((∀ n ∈ indices body, n ≤ limit) → ∃ count, argsCount body limit = .ok count ∧
      (indices body = ∅ ∧ count = 0 ∨
        ∃ n, IsGreatest (indices body) n ∧ count.toNat = n + 1)) ∧
    ((∃ n ∈ indices body, limit < n) → ∃ digits, FirstAbove limit (IndexAt body.toList) digits ∧
      argsCount body limit = .error (.argumentIndex (String.ofList digits))) := by
  have htally := tallies_argsCount hl body
  constructor
  · intro hall
    obtain ⟨count, hcount⟩ := (argsCount_ok_iff hl).2 hall
    rw [hcount] at htally
    obtain ⟨hbounds, -, htop⟩ := htally
    refine ⟨count, hcount, ?_⟩
    obtain rfl | ⟨i, digits, hat, hn⟩ := htop
    · refine .inl ⟨Set.eq_empty_of_forall_notMem ?_, rfl⟩
      rintro n ⟨i, digits, hat, rfl⟩
      exact Nat.not_lt_zero _ (hbounds i digits hat).2
    · refine .inr ⟨decimal digits, ⟨⟨i, digits, hat, rfl⟩, ?_⟩, hn⟩
      rintro n ⟨j, others, hat', rfl⟩
      have hlt := (hbounds j others hat').2
      omega
  · rintro ⟨n, hn, hlt⟩
    cases hr : argsCount body limit with
    | ok count => exact absurd ((argsCount_ok_iff hl).1 ⟨count, hr⟩ n hn) (Nat.not_le.2 hlt)
    | error e =>
      rw [hr] at htally
      obtain ⟨digits, rfl, hfirst⟩ := htally
      exact ⟨digits, hfirst, rfl⟩

/-- An index within brackets that are no index themselves, a lower one, and a bracket left open. -/
theorem argsCount_exact_nested :
    let body := "args[args[007]] + args[3] + args["
    argsCount body 10 = .ok 8 ∧ IsGreatest (indices body) 7 ∧
      FirstAbove 5 (IndexAt body.toList) ['0', '0', '7'] := by
  intro body
  have hcount : argsCount body 10 = .ok 8 := by decide
  have hwithin : ∀ n ∈ indices body, n ≤ 10 := (argsCount_ok_iff (by decide)).1 ⟨8, hcount⟩
  have hgreatest : IsGreatest (indices body) 7 := by
    obtain ⟨count, hok, ⟨-, rfl⟩ | ⟨n, hn, hsucc⟩⟩ :=
      (argsCount_exact body 10 (by decide)).1 hwithin
    · rw [hcount] at hok
      cases hok
    · rw [hcount] at hok
      cases hok
      rwa [← Nat.succ.inj hsucc] at hn
  obtain ⟨digits, hfirst, hrefused⟩ :=
    (argsCount_exact body 5 (by decide)).2 ⟨7, hgreatest.1, by decide⟩
  have hdigits : argsCount body 5 = .error (.argumentIndex (String.ofList ['0', '0', '7'])) := by
    decide
  rw [hdigits, Except.error.injEq, SourceError.argumentIndex.injEq, String.ofList_inj] at hrefused
  exact ⟨hcount, hgreatest, hrefused ▸ hfirst⟩

end ParticleChain.Artifact
