import ParticleChain.Json.Parse
import ParticleChain.Proofs.Json.Words

/-!
# Printed JSON is read back

The words of a value bring the reader from where a value is expected to behind that value, whatever
arrays and objects are open around it (`foldlM_words`). So a value without parts that cannot be read
is what its print spells (`parse?_pretty`).
-/

namespace ParticleChain.Json

/-- A value in which every number, text and key stands for one of ours. -/
inductive Plain : Json → Prop
  | null : Plain null
  | bool (b : Bool) : Plain (bool b)
  | number (n : Int) : Plain (ofInt n)
  | text (s : String) : Plain (ofString s)
  | array {items : List Json} (h : ∀ v ∈ items, Plain v) : Plain (array items)
  | object {fields : List (Option String × Json)} (hk : ∀ f ∈ fields, f.1.isSome = true)
    (h : ∀ f ∈ fields, Plain f.2) : Plain (object fields)

/-- The words of the value lead behind it. -/
def Spelled (v : Json) : Prop := ∀ (around : List Open) (more : List Token),
  (v.words ++ more).foldlM step (.value, around) = more.foldlM step (.after v, around)

theorem foldlM_itemWords {items : List Json} (h : ∀ v ∈ items, Spelled v) (done : List Json)
    (v : Json)
    (around : List Open) (more : List Token) :
    (itemWords items ++ more).foldlM step (.after v, .items done :: around) =
      more.foldlM step (.after (.array (done.reverse ++ v :: items)), around) := by
  induction items generalizing done v with
  | nil => simp [itemWords, step, continueValue]
  | cons w items ih =>
    obtain ⟨hw, hitems⟩ := List.forall_mem_cons.1 h
    simp only [itemWords, List.cons_append, List.append_assoc]
    change (w.words ++ (itemWords items ++ more)).foldlM step
      (.value, .items (v :: done) :: around) = _
    rw [hw, ih hitems]
    simp

theorem foldlM_fieldWords {fields : List (Option String × Json)}
    (hk : ∀ f ∈ fields, f.1.isSome = true) (h : ∀ f ∈ fields, Spelled f.2)
    (done : List (Option String × Json)) (k : Option String) (v : Json) (around : List Open)
    (more : List Token) :
    (fieldWords fields ++ more).foldlM step (.after v, .fields done k :: around) =
      more.foldlM step (.after (.object (done.reverse ++ (k, v) :: fields)), around) := by
  induction fields generalizing done k v with
  | nil => simp [fieldWords, step, continueValue]
  | cons f fields ih =>
    obtain ⟨hf, hfields⟩ := List.forall_mem_cons.1 h
    obtain ⟨hkey, hkeys⟩ := List.forall_mem_cons.1 hk
    obtain ⟨_ | key, w⟩ := f
    · cases hkey
    simp only [fieldWords, List.cons_append, List.append_assoc]
    change (w.words ++ (fieldWords fields ++ more)).foldlM step
      (.value, .fields ((k, v) :: done) (some key) :: around) = _
    rw [hf, ih hkeys hfields]
    simp

/-- Behind an opening bracket a value is expected, or the closing one, which no value starts with.
-/
theorem step_itemOrClose (v : Json) (around : List Open) (more : List Token) :
    (v.words ++ more).foldlM step (.itemOrClose, around) =
      (v.words ++ more).foldlM step (.value, .items [] :: around) := by
  obtain ⟨t, l, hl, ht⟩ : ∃ t l, v.words = t :: l ∧ t ≠ .closeBracket := by
    unfold words
    split <;> exact ⟨_, _, rfl, by simp⟩
  rw [hl, List.cons_append, List.foldlM_cons, List.foldlM_cons]
  cases t <;> first | rfl | exact absurd rfl ht

theorem Plain.spelled {v : Json} (h : Plain v) : Spelled v := by
  induction h with
  | null => exact fun _ _ => rfl
  | bool b => exact fun _ _ => rfl
  | number n => exact fun _ _ => rfl
  | text s => exact fun _ _ => rfl
  | @array items h ih =>
    intro around more
    cases items with
    | nil => rfl
    | cons v items =>
      obtain ⟨hv, hitems⟩ := List.forall_mem_cons.1 ih
      simp only [words, List.cons_append, List.append_assoc]
      change (v.words ++ (itemWords items ++ more)).foldlM step (.itemOrClose, around) = _
      rw [step_itemOrClose, hv, foldlM_itemWords hitems]
      rfl
  | @object fields hk h ih =>
    intro around more
    cases fields with
    | nil => rfl
    | cons f fields =>
      obtain ⟨hf, hfields⟩ := List.forall_mem_cons.1 ih
      obtain ⟨hkey, hkeys⟩ := List.forall_mem_cons.1 hk
      obtain ⟨_ | key, w⟩ := f
      · cases hkey
      simp only [words, List.cons_append, List.append_assoc]
      change (w.words ++ (fieldWords fields ++ more)).foldlM step
        (.value, .fields [] (some key) :: around) = _
      rw [hf, foldlM_fieldWords hkeys hfields]
      rfl

/-- A plain value is read back from its print. -/
theorem Plain.parse?_pretty {v : Json} (h : Plain v) : parse? v.pretty = some v := by
  have hwords := h.spelled [] []
  rw [List.append_nil] at hwords
  rw [parse?, tokens?_pretty, Option.bind_some, ofTokens?, hwords]
  rfl

/-! ## Values that are written -/

theorem plain_array {α : Type} {l : List α} {f : α → Json} (h : ∀ a, Plain (f a)) :
    Plain (array (l.map f)) := .array (List.forall_mem_map.2 fun a _ => h a)

theorem plain_ofFields {fields : List (String × Json)} (h : ∀ f ∈ fields, Plain f.2) :
    Plain (ofFields fields) :=
  .object (List.forall_mem_map.2 fun _ _ => rfl) (List.forall_mem_map.2 h)

end ParticleChain.Json
