import ParticleChain.Artifact.Validation
import ParticleChain.Proofs.Abi.Places

/-!
# What is valid

The names in a valid definition are identifiers. Identifiers are made of a few characters of ASCII,
none of which means anything in a path.
-/

namespace ParticleChain.Artifact

variable {k : Kind} {role text : String} {c : Char}

/-- A list passes a check just if each of its members does. -/
theorem forM_eq_ok {ε α : Type} {f : α → Except ε Unit} {l : List α} :
    l.forM f = .ok () ↔ ∀ x ∈ l, f x = .ok () := by
  induction l with
  | nil => exact ⟨fun _ _ h => (nomatch h), fun _ => rfl⟩
  | cons x l ih =>
    rw [List.forM, List.forall_mem_cons, ← ih]
    cases f x with
    | ok => exact ⟨fun h => ⟨rfl, h⟩, fun h => h.2⟩
    | error e => exact ⟨fun h => (nomatch h), fun h => (nomatch h.1)⟩

theorem requireName_eq_ok : requireName role text = .ok () ↔ isIdentifier text = true := by
  unfold requireName
  split
  · rename_i he
    rw [String.isEmpty_iff.1 he]
    exact ⟨nofun, fun h => absurd h (by decide)⟩
  · split
    · rename_i hi
      simp [hi]
    · rename_i hi
      simp [hi]

theorem isIdentifier_of_validate {d : Definition k} (h : d.validate = .ok ()) :
    isIdentifier d.name = true := by
  cases k <;>
  · obtain ⟨_, hname, -⟩ := Abi.bind_eq_ok.1 h
    exact requireName_eq_ok.1 hname

theorem validate_feature {f : Feature} (h : Definition.validate (k := .feature) f = .ok ()) :
    ∀ t ∈ f.transformations, isIdentifier t = true := by
  obtain ⟨_, -, hall⟩ := Abi.bind_eq_ok.1 h
  exact fun t ht => requireName_eq_ok.1 (forM_eq_ok.1 hall t ht)

/-- Only the condition of a valid particle may have no name. -/
theorem validate_particle {p : Particle} (h : Definition.validate (k := .particle) p = .ok ()) :
    isIdentifier p.feature = true ∧ (p.condition = "" ∨ isIdentifier p.condition = true) ∧
      ∀ c ∈ p.references, isIdentifier c = true := by
  have hreferences (h : p.references.forM (requireName "composite name") = .ok ()) :
      ∀ c ∈ p.references, isIdentifier c = true :=
    fun c hc => requireName_eq_ok.1 (forM_eq_ok.1 h c hc)
  obtain ⟨_, -, h⟩ := Abi.bind_eq_ok.1 h
  obtain ⟨_, hfeature, h⟩ := Abi.bind_eq_ok.1 h
  dsimp only at h
  split at h
  · rename_i he
    exact ⟨requireName_eq_ok.1 hfeature, .inl (String.isEmpty_iff.1 he), hreferences h⟩
  · obtain ⟨_, hcondition, h⟩ := Abi.bind_eq_ok.1 h
    exact ⟨requireName_eq_ok.1 hfeature, .inr (requireName_eq_ok.1 hcondition), hreferences h⟩

/-- What an identifier is made of. -/
theorem mem_identifier (h : isIdentifier text = true) (hc : c ∈ text.toList) :
    startsName c = true ∨ c.isDigit = true := by
  unfold isIdentifier at h
  split at h
  · cases h
  · rename_i first rest he
    obtain ⟨hfirst, hrest⟩ := Bool.and_eq_true_iff.1 h
    rw [he] at hc
    obtain rfl | hc := List.mem_cons.1 hc
    · exact .inl hfirst
    · exact Bool.or_eq_true_iff.1 (List.all_eq_true.1 hrest c hc)

theorem not_mem_identifier (h : isIdentifier text = true) (hs : startsName c = false)
    (hd : c.isDigit = false) : c ∉ text.toList := by
  intro hc
  obtain h | h := mem_identifier h hc
  · rw [hs] at h
    cases h
  · rw [hd] at h
    cases h

theorem ne_empty_of_isIdentifier (h : isIdentifier text = true) : text ≠ "" := by
  rintro rfl
  exact absurd h (by decide)

end ParticleChain.Artifact
