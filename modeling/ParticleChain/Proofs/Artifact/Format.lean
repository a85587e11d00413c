import ParticleChain.Artifact.Format
import ParticleChain.Proofs.Json.RoundTrip

/-!
# Records are read back as they were written

A structure is written with all its fields, each once, and so every field is found again
(`members?_ofFields`). What is read from the file of a record is the record
(`Record.parse?_render`).
-/

namespace ParticleChain

namespace Json

variable {α β : Type}

theorem mapM_eq_some {f : α → Option β} {g : α → β} {l : List α} (h : ∀ a ∈ l, f a = some (g a)) :
    l.mapM f = some (l.map g) := by
  induction l with
  | nil => rfl
  | cons a l ih =>
    obtain ⟨ha, hl⟩ := List.forall_mem_cons.1 h
    simp [List.mapM_cons, ha, ih hl]

/-- A key that is there once has one value. -/
theorem valuesOf_eq {fields : List (String × Json)} (h : (fields.map Prod.fst).Nodup)
    {f : String × Json} (hf : f ∈ fields) :
    valuesOf f.1 (fields.map fun (k, v) => (some k, v)) = [f.2] := by
  have hne : ∀ {l : List (String × Json)} {k}, k ∉ l.map Prod.fst →
      valuesOf k (l.map fun (k, v) => (some k, v)) = [] := by
    intro l k hk
    simp only [valuesOf, List.filterMap_eq_nil_iff, List.forall_mem_map]
    intro g hg
    refine if_neg fun he => hk ?_
    rw [← Option.some.inj he]
    exact List.mem_map_of_mem hg
  induction fields with
  | nil => cases hf
  | cons g fields ih =>
    obtain ⟨hg, hfields⟩ := List.nodup_cons.1 h
    obtain rfl | hf := List.mem_cons.1 hf
    · have hrest := hne hg
      simp only [valuesOf] at hrest ⊢
      simp [hrest]
    · have hrest := ih hfields hf
      have hgf : g.1 ≠ f.1 := fun he => hg (he ▸ List.mem_map_of_mem hf)
      simp only [valuesOf] at hrest ⊢
      simp [hrest, hgf]

theorem members?_ofFields {keys : List String} {values : List Json} (h : keys.Nodup)
    (hl : keys.length = values.length) :
    (ofFields (keys.zip values)).members? keys = some (values.map some) := by
  have hfst : (keys.zip values).map Prod.fst = keys := List.map_fst_zip hl.le
  have hsnd : (keys.zip values).map Prod.snd = values := List.map_snd_zip hl.ge
  rw [ofFields, members?, if_pos (by simp)]
  generalize keys.zip values = fields at hfst hsnd
  subst hfst hsnd
  rw [List.mapM_map, List.map_map]
  refine mapM_eq_some fun f hf => ?_
  rw [Function.comp_apply, valuesOf_eq h hf]
  rfl

theorem toList?_map {read : Json → Option α} {write : α → Json} (h : ∀ a, read (write a) = some a)
    (l : List α) : toList? read (array (l.map write)) = some l := by
  rw [toList?, List.mapM_map]
  exact (mapM_eq_some fun a _ => h a).trans (by rw [List.map_id'])

theorem toUInt32?_ofInt (n : UInt32) : toUInt32? (ofInt n.toNat) = some n := by
  have := n.toNat_lt
  unfold toUInt32? ofInt toInt?
  simp
  omega

theorem toInt32?_ofInt (n : Int32) : toInt32? (ofInt n.toInt) = some n := by
  have := n.toInt_lt
  have := n.le_toInt
  unfold toInt32? ofInt toInt?
  simp
  omega

end Json

namespace Artifact

open Json (Plain members?_ofFields ofFields ofString)

/-! ## Definitions -/

theorem Transformation.plain (t : Transformation) : Plain t.toJson :=
  Json.plain_ofFields (by simp [Plain.text])

theorem Transformation.ofJson?_toJson (t : Transformation) : ofJson? t.toJson = some t := by
  rw [ofJson?, show t.toJson = ofFields (["name", "sol_src"].zip [ofString t.name, ofString t.body])
    from rfl, members?_ofFields (by decide) rfl]
  rfl

theorem Condition.plain (c : Condition) : Plain c.toJson :=
  Json.plain_ofFields (by simp [Plain.text])

theorem Condition.ofJson?_toJson (c : Condition) : ofJson? c.toJson = some c := by
  rw [ofJson?, show c.toJson = ofFields (["name", "sol_src"].zip [ofString c.name, ofString c.body])
    from rfl, members?_ofFields (by decide) rfl]
  rfl

theorem plain_ofUInt32s (l : List UInt32) : Plain (ofUInt32s l) :=
  Json.plain_array fun n => .number n.toNat

theorem plain_ofInt32s (l : List Int32) : Plain (ofInt32s l) :=
  Json.plain_array fun n => .number n.toInt

theorem Application.plain (a : Application) : Plain a.toJson :=
  Json.plain_ofFields (by simp [Plain.text, plain_ofUInt32s])

theorem Application.ofJson?_toJson (a : Application) : ofJson? a.toJson = some a := by
  have hargs := Json.toList?_map Json.toUInt32?_ofInt a.args
  rw [ofJson?, show a.toJson = ofFields (["name", "args"].zip [ofString a.transformation,
    ofUInt32s a.args]) from rfl, members?_ofFields (by decide) rfl]
  simp [ofString, Json.toText?, Json.orEmpty, ofUInt32s, hargs]

theorem Dimension.plain (d : Dimension) : Plain d.toJson :=
  Json.plain_ofFields (by simp [Json.plain_array Application.plain])

theorem Dimension.ofJson?_toJson (d : Dimension) : ofJson? d.toJson = some d := by
  have happlications := Json.toList?_map Application.ofJson?_toJson d.applications
  rw [ofJson?, show d.toJson = ofFields (["transformations"].zip
    [.array (d.applications.map Application.toJson)]) from rfl, members?_ofFields (by decide) rfl]
  simp [Json.orEmpty, happlications]

theorem Feature.plain (f : Feature) : Plain f.toJson :=
  Json.plain_ofFields (by simp [Plain.text, Json.plain_array Dimension.plain])

theorem Feature.ofJson?_toJson (f : Feature) : ofJson? f.toJson = some f := by
  have hdimensions := Json.toList?_map Dimension.ofJson?_toJson f.dimensions
  rw [ofJson?, show f.toJson = ofFields (["name", "dimensions"].zip [ofString f.name,
    .array (f.dimensions.map Dimension.toJson)]) from rfl, members?_ofFields (by decide) rfl]
  simp [ofString, Json.toText?, Json.orEmpty, hdimensions]

theorem Particle.plain (p : Particle) : Plain p.toJson :=
  Json.plain_ofFields (by simp [Plain.text, Json.plain_array Plain.text, plain_ofInt32s])

theorem Particle.ofJson?_toJson (p : Particle) : ofJson? p.toJson = some p := by
  have hcomposites : Json.toList? Json.toText? (.array (p.compositeNames.map ofString)) =
      some p.compositeNames :=
    Json.toList?_map (show ∀ s, Json.toText? (ofString s) = some s from fun _ => rfl) _
  have hargs := Json.toList?_map Json.toInt32?_ofInt p.conditionArgs
  rw [ofJson?, show p.toJson = ofFields
    (["name", "feature_name", "composite_names", "condition_name", "condition_args"].zip
      [ofString p.name, ofString p.feature, .array (p.compositeNames.map ofString),
        ofString p.condition, ofInt32s p.conditionArgs]) from rfl,
      members?_ofFields (by decide) rfl]
  simp [ofString, Json.toText?, Json.orEmpty, ofInt32s, hcomposites, hargs]

namespace Record

variable {k : Kind}

theorem plain (r : Record k) : Plain r.toJson := by
  have hdefinition : Plain r.definition.toJson := by
    cases k
    · exact Transformation.plain _
    · exact Condition.plain _
    · exact Feature.plain _
    · exact Particle.plain _
  exact Json.plain_ofFields (by simp [Plain.text, hdefinition])

theorem ofJson?_toJson (r : Record k) : ofJson? r.toJson = some r := by
  have hdefinition : Definition.ofJson? r.definition.toJson = some r.definition := by
    cases k
    · exact Transformation.ofJson?_toJson _
    · exact Condition.ofJson?_toJson _
    · exact Feature.ofJson?_toJson _
    · exact Particle.ofJson?_toJson _
  have hkeys : [k.label, "owner"].Nodup := by cases k <;> decide
  rw [ofJson?, show r.toJson = ofFields ([k.label, "owner"].zip [r.definition.toJson,
    ofString r.owner]) from rfl, members?_ofFields hkeys rfl]
  simp [ofString, Json.toText?, hdefinition]

/-- A record is read back from its file. -/
theorem parse?_render (r : Record k) : parse? r.render = some r := by
  rw [parse?, render, r.plain.parse?_pretty, Option.bind_some, ofJson?_toJson]

/-- Two records with the same text are of one kind. -/
theorem kind_eq_of_render {l : Kind} {r : Record k} {r' : Record l} (h : r.render = r'.render) :
    k = l := by
  have hparse := congrArg Json.parse? h
  rw [render, render, r.plain.parse?_pretty, r'.plain.parse?_pretty] at hparse
  have hfields := Json.object.inj (Option.some.inj hparse)
  have hlabel : k.label = l.label :=
    Option.some.inj (Prod.mk.inj (List.cons.inj hfields).1).1
  revert hlabel
  cases k <;> cases l <;> decide

end Record

end Artifact

end ParticleChain
