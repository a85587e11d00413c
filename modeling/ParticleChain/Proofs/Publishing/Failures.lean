import ParticleChain.Proofs.Publishing.Trials
import ParticleChain.Proofs.Registry.Rollbacks

/-!
# Records that could not be published

Publishing goes through stages, each of which may fail: the record, its contract, the registry, a
disk that refuses a file or a node that has stopped may be why. Whatever a stage does, it leaves the
record files as they are and no contract source behind (`Intact`), and the registry changes in one
stage only, whose work is undone if the last one fails. So of a record that could not be published
nothing is left but, maybe, a build and what its contract did to the world
(`failed_publish_leaves_nothing`).
-/

namespace ParticleChain.Publishing

open Artifact (Kind Record)

variable {u : Setup} {k : Kind} {name : String} {s s' s'' : Site}

/-! ## Stages -/

/-- The registry is the same, and the disk has kept what it must. -/
structure Intact (u : Setup) (s s' : Site) : Prop where
  registry : s'.registry = s.registry
  disk : Kept u s.disk s'.disk

theorem Intact.refl (u : Setup) (s : Site) : Intact u s s := ⟨rfl, .refl u s.disk⟩

theorem Intact.trans (h : Intact u s s') (h' : Intact u s' s'') : Intact u s s'' :=
  ⟨h'.registry.trans h.registry, h.disk.trans h'.disk⟩

theorem intact_withoutBuild (u : Setup) (k : Kind) (name : String) (s : Site) :
    Intact u s (withoutBuild u.config k name s) := ⟨rfl, kept_dropBuild u k name s.disk⟩

theorem SameStores.intact (h : SameStores s s') (u : Setup) : Intact u s s' :=
  ⟨h.registry, h.disk ▸ .refl u s.disk⟩

theorem BuildDropped.intact (h : BuildDropped u k name s s') : Intact u s s' :=
  ⟨h.registry, h.disk ▸ kept_dropBuild u k name s.disk⟩

section

variable {r : Record k} {owner contract : Address} {e : Error}

theorem intact_build (u : Setup) (r : Record k) (s : Site) : Intact u s (final (build u r s)) :=
  rel_build (.refl u) .trans (intact_withoutBuild u k r.name)
    (fun hw hc => ⟨rfl, kept_compile hw fun p hp => hc p (hp.on _)⟩) s

theorem intact_of_build (h : build u r s = .ok () s') : Intact u s s' := by
  have hfinal := intact_build u r s
  rwa [h] at hfinal

theorem intact_of_fund (h : fund owner s = .ok () s') : Intact u s s' := by
  rw [fund_ok h]
  exact (sameStores_funded owner s).intact u

theorem intact_of_create (h : create u r owner s = .ok contract s') : Intact u s s' := by
  obtain ⟨text, n, -, -, rfl⟩ := create_ok h
  exact ⟨rfl, .refl u s.disk⟩

theorem intact_of_verify (h : verify u r contract owner s = .ok () s') : Intact u s s' := by
  obtain ⟨output, -, -, rfl⟩ := verify_ok h
  exact ⟨rfl, .refl u s.disk⟩

/-- Up to a contract everything is as before. -/
theorem intact_of_contract {s₁ s₂ : Site} (hb : build u r s = .ok () s₁)
    (hf : fund owner s₁ = .ok () s₂) (hc : create u r owner s₂ = .ok contract s') :
    Intact u s s' :=
  ((intact_of_build hb).trans (intact_of_fund hf)).trans (intact_of_create hc)

theorem intact_create_error (h : create u r owner s = .error e s') : Intact u s s' := by
  obtain ⟨reason, -, -, h⟩ | ⟨-, h⟩ := create_error h
  · exact h.intact u
  · exact h.intact

end

/-! ## Publishing as a whole -/

/-- What a record that could not be published leaves: at most, it was added to the registry and
taken out again. -/
structure RolledBack (u : Setup) (r : Record k) (s s' : Site) : Prop where
  registry : s'.registry = s.registry ∨
    ∃ a t, s.registry.add a r = (.ok (), t) ∧ s'.registry = t.remove k r.name a
  disk : Kept u s.disk s'.disk

theorem Intact.rolledBack (h : Intact u s s') (r : Record k) : RolledBack u r s s' :=
  ⟨.inl h.registry, h.disk⟩

section

variable {r : Record k} {owner contract : Address} {e : Error} {l : List Registry.Op}

/-- What was indexed is undone if it cannot be saved. -/
theorem rolledBack_of_save {s₁ s₂ : Site} (h : Intact u s s₁)
    (hi : index u r contract s₁ = .ok () s₂) (he : save u r contract s₂ = .error e s') :
    RolledBack u r s s' := by
  obtain ⟨t, ht, rfl⟩ := index_ok hi
  obtain ⟨-, hdropped⟩ := save_error he
  rw [h.registry] at ht
  exact ⟨.inr ⟨contract, t, ht, hdropped.registry⟩, h.disk.trans hdropped.intact.disk⟩

theorem Fails.rolledBack (h : Fails u r owner s e s') : RolledBack u r s s' := by
  cases h with
  | build h =>
    have hfinal := intact_build u r s
    rw [h] at hfinal
    exact hfinal.rolledBack r
  | fund hb h =>
    obtain ⟨-, rfl, -⟩ := fund_error h
    exact (intact_of_build hb).rolledBack r
  | create hb hf h =>
    exact (((intact_of_build hb).trans (intact_of_fund hf)).trans
      (intact_create_error h)).rolledBack r
  | verify hb hf hc h =>
    have hcreated := intact_of_contract hb hf hc
    exact (hcreated.trans (verify_error h).2.intact).rolledBack r
  | index hb hf hc hv h =>
    have hverified := (intact_of_contract hb hf hc).trans (intact_of_verify hv)
    exact (hverified.trans (index_error h).2.intact).rolledBack r
  | save hb hf hc hv hi h =>
    exact rolledBack_of_save ((intact_of_contract hb hf hc).trans (intact_of_verify hv)) hi h

theorem rolledBack_of_publish (h : publish u r s = .error e s') : RolledBack u r s s' := by
  obtain ⟨-, rfl⟩ | ⟨owner, -, h⟩ := publish_error h
  · exact (Intact.refl u s').rolledBack r
  · exact h.rolledBack

/-- The log has no trace of what was rolled back. -/
theorem RolledBack.follows (h : RolledBack u r s s') (hs : s.registry.Follows l) :
    s'.registry.Follows l := by
  obtain he | ⟨a, t, ht, he⟩ := h.registry
  · rwa [he]
  · rw [he]
    exact hs.takenBack ht

/-- A record that could not be published, for whatever reason, is not there: the registry, whatever
it has been through, answers every question about versions as before, every record file has the
content it had, and no contract source is left that was not there; provided that the compiler
itself leaves these files alone. -/
theorem failed_publish_leaves_nothing (u : Setup) (r : Record k) (ops : List Registry.Op)
    (s s' : Site) (e : Error) (hs : s.registry = .run ops) (h : publish u r s = .error e s') :
    s.registry.SameAnswers s'.registry ∧
    (∀ l name, u.compiler.Leaves (recordFile u.config l name) → ∀ content,
      s'.disk.read (recordFile u.config l name) = .ok content ↔
        s.disk.read (recordFile u.config l name) = .ok content) ∧
    (∀ l name, u.compiler.Leaves (sourceFile u.config l name) →
      s'.disk.has (sourceFile u.config l name) = true →
        s.disk.has (sourceFile u.config l name) = true) := by
  have hback := rolledBack_of_publish h
  have hfollows : s.registry.Follows (Registry.log ops) := hs ▸ Registry.run_follows ops
  exact ⟨hfollows.sameAnswers (hback.follows hfollows),
    fun l name hc => (hback.disk.records l name hc).read, hback.disk.sources⟩

end

/-- A condition is published and its record is there, but must not be written any more. -/
def guarded : Site where
  disk := { workshop.disk.put Furnished.record (.file renewed.render.toUTF8) with
    policy := Furnished.sparing }
  node := workshop.node
  registry := .run [.add .condition ⟨1, 0, 0⟩ renewed]

theorem furnished_guarded : Furnished guarded.disk := (furnished_workshop.put_record _).withSparing

theorem guarded_place (name : String) : guarded.disk.entry? (Furnished.place name) = none :=
  (Furnished.entry?_put_record (by simp [Furnished.record, Furnished.place]) _ _).trans
    (workshop_place name)

theorem guarded_record :
    guarded.disk.entry? Furnished.record = some (.file renewed.render.toUTF8) :=
  Furnished.entry?_record workshop.disk _

/-- No contract of the trials is where the other version is. -/
theorem guarded_free {a : Address} (h : (⟨1, 0, 0⟩ : Address) ≠ a) :
    (guarded.registry.table .condition).get? "always" a = none := by
  obtain ⟨t, ht⟩ : ∃ t, Registry.empty.add ⟨1, 0, 0⟩ renewed = (.ok (), t) :=
    Registry.exists_add_iff.2 ⟨rfl, rfl, rfl, ⟨8, 0, 0⟩, by cbv⟩
  rw [show guarded.registry = t from congrArg Prod.snd ht]
  exact (Registry.get?_of_add_of_ne ht h).trans rfl

/-- Another version passes all stages but the last. -/
theorem publish_guarded : ∃ s', publish (writer ownedText (some 0)) Registry.always guarded =
    .error (.unsaved .condition "always" (.disk .denied)) s' := by
  obtain ⟨d, hbeside, hlook, hbuild⟩ := furnished_guarded.build_writing (r := Registry.always) rfl
    rfl rfl (guarded_place _) (guarded_place _) ownedText (some 0)
  have hstocked : Stocked d :=
    .of_build furnished_guarded hbeside hlook (by rw [guarded_record]; exact nofun)
  obtain ⟨a, b, c, x, y, z, htrial, -, -, hne, -⟩ := ownedTrials_pass
  obtain ⟨t, hadd⟩ : ∃ t, guarded.registry.add a Registry.always = (.ok (), t) :=
    Registry.exists_add_iff.2 ⟨rfl, guarded_free hne, rfl, ⟨7, 0, 0⟩, by cbv⟩
  exact hstocked.publish_sparing (s := { guarded with disk := d }) rfl (by cbv) hbuild htrial hadd
    hbeside.policy

theorem failed_publish_leaves_nothing_unsaved : ∃ s',
    publish (writer ownedText (some 0)) Registry.always guarded =
      .error (.unsaved .condition "always" (.disk .denied)) s' ∧
    s'.registry.newest? .condition "always" = some renewed.definition ∧
    s'.disk.read (recordFile bench .condition "always") = .ok renewed.render.toUTF8 ∧
    s'.disk.has (sourceFile bench .condition "always") = false := by
  obtain ⟨s', hpublish⟩ := publish_guarded
  obtain ⟨hanswers, hrecords, hsources⟩ := failed_publish_leaves_nothing
    (writer ownedText (some 0)) Registry.always [.add .condition ⟨1, 0, 0⟩ renewed] guarded s' _ rfl
    hpublish
  refine ⟨s', hpublish, ?newest, ?record, Bool.eq_false_iff.2 fun hhas => ?source⟩
  case newest =>
    rw [hanswers.newest?, show guarded.registry = .run [.add .condition ⟨1, 0, 0⟩ renewed] from rfl]
    cbv
  case record =>
    refine (hrecords .condition "always" (writer_leaves _ _ _ _) _).2 (Disk.read_eq_ok.2 ?_)
    exact ⟨_, Disk.look_eq_ok.2 ⟨_, furnished_guarded.find_record, guarded_record⟩, .inl rfl⟩
  case source =>
    have hapart := apart_build_source bench .condition "always" ".bin" rfl (by decide) .condition
      "always"
    have hbefore := hsources .condition "always" (Compiler.writing_leaves hapart _ _) hhas
    rw [show (writer ownedText (some 0)).config = bench from rfl, sourceFile_eq,
      furnished_guarded.not_has (by simp [Furnished.names]) (guarded_place _)] at hbefore
    cases hbefore

end ParticleChain.Publishing
