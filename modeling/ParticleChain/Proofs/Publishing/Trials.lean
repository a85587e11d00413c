import ParticleChain.Proofs.Evm.Creations
import ParticleChain.Proofs.Evm.Evaluation
import ParticleChain.Proofs.Publishing.Builds

/-!
# Trials

A contract that does not run on can be tried out: it is created and asked for its owner in a bounded
number of turns (`trial?`). A record whose contract passes, and that the registry takes, comes as
far as to be saved (`publish_of_trial?`): whether it is published is then up to the disk.
-/

namespace ParticleChain.Publishing

open Artifact (Kind Record)

variable {u : Setup} {k : Kind} {r : Record k} {owner a : Address} {n : Nat} {x y : Node}
  {text : String} {code : Option Nat} {s s₀ s₁ : Site} {d d' : Disk}

/-- Creates a contract for an owner and asks it who that is, each in at most `n` turns; the address
of the contract, and the node after it. -/
def trial? (n : Nat) (text : String) (owner : Address) (x : Node) : Option (Address × Node) := do
  let x := withAccount owner x
  let code ← (Node.parseBytecode text).toOption
  let created ← Evm.transact? n x.block x.world
    (.salted owner (code ++ Abi.encodeArgs [.address x.registry]) Node.salt x.gasLimit
      (Node.amount 0))
  let a ← created.outcome.created
  let y := toppedUp { x with world := created.world }
  let answer ← Evm.transact? n y.block y.world
    (.plainCall x.registry a (Abi.encodeCall "getOwner()" []) ownerGas (Node.amount 0))
  if x.isRunning ∧ y.isRunning ∧ created.outcome.status.isSuccess ∧ a.isZero = false ∧
    answer.outcome.status.isSuccess ∧ Abi.readAddress answer.outcome.output 0 = .ok owner
  then some (a, { y with world := answer.world }) else none

/-- What a trial says is so. -/
theorem answers_of_trial? (h : trial? n text owner x = some (a, y)) : ∃ created output,
    (withAccount owner x).deploy text (Abi.encodeArgs [.address (withAccount owner x).registry])
      owner (withAccount owner x).gasLimit 0 = (.ok a, created) ∧
    (∀ s : Site, s.node = created → askOwner a s = (.ok output, y)) ∧
    Abi.readAddress output 0 = .ok owner := by
  unfold trial? at h
  simp only [Option.bind_eq_bind, Option.bind_eq_some_iff] at h
  obtain ⟨code, hcode, created, htransact, a', hcreated, answer, hcall, h⟩ := h
  split at h
  · rename_i hpassed
    cases h
    obtain ⟨hx, hy, hsuccess, ha, hanswered, hread⟩ := hpassed
    refine ⟨{ withAccount owner x with world := created.world }, _, ?_, fun s hs => ?_, hread⟩
    · have hparsed : Node.parseBytecode text = .ok code := by
        revert hcode
        cases Node.parseBytecode text <;> simp [Except.toOption]
      unfold Node.deploy
      rw [hx, hparsed]
      exact Node.create_of_success (Evm.transact_of_transact? htransact) hsuccess hcreated
    · rw [askOwner, hs]
      exact Node.call_of_success (Evm.transact_of_transact? hcall) hy hanswered ha
  · cases h

/-- Nothing is tried out without a node. -/
theorem running_of_trial? (h : trial? n text owner x = some (a, y)) :
    x.isRunning = true ∧ y.isRunning = true := by
  unfold trial? at h
  simp only [Option.bind_eq_bind, Option.bind_eq_some_iff] at h
  obtain ⟨code, -, created, -, a', -, answer, -, h⟩ := h
  split at h
  · rename_i hpassed
    cases h
    obtain ⟨w, hw⟩ := withAccount_eq owner x
    obtain ⟨hx, hy, -⟩ := hpassed
    rw [hw] at hx
    exact ⟨hx, hy⟩
  · cases h

/-- A record whose contract passes its trial, and that the registry takes, gets as far as to be
saved. -/
theorem publish_of_trial? {t : Registry} (ho : approve r = .ok owner)
    (hb : build u r s = .ok () s₁)
    (ht : s₁.disk.readText (binaryFile u.config k r.name) = .ok text)
    (h : trial? n text owner s₁.node = some (a, y)) (hadd : s₁.registry.add a r = (.ok (), t)) :
    publish u r s = match saveRecord u.config r s₁.disk with
      | .ok d => .ok a ⟨d, y, t⟩
      | .error e => .error (.unsaved k r.name e)
          (withoutBuild u.config k r.name ⟨s₁.disk, y, t.remove k r.name a⟩) := by
  obtain ⟨created, output, hdeploy, hask, hread⟩ := answers_of_trial? h
  have hfund := fund_of_running owner (running_of_trial? h).1
  have hcreate : create u r owner (funded owner s₁) = .ok a { s₁ with node := created } :=
    create_of_deploy (s := funded owner s₁) ht hdeploy
  have hverify : verify u r a owner { s₁ with node := created } = .ok () { s₁ with node := y } := by
    have hanswer := hask { s₁ with node := created } rfl
    rw [verify_of_answer (congrArg Prod.fst hanswer) hread, hanswer]
  have hindex : index u r a { s₁ with node := y } = .ok () ⟨s₁.disk, y, t⟩ := index_of_add hadd
  unfold publish
  rw [ho]
  dsimp only
  unfold pipeline
  rw [bind_of_ok hb, bind_of_ok hfund, bind_of_ok hcreate, bind_of_ok hverify, bind_of_ok hindex]
  cases hd : saveRecord u.config r s₁.disk with
  | ok d =>
    have hsave : save u r a ⟨s₁.disk, y, t⟩ = .ok () ⟨d, y, t⟩ := save_of_saveRecord hd
    rw [bind_of_ok hsave]
    rfl
  | error e =>
    have hsave : save u r a ⟨s₁.disk, y, t⟩ = .error (.unsaved k r.name e)
        (withoutBuild u.config k r.name ⟨s₁.disk, y, t.remove k r.name a⟩) := by rw [save, hd]
    rw [bind_of_error hsave]

/-! ## A contract for whoever creates it -/

/-- Init code, as text, of a contract that says that it belongs to whoever has created it. -/
def ownedText : String := "335f55675f545f5260205ff35f5260086018f3"

def ownedCode : ByteArray := Bytes.ofList
  [0x33, 0x5f, 0x55, 0x67, 0x5f, 0x54, 0x5f, 0x52, 0x60, 0x20, 0x5f, 0xf3, 0x5f, 0x52, 0x60, 0x08,
    0x60, 0x18, 0xf3]

theorem parseBytecode_ownedText : Node.parseBytecode ownedText = .ok ownedCode := by decide +kernel

/-- Three owners try it out, one after another. -/
def ownedTrials : Option (List Address) := do
  let (a, x) ← trial? 16 ownedText ⟨7, 0, 0⟩ workshop.node
  let (b, y) ← trial? 16 ownedText ⟨8, 0, 0⟩ x
  let (c, _) ← trial? 16 ownedText ⟨9, 0, 0⟩ y
  return [⟨1, 0, 0⟩, a, b, c]

theorem ownedTrials_differ : ownedTrials.any (·.Nodup) = true := by decide +kernel

/-- Each owner gets a contract of its own. -/
theorem ownedTrials_pass : ∃ a b c x y z,
    trial? 16 ownedText ⟨7, 0, 0⟩ workshop.node = some (a, x) ∧
    trial? 16 ownedText ⟨8, 0, 0⟩ x = some (b, y) ∧
    trial? 16 ownedText ⟨9, 0, 0⟩ y = some (c, z) ∧
    ⟨1, 0, 0⟩ ≠ a ∧ a ≠ b ∧ a ≠ c ∧ b ≠ c := by
  obtain ⟨l, htrials, hdiffer⟩ := (Option.any_eq_true _ _).1 ownedTrials_differ
  unfold ownedTrials at htrials
  simp only [Option.bind_eq_bind, Option.bind_eq_some_iff] at htrials
  obtain ⟨⟨a, x⟩, hx, ⟨b, y⟩, hy, ⟨c, z⟩, hz, h⟩ := htrials
  cases h
  have hnodup : [⟨1, 0, 0⟩, a, b, c].Nodup := of_decide_eq_true hdiffer
  simp only [List.nodup_cons, List.mem_cons, List.not_mem_nil, or_false, not_or] at hnodup
  obtain ⟨⟨ha, -, -⟩, ⟨hab, hac⟩, hbc, -⟩ := hnodup
  exact ⟨a, b, c, x, y, z, hx, hy, hz, ha, hab, hac, hbc⟩

/-! ## Conditions of one name -/

/-- The condition with another text and another owner. -/
def renewed : Record .condition :=
  ⟨⟨"always", "return 1 == 1;"⟩, "0000000000000000000000000000000000000008"⟩

def disputed : Record .condition :=
  ⟨⟨"always", "return !false;"⟩, "0000000000000000000000000000000000000009"⟩

namespace Furnished

/-- The place of a record with this name. -/
def record : Disk.Place := ["st", "conditions", "always" ++ ".json"]

theorem entry?_record (d : Disk) (e : Disk.Entry) : Disk.entry? (d.put record e) record = some e :=
  (Disk.entry?_put (List.cons_ne_nil _ _) e _).trans (if_pos rfl)

theorem entry?_put_record {q : Disk.Place} (h : record ≠ q) (d : Disk) (e : Disk.Entry) :
    Disk.entry? (d.put record e) q = d.entry? q :=
  (Disk.entry?_put (List.cons_ne_nil _ _) e _).trans (if_neg h)

theorem put_record (h : Furnished d) (e : Disk.Entry) : Furnished (d.put record e) := by
  have hput (q : Disk.Place) (hq : record ≠ q) := entry?_put_record hq d e
  exact ⟨(hput _ (by simp [record])).trans h.storage, (hput _ (by simp [record])).trans h.records,
    (hput _ (by simp [record])).trans h.builds, (hput _ (by simp [record])).trans h.compiler,
    h.writable⟩

/-- A record is saved if its file may be written. -/
theorem saveRecord_eq {r : Record .condition} (h : Furnished d) (hr : r.name = "always")
    (hd : d.entry? record ≠ some .directory) :
    saveRecord bench r d = (d.offer record (.file r.render.toUTF8)).mapError .disk := by
  have hdirectory : d.has (recordsDirectory bench .condition) = true :=
    Disk.has_iff.2 ⟨_, Disk.look_eq_ok.2 ⟨_, h.find_records, h.records⟩⟩
  unfold saveRecord Disk.writeText
  dsimp only
  rw [if_pos hdirectory, hr, Disk.write_of_find h.find_record hd]
  rfl

theorem saveRecord_open {r : Record .condition} (h : Furnished d) (hr : r.name = "always")
    (hd : d.entry? record ≠ some .directory) (hp : d.policy = .open) :
    saveRecord bench r d = .ok (d.put record (.file r.render.toUTF8)) := by
  have hopen : d.policy d.entries record (.file r.render.toUTF8) = none := by
    rw [hp]
    rfl
  rw [h.saveRecord_eq hr hd, Disk.offer_eq_ok.2 ⟨hopen, rfl⟩]
  rfl

/-- All may be written but the record. -/
def sparing : Disk.Policy := fun _ x _ => if x = record then some .denied else none

theorem withSparing (h : Furnished d) : Furnished { d with policy := sparing } :=
  ⟨h.storage, h.records, h.builds, h.compiler, fun _ name _ => by simp [sparing, record]⟩

theorem saveRecord_sparing {r : Record .condition} (h : Furnished d) (hr : r.name = "always")
    (hd : d.entry? record ≠ some .directory) (hp : d.policy = sparing) :
    saveRecord bench r d = .error (.disk .denied) := by
  have hdenied : d.policy d.entries record (.file r.render.toUTF8) = some .denied := by
    rw [hp]
    exact if_pos rfl
  rw [h.saveRecord_eq hr hd, Disk.offer_of_refused hdenied]
  rfl

end Furnished

theorem workshop_record : workshop.disk.entry? Furnished.record = none := by
  simp only [workshop, Furnished.record, Disk.entry?_put (List.cons_ne_nil _ _)]
  simp [Disk.entry?, Disk.empty]

/-- The directories for conditions are there, and a binary of a contract for whoever creates it. -/
structure Stocked (d : Disk) : Prop extends Furnished d where
  binary : d.look (binaryFile bench .condition "always") = .ok (.file ownedText.toUTF8)
  record : d.entry? Furnished.record ≠ some .directory

namespace Stocked

theorem of_build (h : Furnished d) (hd : Furnished.Beside d d')
    (hb : d'.look (binaryFile bench .condition "always") = .ok (.file ownedText.toUTF8))
    (hr : d.entry? Furnished.record ≠ some .directory) : Stocked d' where
  toFurnished := h.beside hd
  binary := hb
  record := by rwa [hd.entry _ (by simp [Furnished.record, Furnished.place])]

theorem withSparing (h : Stocked d) : Stocked { d with policy := Furnished.sparing } where
  toFurnished := h.toFurnished.withSparing
  binary := (Disk.agree_withPolicy _ d _ _).2 h.binary
  record := h.record

theorem build_eq {r : Record .condition} (h : Stocked s.disk) (hr : r.name = "always") :
    build (writer text code) r s = .ok () s := by
  unfold build
  rw [hr]
  exact if_pos (Disk.has_iff.2 ⟨_, h.binary⟩)

section

variable {r : Record .condition} {t : Registry} (h : Stocked s.disk) (hr : r.name = "always")
  (ho : approve r = .ok owner) (hb : build (writer text code) r s₀ = .ok () s)
  (hx : trial? n ownedText owner s.node = some (a, y))
  (ht : s.registry.add a r = (.ok (), t))

include h hr ho hb hx ht

theorem publish_open (hp : s.disk.policy = .open) : ∃ d, Stocked d ∧ d.policy = .open ∧
    d.look (recordFile bench .condition "always") = .ok (.file r.render.toUTF8) ∧
    publish (writer text code) r s₀ = .ok a ⟨d, y, t⟩ := by
  have hsave := h.saveRecord_open hr h.record hp
  have hname := isName_append "always" ".bin" (by decide)
  have hapart := apart_build_record bench .condition hname .condition r.name
  refine ⟨_, ⟨h.put_record _, (agree_saveRecord hsave hapart.symm _).2 h.binary, ?_⟩, hp,
    hr ▸ look_saveRecord hsave, ?_⟩
  · rw [Furnished.entry?_record]
    exact nofun
  · rw [publish_of_trial? ho hb (hr ▸ Disk.readText_of_look h.binary) hx ht,
      show (writer text code).config = bench from rfl, hsave]

theorem publish_sparing (hp : s.disk.policy = Furnished.sparing) : ∃ s',
    publish (writer text code) r s₀ = .error (.unsaved .condition "always" (.disk .denied)) s' := by
  have hsave := h.saveRecord_sparing hr h.record hp
  rw [publish_of_trial? ho hb (hr ▸ Disk.readText_of_look h.binary) hx ht,
    show (writer text code).config = bench from rfl, hsave, hr]
  exact ⟨_, rfl⟩

end

end Stocked

end ParticleChain.Publishing
