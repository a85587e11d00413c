import Mathlib
import ParticleChain.Proofs.Publishing.Published
import ParticleChain.Proofs.Registry.References

/-!
# Record files and registry

Whatever is published, and however it ends, the record files are those of the newest records
(`Agreement`). One record that is published or not keeps it so (`Agreement.publish`), hence any
number of them one after another (`files_agree_with_registry`).
-/

namespace ParticleChain.Publishing

open Artifact (Kind Record)
open Disk (Agree Apart)

variable {c : Config} {u : Setup} {k l : Kind} {r : Record k} {name : String} {s s' : Site}

/-! ## One record -/

/-- There is a file for each name that has a record, and it is that of the newest one. -/
structure Agreement (c : Config) (s : Site) : Prop where
  /-- The registry has been through some operations. -/
  logged : ∃ ops, s.registry.Follows ops
  look (k : Kind) (name : String) (e : Disk.Entry) : s.disk.look (recordFile c k name) = .ok e ↔
    ∃ r, (s.registry.table k).newest? name = some r ∧ e = .file r.render.toUTF8

/-- At the beginning there is nothing on either side. -/
theorem agreement_empty (hr : s.registry = .empty)
    (hd : ∀ k name, s.disk.has (recordFile c k name) = false) : Agreement c s where
  logged := ⟨[], hr ▸ Registry.follows_empty⟩
  look k name e := by
    have hnewest : (s.registry.table k).newest? name = none := by
      rw [hr, (Registry.follows_empty.lists k name).newest?]
      rfl
    rw [hnewest]
    refine ⟨fun hl => absurd (Disk.has_iff.2 ⟨e, hl⟩) (Bool.eq_false_iff.1 (hd k name)), ?_⟩
    rintro ⟨r, hr, -⟩
    cases hr

/-- Records of different names or kinds are in different files. -/
theorem apart_records (c : Config) {m n : String} (h : k = l → m ≠ n) :
    Apart (recordFile c k m) (recordFile c l n) := by
  refine (descends_recordFile c k m).apart (descends_recordFile c l n) rfl fun he => ?_
  have hnames := congrArg Path.names he
  rw [names_recordFile, names_recordFile] at hnames
  obtain ⟨hplural, hrest⟩ := List.cons.inj hnames
  have hk : k = l := by
    revert hplural
    cases k <;> cases l <;> decide
  exact h hk ((String.append_left_inj _).1 (List.cons.inj hrest).1)

theorem newest?_add {x t : Registry} {a : Address} (h : x.add a r = (.ok (), t)) :
    (t.table k).newest? r.name = some r ∧ ∀ l name, (k = l → r.name ≠ name) →
      (t.table l).newest? name = (x.table l).newest? name := by
  cases Registry.takes_of_add h with
  | add hn hf hc ho =>
    refine ⟨?_, fun l name hne => ?_⟩
    · rw [Registry.table_setTable, Registry.Table.newest?_insert, if_pos rfl]
    · by_cases hk : k = l
      · subst hk
        rw [Registry.table_setTable, Registry.Table.newest?_insert, if_neg (hne rfl)]
      · rw [Registry.table_setTable_of_ne _ _ (Ne.symm hk)]

section

variable (h : Agreement u.config s)
  (hc : ∀ k name, u.compiler.Leaves (recordFile u.config k name))

include h hc

/-- The file of a published record is that of the newest one. -/
theorem Agreement.passes {owner a : Address} (hp : Passes u r owner s a s') :
    Agreement u.config s' := by
  obtain ⟨d, hkept, hadd, hsave⟩ := hp.stored
  obtain ⟨hnewest, hothers⟩ := newest?_add hadd
  obtain ⟨ops, hfollows⟩ := h.logged
  refine ⟨⟨_, hfollows.takes (Registry.takes_of_add hadd)⟩, fun l name e => ?_⟩
  by_cases hsame : k = l ∧ r.name = name
  · obtain ⟨rfl, rfl⟩ := hsame
    rw [look_saveRecord hsave, hnewest]
    constructor
    · intro he
      cases he
      exact ⟨r, rfl, rfl⟩
    · rintro ⟨r', hr', rfl⟩
      cases hr'
      rfl
  · have hne : k = l → r.name ≠ name := fun hk hn => hsame ⟨hk, hn⟩
    have hagree := (hkept.records l name (hc l name)).trans
      (agree_saveRecord hsave (apart_records u.config hne))
    rw [hagree e, hothers l name hne]
    exact h.look l name e

/-- A record that is not published changes no file, and leaves the newest records what they are. -/
theorem Agreement.rolledBack (hb : RolledBack u r s s') : Agreement u.config s' := by
  obtain ⟨ops, hfollows⟩ := h.logged
  have hback := hb.follows hfollows
  refine ⟨⟨ops, hback⟩, fun l name e => ?_⟩
  rw [hb.disk.records l name (hc l name) e, (hback.lists l name).newest?,
    ← (hfollows.lists l name).newest?]
  exact h.look l name e

theorem Agreement.publish (r : Record k) : Agreement u.config (final (publish u r s)) := by
  cases hp : Publishing.publish u r s with
  | ok a s' =>
    obtain ⟨owner, -, hpasses⟩ := publish_ok hp
    exact h.passes hc hpasses
  | error e s' => exact h.rolledBack hc (rolledBack_of_publish hp)

end

/-! ## Any number of records -/

/-- A record to be published, and what there is to do it with. -/
structure Call where
  setup : Setup
  kind : Kind
  record : Record kind
  /-- What happens at the site before it is published. -/
  before : Site → Site

/-- The site after one record has been published, or has not. -/
def Call.result (s : Site) (x : Call) : Site := final (publish x.setup x.record (x.before s))

/-- The site after all records, one after another. -/
def runAll (calls : List Call) (s : Site) : Site := calls.foldl Call.result s

/-- A call at a storage where nothing but the calls themselves changes registry or record files. -/
structure Call.Orderly (c : Config) (x : Call) : Prop where
  config : x.setup.config = c
  compiler (k : Kind) (name : String) : x.setup.compiler.Leaves (recordFile c k name)
  registry (s : Site) : (x.before s).registry = s.registry
  records (s : Site) (k : Kind) (name : String) :
    Agree (recordFile c k name) s.disk (x.before s).disk

theorem Agreement.before {x : Call} (h : Agreement c s) (hx : x.Orderly c) :
    Agreement c (x.before s) where
  logged := by
    rw [hx.registry s]
    exact h.logged
  look k name e := by
    rw [hx.records s k name e, hx.registry s]
    exact h.look k name e

theorem Agreement.runAll {calls : List Call} (h : Agreement c s)
    (hc : ∀ x ∈ calls, x.Orderly c) : Agreement c (runAll calls s) := by
  induction calls generalizing s with
  | nil => exact h
  | cons x calls ih =>
    obtain ⟨hx, hcalls⟩ := List.forall_mem_cons.1 hc
    have hbefore := h.before hx
    obtain ⟨rfl, hcompiler, -, -⟩ := hx
    exact ih (hbefore.publish hcompiler x.record) hcalls

/-- After any number of calls that publish records of any kinds, one after another, of which some
may succeed and others fail, whatever the disk lets be written and whatever the node does, and which
start with an empty registry and without any record file, a name is registered if and only if it has
a record file. What is read from that file is the newest record of the name. -/
theorem files_agree_with_registry (c : Config) (calls : List Call) (s : Site)
    (hc : ∀ x ∈ calls, x.Orderly c) (hr : s.registry = .empty)
    (hd : ∀ k name, s.disk.has (recordFile c k name) = false) (k : Kind) (name : String) :
    let s' := runAll calls s
    (s'.registry.has k name = true ↔ s'.disk.has (recordFile c k name) = true) ∧
    (s'.disk.has (recordFile c k name) = true → ∃ r text,
      (s'.registry.table k).newest? name = some r ∧
      s'.disk.readText (recordFile c k name) = .ok text ∧ Record.parse? text = some r) := by
  intro s'
  have hagree : Agreement c s' := (agreement_empty hr hd).runAll hc
  obtain ⟨ops, hfollows⟩ := hagree.logged
  constructor
  · rw [hfollows.has_eq, Option.isSome_iff_exists, Disk.has_iff]
    constructor
    · rintro ⟨r, hnewest⟩
      exact ⟨_, (hagree.look k name _).2 ⟨r, hnewest, rfl⟩⟩
    · rintro ⟨e, hl⟩
      obtain ⟨r, hnewest, -⟩ := (hagree.look k name e).1 hl
      exact ⟨r, hnewest⟩
  · intro hhas
    obtain ⟨e, hl⟩ := Disk.has_iff.1 hhas
    obtain ⟨r, hnewest, rfl⟩ := (hagree.look k name e).1 hl
    exact ⟨r, r.render, hnewest, Disk.readText_of_look hl, r.parse?_render⟩

theorem workshop_has_no_records (k : Kind) (name : String) :
    workshop.disk.has (recordFile bench k name) = false := by
  refine Bool.eq_false_iff.2 fun hhas => ?_
  obtain ⟨e, hl⟩ := Disk.has_iff.1 hhas
  obtain ⟨x, hx, hentry⟩ := Disk.look_eq_ok.1 hl
  have hd := descends_recordFile bench k name
  obtain ⟨q, rfl, -⟩ := Disk.find_names hd.ne_nil hd.names hx
  have hlast : (q ++ [k.plural, name ++ ".json"]).getLast? = some (name ++ ".json") := by simp
  have hending : ∀ n ∈ ["cc", "build", "conditions", "st"], n ≠ name ++ ".json" := by
    intro n hmem he
    have hend := congrArg (·.toList.getLast?) he
    fin_cases hmem <;> simp at hend
  rw [names_recordFile] at hentry
  generalize q ++ [k.plural, name ++ ".json"] = place at hlast hentry
  -- No directory on the disk has the name of a record file, nor has the compiler.
  simp only [workshop, Disk.entry?_put (List.cons_ne_nil _ _)] at hentry
  split_ifs at hentry with h h h h <;> try subst h
  · exact hending "cc" (by simp) (Option.some.inj hlast)
  · exact hending "build" (by simp) (Option.some.inj hlast)
  · exact hending "conditions" (by simp) (Option.some.inj hlast)
  · exact hending "st" (by simp) (Option.some.inj hlast)
  · cases place with
    | nil => cases hlast
    | cons step rest => simp [Disk.entry?, Disk.empty] at hentry

/-- From now on, the record must not be written. -/
def spare (s : Site) : Site := { s with disk := { s.disk with policy := Furnished.sparing } }

/-- A condition is published, then with another text and owner, then with a third one, which cannot
be saved. -/
def threeCalls : List Call :=
  [⟨writer ownedText (some 0), .condition, Registry.always, id⟩,
    ⟨writer ownedText (some 0), .condition, renewed, id⟩,
    ⟨writer ownedText (some 0), .condition, disputed, spare⟩]

theorem orderly_threeCalls : ∀ x ∈ threeCalls, x.Orderly bench := by
  refine List.forall_mem_cons.2 ⟨⟨rfl, writer_leaves _ _, fun _ => rfl, fun s _ _ => .refl _ _⟩,
    List.forall_mem_cons.2 ⟨⟨rfl, writer_leaves _ _, fun _ => rfl, fun s _ _ => .refl _ _⟩,
      List.forall_mem_singleton.2 ⟨rfl, writer_leaves _ _, fun _ => rfl, fun s _ _ => ?_⟩⟩⟩
  exact Disk.agree_withPolicy _ s.disk _

/-- The first two conditions are published, each at an address of its own; the third is not. -/
theorem publish_threeCalls : ∃ s₂ s₃, runAll (threeCalls.take 2) workshop = s₂ ∧
    s₂.disk.look (recordFile bench .condition "always") = .ok (.file renewed.render.toUTF8) ∧
    publish (writer ownedText (some 0)) disputed (spare s₂) =
      .error (.unsaved .condition "always" (.disk .denied)) s₃ := by
  obtain ⟨a, b, c, x, y, z, hx, hy, hz, -, hab, hac, hbc⟩ := ownedTrials_pass
  obtain ⟨d₁, t₁, hd₁, hopen₁, hadd₁, hfirst⟩ := publish_workshop hx
  have hrenewed : approve renewed = .ok ⟨8, 0, 0⟩ := by cbv
  have hdisputed : approve disputed = .ok ⟨9, 0, 0⟩ := by cbv
  have hfree₁ {e : Address} (he : a ≠ e) : (t₁.table .condition).get? "always" e = none :=
    (Registry.get?_of_add_of_ne hadd₁ he).trans rfl
  obtain ⟨t₂, hadd₂⟩ : ∃ t, t₁.add b renewed = (.ok (), t) :=
    Registry.exists_add_iff.2 ⟨rfl, hfree₁ hab, rfl, ⟨8, 0, 0⟩, by cbv⟩
  obtain ⟨d₂, hd₂, hopen₂, hlook, hsecond⟩ := hd₁.publish_open (s := ⟨d₁, x, t₁⟩) rfl hrenewed
    (hd₁.build_eq (r := renewed) rfl) hy hadd₂ hopen₁
  obtain ⟨t₃, hadd₃⟩ : ∃ t, t₂.add c disputed = (.ok (), t) :=
    Registry.exists_add_iff.2 ⟨rfl, (Registry.get?_of_add_of_ne hadd₂ hbc).trans
      (hfree₁ hac), rfl, ⟨9, 0, 0⟩, by cbv⟩
  have hd₃ := hd₂.withSparing
  obtain ⟨s₃, hthird⟩ := hd₃.publish_sparing (s := spare ⟨d₂, y, t₂⟩) rfl hdisputed
    (hd₃.build_eq (r := disputed) rfl) hz hadd₃ rfl
  refine ⟨⟨d₂, y, t₂⟩, s₃, ?_, hlook, hthird⟩
  have hfinal : final (publish (writer ownedText (some 0)) Registry.always workshop) =
      ⟨d₁, x, t₁⟩ := congrArg final hfirst
  exact (congrArg (fun s => final (publish (writer ownedText (some 0)) renewed s)) hfinal).trans
    (congrArg final hsecond)

theorem files_agree_with_registry_threeCalls :
    (∀ x ∈ threeCalls, x.Orderly bench) ∧ workshop.registry = .empty ∧
    (∀ k name, workshop.disk.has (recordFile bench k name) = false) ∧
    (∃ s, publish (writer ownedText (some 0)) disputed
        (spare (runAll (threeCalls.take 2) workshop)) =
      .error (.unsaved .condition "always" (.disk .denied)) s) ∧
    let s' := runAll threeCalls workshop
    s'.registry.has .condition "always" = true ∧
    s'.disk.readText (recordFile bench .condition "always") = .ok renewed.render ∧
    (s'.registry.table .condition).newest? "always" = some renewed := by
  obtain ⟨s₂, s₃, rfl, hlook, hthird⟩ := publish_threeCalls
  have hall : runAll threeCalls workshop = s₃ := congrArg final hthird
  have hkept := (rolledBack_of_publish hthird).disk.records .condition "always"
    (writer_leaves _ _ _ _)
  have hfile : (runAll threeCalls workshop).disk.look (recordFile bench .condition "always") =
      .ok (.file renewed.render.toUTF8) := by
    rw [hall]
    exact (hkept _).2 ((Disk.agree_withPolicy _ _ _ _).2 hlook)
  obtain ⟨hiff, hread⟩ := files_agree_with_registry bench threeCalls workshop orderly_threeCalls rfl
    workshop_has_no_records .condition "always"
  have hhas := Disk.has_iff.2 ⟨_, hfile⟩
  obtain ⟨r, text, hnewest, htext, hparse⟩ := hread hhas
  have hrenewed := Disk.readText_of_look hfile
  rw [Except.ok.inj (htext.symm.trans hrenewed), renewed.parse?_render] at hparse
  rw [← Option.some.inj hparse] at hnewest
  exact ⟨orderly_threeCalls, rfl, workshop_has_no_records, ⟨s₃, hthird⟩, hiff.2 hhas, hrenewed,
    hnewest⟩

end ParticleChain.Publishing
