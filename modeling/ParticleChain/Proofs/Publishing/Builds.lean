import Mathlib
import ParticleChain.Proofs.Publishing.Files
import ParticleChain.Proofs.Publishing.Stages
import ParticleChain.Proofs.Registry.Versions

/-!
# Builds that a failure leaves behind

What the compiler has made of a contract is taken for good as long as it is there, so publishing
that fails takes it away again. As long as there is a node there are two exceptions: a name that is
taken on the chain, where the build stays for another time, and a compiler that fails after it has
written something, which stays as well (`failed_publish_clears_build`). Without a node a build that
is there stays (`publish_of_stopped`).
-/

namespace ParticleChain

open Disk (Agree Apart)

/-- The compiler puts no directory where there was none. -/
def Compiler.MakesNoDirectory (c : Compiler) (p : Path) : Prop :=
  ∀ args d, d.Removable p → (c args d).2.Removable p

theorem Compiler.removable_run {c : Compiler} {p : Path} {d : Disk} (h : c.MakesNoDirectory p)
    (searchPath : List String) (program : String) (j : Job) (hd : d.Removable p) :
    (run c searchPath program j d).2.Removable p := by
  unfold run
  split
  · exact hd
  · split
    · exact hd
    · split
      · exact hd
      · exact h _ d hd

/-- Only a compiler that was started, and failed, may have changed the disk. -/
theorem Compiler.run_error {c : Compiler} {searchPath : List String} {program : String} {j : Job}
    {d : Disk} {reason : Error} (h : (run c searchPath program j d).1 = .error reason) :
    (∃ code, reason = .failed code) ∨
      (∀ code, reason ≠ .failed code) ∧ (run c searchPath program j d).2 = d := by
  unfold run at h ⊢
  split
  · rename_i e he
    rw [he] at h
    cases h
    refine .inr ⟨fun code => ?_, rfl⟩
    rintro rfl
    unfold arguments at he
    split at he <;> cases he
  · rename_i args ha
    simp only [ha] at h
    split
    · rw [if_pos ‹_›] at h
      cases h
      exact .inr ⟨nofun, rfl⟩
    · rw [if_neg ‹_›] at h
      split
      · rename_i hs
        rw [hs] at h
        cases h
        exact .inr ⟨nofun, rfl⟩
      · rename_i hs
        rw [hs] at h
        dsimp only at h
        split at h <;> cases h
        exact .inl ⟨_, rfl⟩

/-- A compiler that writes one file, if it can, and ends with an exit code. -/
def Compiler.writing (p : Path) (text : String) (code : Option Nat) : Compiler := fun _ d =>
  match d.writeText p text with
  | .ok d' => (code, d')
  | .error _ => (code, d)

theorem Compiler.writing_makesNoDirectory (p : Path) (text : String) (code : Option Nat)
    (q : Path) : (Compiler.writing p text code).MakesNoDirectory q := by
  intro args d hd
  unfold writing
  split
  · obtain ⟨x, -, hsame, -⟩ := Disk.write_eq_ok ‹_›
    exact hsame.removable hd
  · exact hd

theorem Compiler.writing_leaves {p q : Path} (h : Apart p q) (text : String) (code : Option Nat) :
    (Compiler.writing p text code).Leaves q := by
  intro args d
  unfold writing
  split
  · exact Disk.agree_write ‹_› h
  · exact .refl q d

namespace Publishing

open Artifact (Kind Record)

variable {u : Setup} {c : Config} {k : Kind} {r : Record k} {name : String} {d d' : Disk} {p : Path}
  {owner a : Address} {e : Error} {s s' : Site}

/-! ## The files of a build -/

/-- What the compiler makes of a contract. -/
def buildFiles (c : Config) (k : Kind) (name : String) : List Path :=
  [binaryFile c k name, interfaceFile c k name]

theorem mem_buildFiles :
    p ∈ buildFiles c k name ↔ p = binaryFile c k name ∨ p = interfaceFile c k name := by
  simp [buildFiles]

theorem apart_binary_interface (c : Config) (k : Kind) (name : String) :
    Apart (binaryFile c k name) (interfaceFile c k name) :=
  apart_builds c k k (isName_append name ".bin" (by decide)) (isName_append name ".abi" (by decide))
    (append_ne (by decide) (by decide))

theorem apart_interface_binary (c : Config) (k : Kind) (name : String) :
    Apart (interfaceFile c k name) (binaryFile c k name) :=
  apart_builds c k k (isName_append name ".abi" (by decide)) (isName_append name ".bin" (by decide))
    (append_ne (by decide) (by decide))

theorem apart_source_build (hp : p ∈ buildFiles c k name) : Apart (sourceFile c k name) p := by
  have hsource := isName_append name ".sol" (by decide)
  obtain rfl | rfl := mem_buildFiles.1 hp
  · exact apart_builds c k k hsource (isName_append name ".bin" (by decide))
      (append_ne (by decide) (by decide))
  · exact apart_builds c k k hsource (isName_append name ".abi" (by decide))
      (append_ne (by decide) (by decide))

/-- No directory stands where the files of a build belong. -/
def Buildable (c : Config) (k : Kind) (name : String) (d : Disk) : Prop :=
  ∀ p ∈ buildFiles c k name, d.Removable p

/-- There is no file of a build. -/
def Unbuilt (c : Config) (k : Kind) (name : String) (d : Disk) : Prop :=
  ∀ p ∈ buildFiles c k name, d.has p = false

theorem Unbuilt.buildable (h : Unbuilt c k name d) : Buildable c k name d := fun p hp hl =>
  absurd (Disk.has_iff.2 ⟨_, hl⟩) (Bool.eq_false_iff.1 (h p hp))

theorem Buildable.unbuilt (h : Buildable c k name d) : Unbuilt c k name (dropBuild c k name d) := by
  have hbinary := h _ (mem_buildFiles.2 (.inl rfl))
  have hinterface := h _ (mem_buildFiles.2 (.inr rfl))
  intro p hp
  obtain rfl | rfl := mem_buildFiles.1 hp
  · have hagree := Disk.agree_withoutFile (apart_interface_binary c k name)
      (d.withoutFile (binaryFile c k name))
    rw [Bool.eq_false_iff, Ne, dropBuild, hagree.has_iff, Disk.not_has_withoutFile hbinary]
    exact nofun
  · have hagree := Disk.agree_withoutFile (apart_binary_interface c k name) d
    exact Disk.not_has_withoutFile (hagree.removable.2 hinterface)

/-- The source of a contract comes and goes without a change of the build. -/
theorem agree_source (hp : p ∈ buildFiles c k name) (s : Site) :
    Agree p s.disk (withoutSource c k name s).disk :=
  Disk.agree_withoutFile (apart_source_build hp) s.disk

theorem buildable_compiled {text : String} (h : Buildable u.config k name d)
    (hc : ∀ p ∈ buildFiles u.config k name, u.compiler.MakesNoDirectory p)
    (hw : d.writeText (sourceFile u.config k name) text = .ok d') (s : Site) :
    Buildable u.config k name
      (withoutSource u.config k name { s with disk := (runCompiler u k name d').2 }).disk := by
  intro p hp
  have hwritten := (Disk.agree_write hw (apart_source_build hp)).removable.2 (h p hp)
  exact (agree_source hp _).removable.2 (Compiler.removable_run (hc p hp) _ _ _ hwritten)

/-! ## Failures -/

/-- What a compiler that failed has left at a path. -/
def LeftByCompiler (u : Setup) (r : Record k) (s : Site) (code : Option Nat) (p : Path) : Prop :=
  ∃ text d d', r.definition.source = .ok text ∧
    s.disk.writeText (sourceFile u.config k r.name) text = .ok d ∧
    runCompiler u k r.name d = (.error (.failed code), d') ∧ d'.has p = true

/-- The failures that say that the name is taken on the chain. -/
def SaysTaken (k : Kind) (e : Error) : Prop :=
  ∃ reason, e = .reverted reason ∧ reason.kind = k.alreadyRegistered

theorem Clears.not_saysTaken (h : Clears k e) : ¬ SaysTaken k e := by
  rintro ⟨reason, rfl, hkind⟩
  exact h hkind

theorem BuildDropped.unbuilt (h : BuildDropped u k name s s')
    (hs : Buildable u.config k name s.disk) : Unbuilt u.config k name s'.disk := by
  rw [h.disk]
  exact hs.unbuilt

/-- How much of a build there is after a failure: nothing, or what a compiler that failed has left.
-/
structure Cleared (u : Setup) (r : Record k) (s : Site) (e : Error) (s' : Site) : Prop where
  notTaken : ¬ SaysTaken k e
  has_iff : ∀ p ∈ buildFiles u.config k r.name, s'.disk.has p = true ↔
    ∃ code, e = .compiler k r.name (.failed code) ∧ LeftByCompiler u r s code p

theorem Unbuilt.cleared (h : Unbuilt u.config k r.name s'.disk) (ht : ¬ SaysTaken k e)
    (hc : ∀ code, e ≠ .compiler k r.name (.failed code)) : Cleared u r s e s' := by
  refine ⟨ht, fun p hp => ⟨fun hhas => ?_, fun ⟨code, he, _⟩ => absurd he (hc code)⟩⟩
  rw [h p hp] at hhas
  cases hhas

theorem BuildDropped.cleared {s₁ : Site} (h : BuildDropped u k r.name s₁ s')
    (hs : Buildable u.config k r.name s₁.disk) (he : Clears k e) : Cleared u r s e s' := by
  refine (h.unbuilt hs).cleared he.not_saysTaken ?_
  rintro code rfl
  exact he

section

variable (hs : Buildable u.config k r.name s.disk)
  (hc : ∀ p ∈ buildFiles u.config k r.name, u.compiler.MakesNoDirectory p)

include hs hc

theorem cleared_of_compile (hn : Unbuilt u.config k r.name s.disk)
    (h : compile u r s = .error e s') : Cleared u r s e s' := by
  have hcompiles := compiles u r s
  rw [h] at hcompiles
  cases hcompiles with
  | source => exact hn.cleared nofun nofun
  | unwritable => exact hn.cleared nofun nofun
  | stopped htext hw =>
    refine Unbuilt.cleared (fun p hp => ?_) nofun nofun
    have hwritten := (Disk.agree_write hw (apart_source_build hp)).has_iff
    rw [Bool.eq_false_iff, Ne, (agree_source hp _).has_iff, hwritten, hn p hp]
    exact nofun
  | @compiler text d reason htext hw hr =>
    obtain ⟨code, rfl⟩ | ⟨hne, hd⟩ := Compiler.run_error hr
    · refine ⟨nofun, fun p hp => ?_⟩
      rw [(agree_source hp _).has_iff]
      constructor
      · exact fun hhas => ⟨code, rfl, text, d, _, htext, hw, Prod.ext hr rfl, hhas⟩
      · rintro ⟨code', -, text', d₁, d₂, htext', hw', hr', hhas⟩
        rw [htext] at htext'
        cases htext'
        rw [hw] at hw'
        cases hw'
        rwa [hr']
    · refine Unbuilt.cleared (fun p hp => ?_) nofun ?_
      · have hagree := (Disk.agree_write hw (apart_source_build hp)).trans
          (Disk.agree_withoutFile (apart_source_build hp) d)
        rw [withoutSource, runCompiler, hd, Bool.eq_false_iff, Ne, hagree.has_iff, hn p hp]
        exact nofun
      · rintro code he
        cases he
        exact hne code rfl
  | noBinary htext hw hr =>
    have hcompiled := buildable_compiled hs hc hw s
    exact hcompiled.unbuilt.cleared nofun nofun

/-- A build that was made, or was there, is one. -/
theorem built_of_build (h : build u r s = .ok () s') :
    Buildable u.config k r.name s'.disk ∧ s'.disk.has (binaryFile u.config k r.name) = true := by
  obtain ⟨hhas, he⟩ | ⟨-, h⟩ := build_cases h
  · cases he
    exact ⟨hs, hhas⟩
  · have hcompiles := compiles u r s
    rw [h] at hcompiles
    cases hcompiles with
    | done htext hw hr hb => exact ⟨buildable_compiled hs hc hw s, hb⟩

/-- An account for the owner does nothing to a build. -/
theorem built_of_fund {s₁ : Site} (h : build u r s = .ok () s₁) (hf : fund owner s₁ = .ok () s') :
    Buildable u.config k r.name s'.disk ∧ s'.disk.has (binaryFile u.config k r.name) = true := by
  rw [fund_ok hf, (sameStores_funded owner s₁).disk]
  exact built_of_build hs hc h

theorem cleared_of_fails (hn : s.node.isRunning = true)
    (hi : s.disk.has (interfaceFile u.config k r.name) = true →
      s.disk.has (binaryFile u.config k r.name) = true) (h : Fails u r owner s e s') :
    SaysTaken k e ∧ s'.disk.has (binaryFile u.config k r.name) = true ∨ Cleared u r s e s' := by
  cases h with
  | build h =>
    obtain ⟨-, he⟩ | ⟨hb, h⟩ := build_cases h
    · cases he
    · refine .inr (cleared_of_compile hs hc (fun p hp => ?_) h)
      obtain rfl | rfl := mem_buildFiles.1 hp
      · exact hb
      · exact Bool.eq_false_iff.2 fun hhas => Bool.eq_false_iff.1 hb (hi hhas)
  | fund hb h =>
    obtain ⟨-, -, hstopped⟩ := fund_error h
    rw [node_of_build hb, hn] at hstopped
    cases hstopped
  | create hb hf h =>
    obtain ⟨hbuildable, hhas⟩ := built_of_fund hs hc hb hf
    obtain ⟨reason, rfl, hkind, hsame⟩ | ⟨he, hdropped⟩ := create_error h
    · refine .inl ⟨⟨reason, rfl, hkind⟩, ?_⟩
      rw [hsame.disk]
      exact hhas
    · exact .inr (hdropped.cleared hbuildable he)
  | verify hb hf hcreate h =>
    obtain ⟨text, n, -, -, rfl⟩ := create_ok hcreate
    obtain ⟨he, hdropped⟩ := verify_error h
    exact .inr (hdropped.cleared (built_of_fund hs hc hb hf).1 he)
  | index hb hf hcreate hverify h =>
    obtain ⟨text, n, -, -, rfl⟩ := create_ok hcreate
    obtain ⟨output, -, -, rfl⟩ := verify_ok hverify
    obtain ⟨he, hdropped⟩ := index_error h
    exact .inr (hdropped.cleared (built_of_fund hs hc hb hf).1 he)
  | save hb hf hcreate hverify hindex h =>
    obtain ⟨text, n, -, -, rfl⟩ := create_ok hcreate
    obtain ⟨output, -, -, rfl⟩ := verify_ok hverify
    obtain ⟨t, -, rfl⟩ := index_ok hindex
    obtain ⟨he, hdropped⟩ := save_error h
    exact .inr (hdropped.cleared (built_of_fund hs hc hb hf).1 he)

end

/-- Without a node the owner of a record cannot be funded: what was built before stays, and so does
everything else. -/
theorem publish_of_stopped (ho : approve r = .ok owner)
    (hb : s.disk.has (binaryFile u.config k r.name) = true) (hn : s.node.isRunning = false) :
    publish u r s = .error (.unfunded .closed) s := by
  have hbuild : build u r s = .ok () s := by rw [build, if_pos hb]
  have hfund : fund owner s = .error (.unfunded .closed) s := by
    rw [fund_eq, if_neg (Bool.eq_false_iff.1 hn)]
  unfold publish
  rw [ho]
  dsimp only
  unfold pipeline
  rw [bind_of_ok hbuild, bind_of_error hfund]

/-- As long as there is a node, publishing a valid record that fails leaves no file of a build,
unless the contract says that the name is taken, where the binary is still there; or the compiler
failed, where there is just what it has left. -/
theorem failed_publish_clears_build (u : Setup) (r : Record k) (owner : Address) (s s' : Site)
    (e : Error) (hn : s.node.isRunning = true) (ho : approve r = .ok owner)
    (hi : s.disk.has (interfaceFile u.config k r.name) = true →
      s.disk.has (binaryFile u.config k r.name) = true)
    (hs : Buildable u.config k r.name s.disk)
    (hc : ∀ p ∈ buildFiles u.config k r.name, u.compiler.MakesNoDirectory p)
    (h : publish u r s = .error e s') :
    (SaysTaken k e → s'.disk.has (binaryFile u.config k r.name) = true) ∧
    (¬ SaysTaken k e → ∀ p ∈ buildFiles u.config k r.name, s'.disk.has p = true ↔
      ∃ code, e = .compiler k r.name (.failed code) ∧ LeftByCompiler u r s code p) := by
  obtain ⟨he, -⟩ | ⟨owner', -, hfails⟩ := publish_error h
  · rw [ho] at he
    cases he
  · obtain ⟨htaken, hhas⟩ | hcleared := cleared_of_fails hs hc hn hi hfails
    · exact ⟨fun _ => hhas, fun hn => absurd htaken hn⟩
    · exact ⟨fun ht => absurd ht hcleared.notTaken, fun _ => hcleared.has_iff⟩

/-! ## A compiler that fails halfway -/

/-- Everything is at the root. -/
def bench : Config := ⟨"/cc", "/pt", "/st", .info, 30000000, 1⟩

/-- The compiler writes one binary, whatever the source, and ends with an exit code. -/
def writer (text : String) (code : Option Nat) : Setup :=
  ⟨bench, .writing (binaryFile bench .condition "always") text code, []⟩

theorem writer_leaves (text : String) (code : Option Nat) (l : Kind) (name : String) :
    (writer text code).compiler.Leaves (recordFile bench l name) :=
  have hname := isName_append "always" ".bin" (by decide)
  Compiler.writing_leaves (apart_build_record bench .condition hname l name) text code

/-- The directories for conditions are there, and the compiler. -/
structure Furnished (d : Disk) : Prop where
  storage : d.entry? ["st"] = some .directory
  records : d.entry? ["st", "conditions"] = some .directory
  builds : d.entry? ["st", "conditions", "build"] = some .directory
  compiler : d.entry? ["cc"] = some .program
  /-- For what is built there is always room. -/
  writable (entries : Disk.Entries) (name : String) (e : Disk.Entry) :
    d.policy entries ["st", "conditions", "build", name] e = none

namespace Furnished

/-- What is written for a condition with this name. -/
def names : List String := ["always" ++ ".sol", "always" ++ ".bin", "always" ++ ".abi"]

/-- Where it is written. -/
def place (name : String) : Disk.Place := ["st", "conditions", "build", name]

/-- Two disks that differ at most in what is written for a condition. -/
structure Beside (d d' : Disk) : Prop where
  policy : d'.policy = d.policy
  entry (q : Disk.Place) : (∀ name, q ≠ place name) → d'.entry? q = d.entry? q

theorem Beside.refl (d : Disk) : Beside d d := ⟨rfl, fun _ _ => rfl⟩

theorem Beside.trans {d'' : Disk} (h : Beside d d') (h' : Beside d' d'') : Beside d d'' :=
  ⟨h'.policy.trans h.policy, fun q hq => (h'.entry q hq).trans (h.entry q hq)⟩

theorem beside_of_sameBut (h : Disk.SameBut (place name) d d') : Beside d d' :=
  ⟨h.policy, fun q hq => h.entry q (hq name)⟩

theorem beside (h : Furnished d) (hs : Beside d d') : Furnished d' where
  storage := (hs.entry _ (by simp [place])).trans h.storage
  records := (hs.entry _ (by simp [place])).trans h.records
  builds := (hs.entry _ (by simp [place])).trans h.builds
  compiler := (hs.entry _ (by simp [place])).trans h.compiler
  writable entries name e := hs.policy ▸ h.writable entries name e

theorem legible {text : String}
    (h : text ∈ ["/cc", "/st", "conditions", "build", "always" ++ ".json"] ++ names) :
    Path.Legible text := by
  unfold names at h
  refine ⟨?_, ?_⟩ <;> fin_cases h <;> simp [Path.Joinable]

/-- How a path below the storage is found. -/
theorem find_below {steps : List String} (hne : steps ≠ []) (hl : ∀ n ∈ steps, Path.Legible n)
    (hs : "/st".utf8ByteSize + (steps.map (·.utf8ByteSize + 1)).sum ≤ Disk.maxPath) (d : Disk) :
    d.find ⟨"/st", steps⟩ = d.walk [] ("st" :: steps) := by
  have hparts : (Path.ofText "/st").parts = ["st"] := by cbv
  have habsolute : (Path.mk "/st" steps).isAbsolute = true :=
    show "/st".startsWith "/" = true by decide_cbv
  rw [Disk.find_of_steps (Disk.refusal?_eq_none (legible (by simp)) hl hs) habsolute
    (Path.steps_eq (.inl hne)),
    show (Path.ofText (Path.mk "/st" steps).text).parts = ["st"] from hparts]
  rfl

theorem find_build (h : Furnished d) (hn : name ∈ names) :
    d.find (buildDirectory bench .condition / name) = .ok (place name) := by
  have hlegible : ∀ n ∈ ["conditions", "build", name], Path.Legible n := by
    intro n hn'
    refine legible ?_
    fin_cases hn'
    · simp
    · simp
    · exact List.mem_append_right _ hn
  unfold names at hn
  refine (find_below (List.cons_ne_nil _ _) hlegible ?_ d).trans ?_
  · fin_cases hn <;> decide_cbv
  · fin_cases hn <;>
      simp [place, Disk.walk, Disk.entry?_nil, h.storage, h.records, h.builds, Disk.maxName] <;>
      decide_cbv

theorem find_records (h : Furnished d) :
    d.find (recordsDirectory bench .condition) = .ok ["st", "conditions"] := by
  refine (find_below (List.cons_ne_nil "conditions" []) ?_ (by decide_cbv) d).trans ?_
  · exact List.forall_mem_singleton.2 (legible (by simp))
  · simp [Disk.walk, Disk.entry?_nil, h.storage, Disk.maxName]
    decide_cbv

theorem find_record (h : Furnished d) : d.find (recordFile bench .condition "always") =
    .ok ["st", "conditions", "always" ++ ".json"] := by
  refine (find_below (List.cons_ne_nil "conditions" ["always" ++ ".json"]) ?_ (by decide_cbv)
    d).trans ?_
  · exact List.forall_mem_cons.2
      ⟨legible (by simp), List.forall_mem_singleton.2 (legible (by simp))⟩
  · simp [Disk.walk, Disk.entry?_nil, h.storage, h.records, Disk.maxName]
    decide_cbv

theorem look_compiler (h : Furnished d) : d.look (.ofText "/cc") = .ok .program := by
  have hlegible : Path.Legible "/cc" := legible (by simp)
  have hrefusal : Disk.refusal? (.ofText "/cc") = none :=
    Disk.refusal?_eq_none hlegible nofun (by decide_cbv)
  have hparts : (Path.ofText "/cc").parts = ["cc"] := by cbv
  refine Disk.look_eq_ok.2 ⟨["cc"], ?_, h.compiler⟩
  rw [Disk.find_of_steps hrefusal (by decide_cbv) (Path.steps_eq (.inr hlegible.joinable)),
    show (Path.ofText (Path.ofText "/cc").text).parts = ["cc"] from hparts]
  simp [Path.ofText, Disk.walk, Disk.entry?_nil, Disk.maxName]
  decide_cbv

/-- What the compiler is called with for a condition of this name. -/
def arguments : List String :=
  ["--evm-version", "shanghai", "--overwrite", "-o", "/st/conditions/build", "--optimize", "--bin",
    "--abi", "--base-path", "/pt/contracts", "--include-path", "/pt/node_modules",
    "/st/conditions/build/always.sol"]

theorem start (h : Furnished d) : Compiler.start d [] "/cc" arguments = .ok () := by
  have hrunnable : Compiler.runnable d (.ofText "/cc") = .ok () := by
    unfold Compiler.runnable
    rw [h.look_compiler]
    rfl
  have hzero : ("/cc" :: arguments).any (·.contains '\x00') = false := by
    simp [arguments, String.contains_char_eq]
  have hshort : arguments.any (Compiler.maxArgument < ·.utf8ByteSize) = false := by
    decide_cbv
  have hcandidates : Compiler.candidates [] "/cc" = [.ofText "/cc"] := by
    simp [Compiler.candidates, String.contains_char_eq]
  unfold Compiler.start
  rw [hzero, hcandidates, Compiler.search, hrunnable, hshort]
  rfl

/-- What a compiler does is what becomes of a run. -/
theorem runCompiler_eq {compiler : Compiler} (h : Furnished d)
    (hs : d.has (sourceFile bench .condition "always") = true) :
    runCompiler ⟨bench, compiler, []⟩ .condition "always" d =
      (if (compiler arguments d).1 = some 0 then .ok ()
        else .error (.failed (compiler arguments d).1), (compiler arguments d).2) := by
  have harguments : Compiler.arguments (contractJob bench .condition "always") = .ok arguments := by
    decide +kernel
  unfold runCompiler Compiler.run
  rw [harguments]
  dsimp only
  rw [show (contractJob bench .condition "always").source = sourceFile bench .condition "always"
    from rfl, hs, show bench.compiler = "/cc" from rfl, h.start]
  rfl

/-- What is written can be written, and nothing else changes. -/
theorem exists_write (h : Furnished d) (hn : name ∈ names)
    (hd : d.entry? (place name) ≠ some .directory) (text : String) : ∃ d',
      d.writeText (buildDirectory bench .condition / name) text = .ok d' ∧ Beside d d' ∧
      (∀ n, n ≠ name → d'.entry? (place n) = d.entry? (place n)) ∧
      d'.look (buildDirectory bench .condition / name) = .ok (.file text.toUTF8) := by
  have hw : d.write (buildDirectory bench .condition / name) text.toUTF8 =
      .ok (d.put (place name) (.file text.toUTF8)) := by
    rw [Disk.write_of_find (h.find_build hn) hd]
    exact Disk.offer_eq_ok.2 ⟨h.writable _ name _, rfl⟩
  obtain ⟨x, hx, hsame, -⟩ := Disk.write_eq_ok hw
  obtain rfl := Except.ok.inj ((h.find_build hn).symm.trans hx)
  refine ⟨_, hw, beside_of_sameBut hsame, fun n hne => hsame.entry _ ?_, Disk.look_write hw⟩
  exact fun he => hne (by simpa [place] using he)

theorem beside_withoutFile (h : Furnished d) (hn : name ∈ names) :
    Beside d (d.withoutFile (buildDirectory bench .condition / name)) := by
  unfold Disk.withoutFile
  split
  · obtain ⟨x, hx, hsame, -⟩ := Disk.removeFile_sameBut ‹_›
    obtain rfl := Except.ok.inj ((h.find_build hn).symm.trans hx)
    exact beside_of_sameBut hsame
  · exact .refl d

theorem not_has (h : Furnished d) (hn : name ∈ names) (he : d.entry? (place name) = none) :
    d.has (buildDirectory bench .condition / name) = false := by
  refine Bool.eq_false_iff.2 fun hhas => ?_
  obtain ⟨e, hl⟩ := Disk.has_iff.1 hhas
  obtain ⟨x, hx, he'⟩ := Disk.look_eq_ok.1 hl
  obtain rfl := Except.ok.inj ((h.find_build hn).symm.trans hx)
  rw [he] at he'
  cases he'

/-- With a compiler that writes the binary, that binary is what a condition with this name comes to,
whatever the exit code says. -/
theorem build_writing {r : Record .condition} {source : String} (h : Furnished s.disk)
    (hn : s.node.isRunning = true) (hr : r.name = "always")
    (hsource : r.definition.source = .ok source)
    (hs : s.disk.entry? (place ("always" ++ ".sol")) = none)
    (hb : s.disk.entry? (place ("always" ++ ".bin")) = none) (text : String) (code : Option Nat) :
    ∃ d', Beside s.disk d' ∧
      d'.look (binaryFile bench .condition "always") = .ok (.file text.toUTF8) ∧
      build (writer text code) r s =
        if code = some 0 then .ok () { s with disk := d' }
        else .error (.compiler .condition "always" (.failed code)) { s with disk := d' } := by
  have hsol : "always" ++ ".sol" ∈ names := by simp [names]
  have hbin : "always" ++ ".bin" ∈ names := by simp [names]
  obtain ⟨d₁, hw₁, h₁, hentry, hlook⟩ := h.exists_write hsol (by rw [hs]; exact nofun) source
  obtain ⟨d₂, hw₂, h₂, -, hlook₂⟩ :=
    (h.beside h₁).exists_write hbin (by rw [hentry _ (by simp), hb]; exact nofun) text
  have hrun : runCompiler (writer text code) .condition "always" d₁ =
      (if code = some 0 then .ok () else .error (.failed code), d₂) := by
    rw [writer, (h.beside h₁).runCompiler_eq (Disk.has_iff.2 ⟨_, hlook⟩), Compiler.writing,
      show d₁.writeText (binaryFile bench .condition "always") text = .ok d₂ from hw₂]
  have hbinary : (d₂.withoutFile (sourceFile bench .condition "always")).look
      (binaryFile bench .condition "always") = .ok (.file text.toUTF8) :=
    (Disk.agree_withoutFile (apart_source_build (mem_buildFiles.2 (.inl rfl))) d₂ _).2 hlook₂
  have hnew : s.disk.has (binaryFile bench .condition "always") = false := h.not_has hbin hb
  have hwritten := h₁.trans h₂
  refine ⟨_, hwritten.trans ((h.beside hwritten).beside_withoutFile hsol), hbinary, ?_⟩
  unfold build
  rw [hr, show (writer text code).config = bench from rfl, if_neg (Bool.eq_false_iff.1 hnew),
    compile_eq (u := writer text code) hsource (hr ▸ hw₁) hn]
  dsimp only
  rw [hr, hrun]
  by_cases hc : code = some 0
  · rw [if_pos hc, if_pos hc]
    exact if_pos (Disk.has_iff.2 ⟨_, hbinary⟩)
  · rw [if_neg hc, if_neg hc]
    rfl

end Furnished

/-- A site at which nothing has been published. -/
def workshop : Site where
  disk := ((((Disk.empty []).put ["st"] .directory).put ["st", "conditions"] .directory).put
    ["st", "conditions", "build"] .directory).put ["cc"] .program
  node := .start bench
  registry := .empty

theorem furnished_workshop : Furnished workshop.disk := by
  refine ⟨?_, ?_, ?_, ?_, fun _ _ _ => rfl⟩ <;> simp [workshop, Disk.entry?_put]

theorem workshop_place (name : String) : workshop.disk.entry? (Furnished.place name) = none := by
  simp only [workshop, Furnished.place, Disk.entry?_put (List.cons_ne_nil _ _)]
  simp [Disk.entry?, Disk.empty]

theorem unbuilt_workshop : Unbuilt bench .condition "always" workshop.disk := by
  intro p hp
  have hnames : "always" ++ ".bin" ∈ Furnished.names ∧ "always" ++ ".abi" ∈ Furnished.names := by
    simp [Furnished.names]
  obtain rfl | rfl := mem_buildFiles.1 hp
  · exact furnished_workshop.not_has hnames.1 (workshop_place _)
  · exact furnished_workshop.not_has hnames.2 (workshop_place _)

theorem workshop_no_interface {P : Prop}
    (h : workshop.disk.has (interfaceFile bench .condition "always") = true) : P :=
  absurd h (Bool.eq_false_iff.1 (unbuilt_workshop _ (mem_buildFiles.2 (.inr rfl))))

theorem build_workshop (text : String) (code : Option Nat) : ∃ d,
    Furnished.Beside workshop.disk d ∧
    d.look (binaryFile bench .condition "always") = .ok (.file text.toUTF8) ∧
    build (writer text code) Registry.always workshop =
      if code = some 0 then .ok () { workshop with disk := d }
      else .error (.compiler .condition "always" (.failed code)) { workshop with disk := d } :=
  furnished_workshop.build_writing (r := Registry.always) rfl rfl rfl (workshop_place _)
    (workshop_place _) text code

/-- The compiler writes a binary and fails. -/
theorem publish_hasty : ∃ s', publish (writer "00" (some 1)) Registry.always workshop =
      .error (.compiler .condition "always" (.failed (some 1))) s' ∧
    s'.disk.has (binaryFile bench .condition "always") = true := by
  have happrove : approve Registry.always = .ok ⟨7, 0, 0⟩ := by cbv
  obtain ⟨d, -, hlook, hbuild⟩ := build_workshop "00" (some 1)
  refine ⟨{ workshop with disk := d }, ?_, Disk.has_iff.2 ⟨_, hlook⟩⟩
  unfold publish
  rw [happrove]
  exact bind_of_error hbuild

/-- A failed compilation may leave a binary behind. -/
theorem failed_compiler_leaves_binary :
    ¬ ∀ (k : Kind) (u : Setup) (r : Record k) (owner : Address) (s s' : Site) (e : Error),
      s.node.isRunning = true → approve r = .ok owner →
      (s.disk.has (interfaceFile u.config k r.name) = true →
        s.disk.has (binaryFile u.config k r.name) = true) →
      Buildable u.config k r.name s.disk →
      (∀ p ∈ buildFiles u.config k r.name, u.compiler.MakesNoDirectory p) →
      publish u r s = .error e s' →
      (SaysTaken k e → s'.disk.has (binaryFile u.config k r.name) = true) ∧
      (¬ SaysTaken k e → Unbuilt u.config k r.name s'.disk) := by
  intro h
  obtain ⟨s', hpublish, hhas⟩ := publish_hasty
  obtain ⟨-, hunbuilt⟩ := h .condition (writer "00" (some 1)) Registry.always ⟨7, 0, 0⟩ workshop
    s' _ rfl (by cbv) workshop_no_interface unbuilt_workshop.buildable
    (fun p _ => Compiler.writing_makesNoDirectory _ _ _ p) hpublish
  exact absurd hhas (Bool.eq_false_iff.1 (hunbuilt nofun _ (mem_buildFiles.2 (.inl rfl))))

theorem failed_publish_clears_build_hasty : ∃ s',
    publish (writer "00" (some 1)) Registry.always workshop =
      .error (.compiler .condition "always" (.failed (some 1))) s' ∧
    s'.disk.has (binaryFile bench .condition "always") = true ∧
    LeftByCompiler (writer "00" (some 1)) Registry.always workshop (some 1)
      (binaryFile bench .condition "always") := by
  obtain ⟨s', hpublish, hhas⟩ := publish_hasty
  obtain ⟨-, hleft⟩ := failed_publish_clears_build (writer "00" (some 1)) Registry.always ⟨7, 0, 0⟩
    workshop s' _ rfl (by cbv) workshop_no_interface unbuilt_workshop.buildable
    (fun p _ => Compiler.writing_makesNoDirectory _ _ _ p) hpublish
  obtain ⟨code, he, h⟩ := (hleft nofun _ (mem_buildFiles.2 (.inl rfl))).1 hhas
  cases he
  exact ⟨s', hpublish, hhas, h⟩

end Publishing

end ParticleChain
