import ParticleChain.Proofs.Artifact.Validation
import ParticleChain.Proofs.Publishing.Published

/-!
# Records with different names

All that publishing works on belongs to the kind and name of the record: its files, which no valid
record of another kind or name shares (`eq_of_mem_files`), and what the registry has under the name
(`Table.SameUnder`). Each stage keeps to that (`KeepsTo`), whether it fails or not, so the whole
does (`keepsTo_publish`), and records with different names do not get into each other's way
(`publishing_stays_apart`). The compiler, too, must keep to what it is asked for (`WritesOnly`).
-/

namespace ParticleChain

open Artifact (Kind Definition Record)
open Disk (Agree Apart Descends IsName)

/-! ## The registry -/

namespace Registry

variable {k l : Kind} {name other : String} {s t : Registry} {op : Op}

/-- Two tables have the same records under a name, in the same order, for the same owners. -/
structure Table.SameUnder (name : String) (t t' : Table k) : Prop where
  bucket : t'.buckets[name]? = t.buckets[name]?
  history : t'.histories[name]? = t.histories[name]?
  owned (o : Address) : name ∈ t'.ownedBy o ↔ name ∈ t.ownedBy o

namespace Table.SameUnder

variable {t t' t'' : Table k} {r : Record k}

theorem refl (name : String) (t : Table k) : SameUnder name t t := ⟨rfl, rfl, fun _ => .rfl⟩

theorem trans (h : SameUnder name t t') (h' : SameUnder name t' t'') : SameUnder name t t'' where
  bucket := h'.bucket.trans h.bucket
  history := h'.history.trans h.history
  owned o := (h'.owned o).trans (h.owned o)

theorem newestAddress? (h : SameUnder name t t') :
    t'.newestAddress? name = t.newestAddress? name := by
  rw [Table.newestAddress?, Table.newestAddress?, history_eq, history_eq, h.history]

theorem insert (t : Table k) (h : r.name ≠ name) (a owner : Address) :
    SameUnder name t (t.insert a owner r) where
  bucket := by simp [Table.insert, Std.TreeMap.getElem?_insert, h]
  history := by simp [Table.insert, Std.TreeMap.getElem?_insert, h]
  owned o := by
    rw [mem_ownedBy_insert]
    exact or_iff_right fun he => h he.2

theorem remove (t : Table k) (h : other ≠ name) (a : Address) :
    SameUnder name t (t.remove other a) := by
  cases hg : t.get? other a with
  | none =>
    rw [remove_of_none hg]
    exact .refl name t
  | some r =>
    refine ⟨(buckets_remove hg name).trans (if_neg h), (histories_remove hg name).trans (if_neg h),
      fun o => ?_⟩
    rw [mem_ownedBy_remove hg]
    exact and_iff_left fun he => h he.2.1

end Table.SameUnder

/-- The kind and the name that an operation is about. -/
def Op.target : Op → Kind × String
  | .add k _ r => (k, r.name)
  | .remove k name _ => (k, name)

/-- An operation changes nothing under other names. -/
theorem Takes.sameUnder (ht : s.Takes op t) (h : op.target ≠ (l, name)) :
    (s.table l).SameUnder name (t.table l) := by
  refine ht.table_cases (P := (s.table l).SameUnder name) (.refl name _)
    (fun a owner r he _ _ => ?_) fun other a he => ?_
  · refine .insert _ ?_ a owner
    rintro rfl
    exact h (he ▸ rfl)
  · refine .remove _ ?_ a
    rintro rfl
    exact h (he ▸ rfl)

end Registry

/-! ## The compiler -/

namespace Compiler

/-- What a job is for: the binary and the interface, by the stem of the source. -/
def Job.products (j : Job) : List Path :=
  [".bin", ".abi"].map fun ending => j.output / (Path.stem (j.source.parts.getLastD "") ++ ending)

/-- On a job the compiler changes nothing but what the job is for. -/
def WritesOnly (c : Compiler) (j : Job) : Prop :=
  ∀ p, (∀ f ∈ j.products, Apart f p) → c.LeavesOn j p

end Compiler

namespace Publishing

variable {ε α β : Type} {u : Setup} {c : Config} {k l : Kind} {name other : String} {f g : Path}
  {r : Record k} {s s' s'' : Site}

/-! ## Files -/

/-- All files of a name. -/
def files (c : Config) (k : Kind) (name : String) : List Path :=
  [sourceFile c k name, binaryFile c k name, interfaceFile c k name, recordFile c k name]

theorem mem_files (h : f ∈ files c k name) : f = recordFile c k name ∨
    ∃ ending ∈ [".sol", ".bin", ".abi"], f = buildDirectory c k / (name ++ ending) := by
  simp only [files, List.mem_cons, List.not_mem_nil, or_false] at h
  obtain rfl | rfl | rfl | rfl := h
  · exact .inr ⟨".sol", by simp, rfl⟩
  · exact .inr ⟨".bin", by simp, rfl⟩
  · exact .inr ⟨".abi", by simp, rfl⟩
  · exact .inl rfl

theorem length_ending {ending : String} (h : ending ∈ [".sol", ".bin", ".abi"]) :
    ending.length = 4 := by
  fin_cases h <;> rfl

theorem isName_ending {ending : String} (h : ending ∈ [".sol", ".bin", ".abi"]) :
    IsName (name ++ ending) :=
  isName_append name ending (by rw [length_ending h]; decide)

theorem plural_inj (h : k.plural = l.plural) : k = l := by
  cases k <;> cases l <;> first | rfl | exact absurd h (by decide)

/-- A file tells what it is a file of. -/
theorem eq_of_mem_files (hf : f ∈ files c k name) (hg : f ∈ files c l other) :
    (k, name) = (l, other) := by
  obtain rfl | ⟨e, he, rfl⟩ := mem_files hf <;> obtain hg | ⟨e', he', hg⟩ := mem_files hg <;>
    have hnames := congrArg Path.names hg
  · rw [names_recordFile, names_recordFile] at hnames
    simp only [List.cons.injEq] at hnames
    exact Prod.ext (plural_inj hnames.1) (append_ending_inj rfl hnames.2.1).1
  -- The way to a build is longer than the way to a record.
  · exact absurd (congrArg List.length hnames) (by simp [names_recordFile, names_build])
  · exact absurd (congrArg List.length hnames) (by simp [names_recordFile, names_build])
  · rw [names_build, names_build] at hnames
    simp only [List.cons.injEq] at hnames
    have hlength := (length_ending he).trans (length_ending he').symm
    exact Prod.ext (plural_inj hnames.1) (append_ending_inj hlength hnames.2.2.1).1

theorem descends_of_mem_files (h : f ∈ files c k name) : Descends f := by
  obtain rfl | ⟨e, he, rfl⟩ := mem_files h
  · exact descends_recordFile c k name
  · exact descends_build c k (isName_ending he)

theorem text_of_mem_files (h : f ∈ files c k name) : f.text = c.storage := by
  obtain rfl | ⟨e, he, rfl⟩ := mem_files h <;> rfl

theorem apart_of_mem_files (hf : f ∈ files c k name) (hg : g ∈ files c l other)
    (hne : (k, name) ≠ (l, other)) : Apart f g :=
  (descends_of_mem_files hf).apart (descends_of_mem_files hg)
    ((text_of_mem_files hf).trans (text_of_mem_files hg).symm)
    fun he => hne (eq_of_mem_files hf (he ▸ hg))

/-! ## Files as they are written -/

theorem segment_of_validate {d : Definition k} (h : d.validate = .ok ()) : Path.Segment d.name :=
  have hname := Artifact.isIdentifier_of_validate h
  ⟨Artifact.ne_empty_of_isIdentifier hname, Artifact.not_mem_identifier hname rfl rfl⟩

theorem segment_plural (k : Kind) : Path.Segment k.plural := by
  cases k <;> exact ⟨by decide, by decide⟩

theorem noSlash_ending {ending : String} (h : ending ∈ [".sol", ".bin", ".abi"]) :
    '/' ∉ ending.toList := by
  fin_cases h <;> decide

theorem segment_of_mem_files (hn : Path.Segment name) (h : f ∈ files c k name) :
    ∀ n ∈ f.names, Path.Segment n := by
  obtain rfl | ⟨e, he, rfl⟩ := mem_files h
  · rw [names_recordFile]
    exact List.forall_mem_cons.2 ⟨segment_plural k,
      List.forall_mem_singleton.2 (hn.append (by decide))⟩
  · rw [names_build]
    exact List.forall_mem_cons.2 ⟨segment_plural k, List.forall_mem_cons.2
      ⟨⟨by decide, by decide⟩, List.forall_mem_singleton.2 (hn.append (noSlash_ending he))⟩⟩

/-- Files of different names are written differently. -/
theorem render_ne_of_mem_files (hn : Path.Segment name) (ho : Path.Segment other)
    (hf : f ∈ files c k name) (hg : g ∈ files c l other) (hne : (k, name) ≠ (l, other)) :
    f.render ≠ g.render := by
  intro he
  obtain rfl := Path.render_inj ((text_of_mem_files hf).trans (text_of_mem_files hg).symm)
    (descends_of_mem_files hf).ne_nil (segment_of_mem_files hn hf)
    (descends_of_mem_files hg).ne_nil (segment_of_mem_files ho hg) he
  exact hne (eq_of_mem_files hf hg)

/-- A path leads directly into a directory: it goes on by one step, which stands for a place below,
also as it is written. -/
def LiesIn (p directory : Path) : Prop :=
  ∃ name, Path.Segment name ∧ IsName name ∧ p = directory / name ∧
    p.render = directory.render ++ "/" ++ name

theorem liesIn_child {step : String} (hs : Path.Segment step) (h : Path.Segment name)
    (hn : IsName name) (p : Path) : LiesIn (p / step / name) (p / step) := by
  refine ⟨name, h, hn, rfl, ?_⟩
  have hrender : Path.Joinable (p / step).render := by
    rw [Path.render_child, Path.joinText_eq]
    exact hs.joinable.append _
  rw [Path.render_child, hrender.joinText_eq]

/-- No file of a valid record lies anywhere but in the directories of its kind. -/
theorem liesIn_of_mem_files (hn : Path.Segment name) (h : f ∈ files c k name) :
    LiesIn f (recordsDirectory c k) ∨ LiesIn f (buildDirectory c k) := by
  obtain rfl | ⟨e, he, rfl⟩ := mem_files h
  · exact .inl (liesIn_child (segment_plural k) (hn.append (by decide))
      (isName_append name ".json" (by decide)) _)
  · exact .inr (liesIn_child ⟨by decide, by decide⟩ (hn.append (noSlash_ending he))
      (isName_ending he) _)

/-! ## Stages -/

theorem products_contractJob (hn : name ≠ "") :
    (contractJob c k name).products = [binaryFile c k name, interfaceFile c k name] := by
  have hsource : (contractJob c k name).source.parts.getLastD "" = name ++ ".sol" := by
    simp [contractJob, Path.parts, sourceFile_eq, names_build]
  have hstem : Path.stem (name ++ ".sol") = name := by
    rw [show ".sol" = "." ++ "sol" from rfl, ← String.append_assoc]
    exact (Path.stem_append hn (by decide)).2
  rw [Compiler.Job.products, hsource, hstem]
  rfl

/-- From one site to another, nothing has changed but what belongs to a name. -/
structure KeptBut (u : Setup) (k : Kind) (name : String) (s s' : Site) : Prop where
  disk (p : Path) : (∀ f ∈ files u.config k name, Apart f p) → Agree p s.disk s'.disk
  registry (l : Kind) (other : String) : (k, name) ≠ (l, other) →
    (s.registry.table l).SameUnder other (s'.registry.table l)

theorem KeptBut.refl (u : Setup) (k : Kind) (name : String) (s : Site) : KeptBut u k name s s :=
  ⟨fun p _ => .refl p s.disk, fun _ other _ => .refl other _⟩

theorem KeptBut.trans (h : KeptBut u k name s s') (h' : KeptBut u k name s' s'') :
    KeptBut u k name s s'' :=
  ⟨fun p hp => (h.disk p hp).trans (h'.disk p hp),
    fun l other hne => (h.registry l other hne).trans (h'.registry l other hne)⟩

theorem SameStores.keptBut (h : SameStores s s') (u : Setup) (k : Kind) (name : String) :
    KeptBut u k name s s' where
  disk p _ := h.disk ▸ .refl p s.disk
  registry _ other _ := h.registry ▸ .refl other _

theorem keptBut_node (u : Setup) (k : Kind) (name : String) (s : Site) (n : Node) :
    KeptBut u k name s { s with node := n } :=
  have hsame : SameStores s { s with node := n } := ⟨rfl, rfl⟩
  hsame.keptBut u k name

theorem keptBut_withoutBuild (u : Setup) (k : Kind) (name : String) (s : Site) :
    KeptBut u k name s (withoutBuild u.config k name s) where
  disk _ hp := agree_dropBuild (hp _ (by simp [files])) (hp _ (by simp [files])) s.disk
  registry _ other _ := .refl other _

theorem BuildDropped.keptBut (h : BuildDropped u k name s s') : KeptBut u k name s s' :=
  have hsame : SameStores (withoutBuild u.config k name s) s' := ⟨h.disk, h.registry⟩
  (keptBut_withoutBuild u k name s).trans (hsame.keptBut u k name)

/-- Work that, however it ends, changes only what belongs to a name. -/
def KeepsTo (u : Setup) (k : Kind) (name : String) (x : Work ε α) : Prop :=
  ∀ s, KeptBut u k name s (final (x s))

theorem keepsTo_of_cases {x : Work ε α} (hok : ∀ s a s', x s = .ok a s' → KeptBut u k name s s')
    (herror : ∀ s e s', x s = .error e s' → KeptBut u k name s s') : KeepsTo u k name x := by
  intro s
  cases h : x s with
  | ok a s' => exact hok s a s' h
  | error e s' => exact herror s e s' h

theorem KeepsTo.of_ok {x : Work ε α} {a : α} (h : KeepsTo u k name x) (hx : x s = .ok a s') :
    KeptBut u k name s s' := by
  have hfinal := h s
  rwa [hx] at hfinal

theorem KeepsTo.of_error {x : Work ε α} {e : ε} (h : KeepsTo u k name x)
    (hx : x s = .error e s') : KeptBut u k name s s' := by
  have hfinal := h s
  rwa [hx] at hfinal

theorem keepsTo_pure (a : α) : KeepsTo u k name (pure a : Work ε α) := KeptBut.refl u k name

theorem KeepsTo.bind {x : Work ε α} {f : α → Work ε β} (hx : KeepsTo u k name x)
    (hf : ∀ a, KeepsTo u k name (f a)) : KeepsTo u k name (x >>= f) := by
  refine keepsTo_of_cases (fun s b s' h => ?_) (fun s e s' h => ?_)
  · obtain ⟨a, s₁, ha, hb⟩ := bind_eq_ok h
    exact (hx.of_ok ha).trans ((hf a).of_ok hb)
  · obtain he | ⟨a, s₁, ha, he⟩ := bind_eq_error h
    · exact hx.of_error he
    · exact (hx.of_ok ha).trans ((hf a).of_error he)

theorem keepsTo_build (hn : r.name ≠ "")
    (hc : u.compiler.WritesOnly (contractJob u.config k r.name)) :
    KeepsTo u k r.name (build u r) := by
  refine rel_build (.refl u k r.name) .trans (keptBut_withoutBuild u k r.name) fun hw hd => ?_
  refine ⟨fun p hp => ?_, fun _ other _ => .refl other _⟩
  have hproducts : ∀ f ∈ (contractJob u.config k r.name).products, Apart f p := by
    rw [products_contractJob hn]
    exact List.forall_mem_cons.2 ⟨hp _ (by simp [files]),
      List.forall_mem_singleton.2 (hp _ (by simp [files]))⟩
  exact agree_compile hw (hp _ (by simp [files])) (hd p (hc p hproducts))

section

variable (u : Setup) (r : Record k) (owner contract : Address)

theorem keepsTo_fund : KeepsTo u k r.name (fund owner) := by
  refine keepsTo_of_cases (fun s a s' h => ?_) (fun s e s' h => ?_)
  · rw [fund_ok h]
    exact keptBut_node u k r.name s _
  · rw [(fund_error h).2.1]
    exact .refl u k r.name s

theorem keepsTo_create : KeepsTo u k r.name (create u r owner) := by
  refine keepsTo_of_cases (fun s a s' h => ?_) (fun s e s' h => ?_)
  · obtain ⟨text, n, -, -, rfl⟩ := create_ok h
    exact keptBut_node u k r.name s n
  · obtain ⟨reason, -, -, h⟩ | ⟨-, h⟩ := create_error h
    · exact h.keptBut u k r.name
    · exact h.keptBut

theorem keepsTo_verify : KeepsTo u k r.name (verify u r contract owner) := by
  refine keepsTo_of_cases (fun s a s' h => ?_) (fun s e s' h => (verify_error h).2.keptBut)
  obtain ⟨output, -, -, rfl⟩ := verify_ok h
  exact keptBut_node u k r.name s _

theorem keepsTo_index : KeepsTo u k r.name (index u r contract) := by
  refine keepsTo_of_cases (fun s a s' h => ?_) (fun s e s' h => (index_error h).2.keptBut)
  obtain ⟨t, ht, rfl⟩ := index_ok h
  exact ⟨fun p _ => .refl p s.disk,
    fun l other hne => (Registry.takes_of_add ht).sameUnder hne⟩

theorem keepsTo_save : KeepsTo u k r.name (save u r contract) := by
  refine keepsTo_of_cases (fun s a s' h => ?_) (fun s e s' h => ?_)
  · obtain ⟨d, hd, rfl⟩ := save_ok h
    exact ⟨fun p hp => agree_saveRecord hd (hp _ (by simp [files])), fun _ other _ => .refl other _⟩
  · -- The record is taken out of the registry before its build is removed.
    have hremoved : KeptBut u k r.name s
        { s with registry := s.registry.remove k r.name contract } :=
      ⟨fun p _ => .refl p s.disk,
        fun l other hne => (Registry.Takes.remove k r.name contract).sameUnder hne⟩
    exact hremoved.trans (save_error h).2.keptBut

end

theorem keepsTo_publish (hn : r.name ≠ "")
    (hc : u.compiler.WritesOnly (contractJob u.config k r.name)) :
    KeepsTo u k r.name (publish u r) := by
  have hpipeline : ∀ owner, KeepsTo u k r.name (pipeline u r owner) := fun owner =>
    (keepsTo_build hn hc).bind fun _ => (keepsTo_fund u r owner).bind fun _ =>
      (keepsTo_create u r owner).bind fun contract => (keepsTo_verify u r owner contract).bind
        fun _ => (keepsTo_index u r contract).bind fun _ => (keepsTo_save u r contract).bind
          fun _ => keepsTo_pure contract
  intro s
  unfold publish
  split
  · exact .refl u k r.name s
  · exact hpipeline _ s

/-- Two valid records that are not of one kind and name have no file in common, neither as it is
written nor on any disk, and each of their files lies directly in one of the two directories of its
kind. Publishing one, whether it fails or not, leaves every file of the other as it is, and in the
registry the records under the other's name, the newest of them and the owners that have the name;
provided that the compiler writes nothing but what it is asked for. -/
theorem publishing_stays_apart (u : Setup) (r : Record k) (q : Record l)
    (hr : r.definition.validate = .ok ()) (hq : q.definition.validate = .ok ())
    (hne : (k, r.name) ≠ (l, q.name)) :
    (∀ f ∈ files u.config k r.name, ∀ g ∈ files u.config l q.name,
      f.render ≠ g.render ∧ Apart f g) ∧
    (∀ f ∈ files u.config k r.name,
      LiesIn f (recordsDirectory u.config k) ∨ LiesIn f (buildDirectory u.config k)) ∧
    (∀ g ∈ files u.config l q.name,
      LiesIn g (recordsDirectory u.config l) ∨ LiesIn g (buildDirectory u.config l)) ∧
    (u.compiler.WritesOnly (contractJob u.config k r.name) → ∀ s,
      (∀ g ∈ files u.config l q.name, ∀ e,
        (final (publish u r s)).disk.look g = .ok e ↔ s.disk.look g = .ok e) ∧
      ((final (publish u r s)).registry.table l).buckets[q.name]? =
        (s.registry.table l).buckets[q.name]? ∧
      (final (publish u r s)).registry.newestAddress? l q.name =
        s.registry.newestAddress? l q.name ∧
      ∀ o, q.name ∈ (final (publish u r s)).registry.ownedBy l o ↔
        q.name ∈ s.registry.ownedBy l o) := by
  have hrname : Path.Segment r.name := segment_of_validate hr
  have hqname : Path.Segment q.name := segment_of_validate hq
  refine ⟨fun f hf g hg => ⟨render_ne_of_mem_files hrname hqname hf hg hne,
    apart_of_mem_files hf hg hne⟩, fun f hf => liesIn_of_mem_files hrname hf,
    fun g hg => liesIn_of_mem_files hqname hg, fun hc s => ?_⟩
  have hkept := keepsTo_publish hrname.ne_empty hc s
  have hunder := hkept.registry l q.name hne
  refine ⟨fun g hg => hkept.disk g fun f hf => apart_of_mem_files hf hg hne, hunder.bucket,
    hunder.newestAddress?, fun o => ?_⟩
  rw [Registry.ownedBy, Registry.ownedBy, Std.TreeSet.mem_toList, Std.TreeSet.mem_toList]
  exact hunder.owned o

/-! ## Two conditions -/

def never : Record .condition := ⟨⟨"never", "return false;"⟩, Registry.always.owner⟩

/-- A site at which one condition is registered. -/
def shared : Site := { workshop with registry := .run [.add .condition ⟨1, 0, 0⟩ never] }

theorem writer_writesOnly (text : String) (code : Option Nat) :
    (writer text code).compiler.WritesOnly (contractJob bench .condition "always") := by
  intro p hp
  rw [products_contractJob (by decide)] at hp
  exact (Compiler.writing_leaves (hp _ List.mem_cons_self) text code).on _

theorem publishing_stays_apart_never :
    (binaryFile bench .condition "always").render ≠ (binaryFile bench .condition "never").render ∧
    (final (publish (writer ownedText (some 0)) Registry.always shared)).registry.newestAddress?
      .condition "never" = some ⟨1, 0, 0⟩ := by
  obtain ⟨hfiles, -, -, hsites⟩ := publishing_stays_apart (writer ownedText (some 0))
    Registry.always never (by decide) (by decide) (by decide)
  obtain ⟨-, -, hnewest, -⟩ := hsites (writer_writesOnly _ _) shared
  refine ⟨(hfiles _ (List.mem_cons_of_mem _ List.mem_cons_self) _
    (List.mem_cons_of_mem _ List.mem_cons_self)).1, hnewest.trans ?_⟩
  decide +kernel

end Publishing

end ParticleChain
