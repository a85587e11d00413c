import ParticleChain.Proofs.Artifact.Arguments
import ParticleChain.Proofs.Artifact.Fragments
import ParticleChain.Proofs.Artifact.Validation

/-!
# Sources tell definitions

Two sources that are equal are read side by side, line by line. A line is written of names, which
are identifiers and so hold no mark of the template, and of numbers, which end where no digit
follows (`telling_opening`, `Feature.telling_applicationLine`, `Particle.telling_listFunction`). So
nothing that is written can be taken for another part of the contract, and the sources are of the
same definitions, as far as these show in a contract at all (`sources_tell_definitions`).
-/

namespace ParticleChain.Artifact

variable {α : Type} {fit : α → Prop} {write : α → String} {x y : α} {a b c : String}
variable {l m : List String}

/-! ## Lines and names -/

theorem lines_cons_cons (a b : String) (l : List String) :
    lines (a :: b :: l) = a ++ ("\n" ++ lines (b :: l)) := by
  rw [lines, String.intercalate_cons_cons, String.append_assoc, lines]

theorem lines_cancel (h : lines (a :: b :: l) = lines (a :: c :: m)) :
    lines (b :: l) = lines (c :: m) := by
  rw [lines_cons_cons, lines_cons_cons] at h
  exact (String.append_right_inj _).1 ((String.append_right_inj _).1 h)

/-- A line that tells what it was written of, and the lines that follow. -/
theorem Telling.line (hw : Telling fit write) (hx : fit x) (hy : fit y)
    (h : lines (write x :: b :: l) = lines (write y :: c :: m)) :
    x = y ∧ lines (b :: l) = lines (c :: m) := by
  rw [lines_cons_cons, lines_cons_cons] at h
  obtain ⟨rfl, hrest⟩ := hw hx hy h
  exact ⟨rfl, (String.append_right_inj _).1 hrest⟩

theorem telling_quotedName : Telling (fun name => '"' ∉ name.toList) quotedName := by
  intro name other hname hother r s h
  rw [quotedName, quotedName] at h
  simp only [String.append_assoc] at h
  exact eq_of_mark '"' rfl hname hother ((String.append_right_inj _).1 h)

theorem telling_opening (base : String) :
    Telling (isIdentifier · = true) (opening · base) := by
  intro name other hname hother r s h
  simp only [opening, toString, String.append_assoc] at h
  obtain ⟨rfl, hrest⟩ := eq_of_mark ' ' rfl (not_mem_identifier hname rfl rfl)
    (not_mem_identifier hother rfl rfl) ((String.append_right_inj _).1 h)
  exact ⟨rfl, (String.append_right_inj _).1 ((String.append_right_inj _).1 hrest)⟩

/-- A constructor up to the arguments that come after the name. -/
def constructorFront (base name : String) : String :=
  "constructor(address registryAddr) " ++ base ++ "(" ++ "registryAddr" ++ ", " ++ quotedName name
    ++ ", "

theorem constructor_append (base name a r : String) (l : List String) :
    constructor base name (a :: l) ++ r =
      constructorFront base name ++ (", ".intercalate (a :: l) ++ (")" ++ (" \x7b" ++ r))) := by
  unfold constructor call constructorFront
  simp only [String.intercalate_cons_cons, String.append_assoc]

theorem telling_countConstructor (base name : String) :
    Telling (fun _ : Nat => True) (fun n => constructor base name [toString n]) := by
  intro n k _ _ r s h
  rw [constructor_append, constructor_append] at h
  simp only [String.intercalate_singleton, toString] at h
  obtain ⟨rfl, hrest⟩ := nat_of_mark ')' rfl rfl ((String.append_right_inj _).1 h)
  exact ⟨rfl, (String.append_right_inj _).1 hrest⟩

/-! ## Snippets -/

/-- The contract around a body. The two kinds have a file to import, a base and a function of their
own. -/
def wrap (pragma file base head name body : String) (count : UInt32) : String :=
  lines [
    license,
    pragma,
    file,
    opening name base,
    constructor base name [toString count.toNat] ++ "\x7d",
    head,
    argumentCheck,
    body,
    "\x7d",
    "\x7d"]

theorem Transformation.source_eq (t : Transformation) : t.source = (argsCount t.body maxIndex).map
    (wrap "pragma solidity ^0.8.0;" "import \"transformation/TransformationBase.sol\";"
      "TransformationBase"
      "function run(uint32 x, uint32 [] calldata args) view external returns (uint32)\x7b"
      t.name t.body) := by
  unfold source
  cases argsCount t.body maxIndex with
  | error e => rfl
  | ok count => rfl

theorem Condition.source_eq (t : Condition) : t.source = (argsCount t.body maxIndex).map
    (wrap pragmaRange "import \"condition/ConditionBase.sol\";" "ConditionBase"
      "function check(int32 [] calldata args) view external returns (bool)\x7b" t.name t.body) := by
  unfold source
  cases argsCount t.body maxIndex with
  | error e => rfl
  | ok count => rfl

/-- The name ends at a blank, the count at a bracket; the body is what is left. -/
theorem wrap_inj {pragma file base head name other body rest : String} {n k : UInt32}
    (hname : isIdentifier name = true) (hother : isIdentifier other = true)
    (h : wrap pragma file base head name body n = wrap pragma file base head other rest k) :
    name = other ∧ body = rest := by
  replace h := lines_cancel (lines_cancel (lines_cancel h))
  obtain ⟨rfl, h⟩ := (telling_opening base).line hname hother h
  obtain ⟨-, h⟩ := ((telling_countConstructor base name).append "\x7d").line trivial trivial h
  replace h := lines_cancel (lines_cancel h)
  rw [lines_cons_cons body, lines_cons_cons rest] at h
  exact ⟨rfl, (String.append_left_inj _).1 h⟩

theorem wrapped_inj {pragma file base head name other body rest text : String} {limit : Nat}
    (hname : isIdentifier name = true) (hother : isIdentifier other = true)
    (h : (argsCount body limit).map (wrap pragma file base head name body) = .ok text)
    (h' : (argsCount rest limit).map (wrap pragma file base head other rest) = .ok text) :
    name = other ∧ body = rest := by
  obtain ⟨n, -, rfl⟩ := Abi.map_eq_ok.1 h
  obtain ⟨k, -, h'⟩ := Abi.map_eq_ok.1 h'
  exact wrap_inj hname hother h'.symm

/-! ## Features -/

theorem telling_uint32 : Telling (fun _ : UInt32 => True) fun n => s!"uint32({n.toNat})" := by
  intro n k _ _ r s h
  simp only [toString, String.append_assoc] at h
  obtain ⟨hnk, hrs⟩ := nat_of_mark ')' rfl rfl ((String.append_right_inj _).1 h)
  exact ⟨UInt32.toNat_inj.1 hnk, hrs⟩

namespace Feature

/-- The end of the line for a transformation, from its name on. -/
def argsEnd : List UInt32 → String
  | [] => ")" ++ ";\n"
  | n :: args =>
    ", " ++ ("[" ++ (", ".intercalate ((n :: args).map fun n => s!"uint32({n.toNat})") ++
      ("]" ++ (")" ++ ";\n"))))

theorem applicationLine_append (i : Nat) (a : Application) (r : String) :
    applicationLine i a ++ r = "getCallDef().push" ++ ("(" ++ (i.repr ++ (", " ++
      (quotedName a.transformation ++ (argsEnd a.args ++ r))))) := by
  obtain ⟨name, _ | ⟨n, args⟩⟩ := a
  · unfold applicationLine call argsEnd
    simp only [List.isEmpty_nil, if_true, String.intercalate_cons_cons,
      String.intercalate_singleton, String.append_assoc, toString]
  · unfold applicationLine call argsEnd
    simp only [List.isEmpty_cons, Bool.false_eq_true, if_false, String.intercalate_cons_cons,
      String.intercalate_singleton, String.append_assoc, toString]

/-- What follows the name tells whether there are arguments by its first character. -/
theorem telling_argsEnd : Telling (fun _ => True) argsEnd := by
  rintro (_ | ⟨n, args⟩) (_ | ⟨k, others⟩) - - r s h
  · exact ⟨rfl, (String.append_right_inj _).1 h⟩
  · simp only [argsEnd, String.append_assoc] at h
    exact absurd h (append_ne (c := ')') (d := ',') rfl rfl (by decide))
  · simp only [argsEnd, String.append_assoc] at h
    exact absurd h (append_ne (c := ',') (d := ')') rfl rfl (by decide))
  · simp only [argsEnd, String.append_assoc] at h
    replace h := (String.append_right_inj _).1 ((String.append_right_inj _).1 h)
    have hstop : ∀ r s, ", " ++ r ≠ "]" ++ s := fun r s =>
      append_ne (c := ',') (d := ']') rfl rfl (by decide)
    obtain ⟨hargs, hrest⟩ := intercalate_of_stop telling_uint32 hstop
      (fun _ _ => trivial) (fun _ _ => trivial) h
    exact ⟨hargs, (String.append_right_inj _).1 ((String.append_right_inj _).1 hrest)⟩

theorem telling_applicationLine :
    Telling (fun p : Nat × Application => isIdentifier p.2.transformation = true)
      fun p => applicationLine p.1 p.2 := by
  rintro ⟨i, name, args⟩ ⟨j, other, others⟩ hname hother r s h
  rw [applicationLine_append, applicationLine_append] at h
  replace h := (String.append_right_inj _).1 ((String.append_right_inj _).1 h)
  obtain ⟨rfl, h1⟩ := nat_of_mark ',' rfl rfl h
  obtain ⟨rfl, h2⟩ := telling_quotedName (not_mem_identifier hname rfl rfl)
    (not_mem_identifier hother rfl rfl) h1
  obtain ⟨rfl, h3⟩ := telling_argsEnd trivial trivial h2
  exact ⟨rfl, h3⟩

/-- The transformations along each of some axes, with the number of the axis. -/
def indexed (dimensions : List Dimension) (k : Nat) : List (Nat × Application) :=
  (dimensions.zipIdx k).flatMap fun (d, i) => d.applications.map (i, ·)

theorem indexed_cons (d : Dimension) (dimensions : List Dimension) (k : Nat) :
    indexed (d :: dimensions) k = d.applications.map (k, ·) ++ indexed dimensions (k + 1) := by
  rw [indexed, List.zipIdx_cons, List.flatMap_cons, indexed]

theorem le_of_mem_indexed {dimensions : List Dimension} {k : Nat} {p : Nat × Application}
    (h : p ∈ indexed dimensions k) : k ≤ p.1 := by
  obtain ⟨⟨d, i⟩, hd, hp⟩ := List.mem_flatMap.1 h
  obtain ⟨a, -, rfl⟩ := List.mem_map.1 hp
  exact List.le_snd_of_mem_zipIdx hd

/-- The number tells the first axis from those that follow. -/
theorem filter_indexed (d : Dimension) (dimensions : List Dimension) (k : Nat) :
    (indexed (d :: dimensions) k).filter (·.1 == k) = d.applications.map (k, ·) := by
  have hfirst : ∀ p ∈ d.applications.map (k, ·), (p.1 == k) = true := by simp
  have hothers : ∀ p ∈ indexed dimensions (k + 1), ¬ (p.1 == k) = true := by
    intro p hp he
    have hle := le_of_mem_indexed hp
    rw [beq_iff_eq.1 he] at hle
    omega
  rw [indexed_cons, List.filter_append, List.filter_eq_self.2 hfirst,
    List.filter_eq_nil_iff.2 hothers, List.append_nil]

/-- As many axes with the same transformations are the same axes. -/
theorem indexed_inj {l m : List Dimension} {k : Nat} (hlen : l.length = m.length)
    (h : indexed l k = indexed m k) : l = m := by
  induction l generalizing m k with
  | nil => exact (List.length_eq_zero_iff.1 hlen.symm).symm
  | cons d l ih =>
    cases m with
    | nil => cases hlen
    | cons e m =>
      have hfirst : d.applications.map (k, ·) = e.applications.map (k, ·) := by
        rw [← filter_indexed d l, h, filter_indexed]
      have happlications : d.applications = e.applications :=
        List.map_injective_iff.2 (Prod.mk_right_injective k) hfirst
      have hde : d = e := congrArg Dimension.mk happlications
      rw [indexed_cons, indexed_cons, hfirst] at h
      rw [hde, ih (Nat.succ.inj hlen) (List.append_cancel_left h)]

theorem applicationLines_eq (f : Feature) : f.applicationLines =
    String.join ((indexed f.dimensions 0).map fun p => applicationLine p.1 p.2) := by
  rw [applicationLines, indexed, List.map_flatMap]
  simp only [List.map_map]
  rfl

theorem isIdentifier_of_mem_indexed {f : Feature} {p : Nat × Application}
    (h : Definition.validate (k := .feature) f = .ok ()) (hp : p ∈ indexed f.dimensions 0) :
    isIdentifier p.2.transformation = true := by
  obtain ⟨⟨d, i⟩, hd, hp⟩ := List.mem_flatMap.1 hp
  obtain ⟨a, ha, rfl⟩ := List.mem_map.1 hp
  exact validate_feature h _
    (List.mem_flatMap.2 ⟨d, List.fst_mem_of_mem_zipIdx hd, List.mem_map_of_mem ha⟩)

/-- The number of axes is told, so those with no transformation are not lost. -/
theorem source_inj {f g : Feature} (hf : Definition.validate (k := .feature) f = .ok ())
    (hg : Definition.validate (k := .feature) g = .ok ()) (h : f.source = g.source) : f = g := by
  have hstop : ∀ (p : Nat × Application) r s,
      applicationLine p.1 p.2 ++ r ≠ "super.init();" ++ s := by
    intro p r s
    rw [applicationLine_append]
    exact append_ne (c := 'g') (d := 's') rfl rfl (by decide)
  replace h := lines_cancel (lines_cancel (lines_cancel h))
  obtain ⟨hname, h1⟩ :=
    (telling_opening _).line (isIdentifier_of_validate hf) (isIdentifier_of_validate hg) h
  rw [show f.name = g.name from hname] at h1
  obtain ⟨hlen, h2⟩ := (telling_countConstructor _ _).line trivial trivial h1
  rw [lines_cons_cons, lines_cons_cons (g.applicationLines ++ _), applicationLines_eq,
    applicationLines_eq, String.append_assoc, String.append_assoc] at h2
  obtain ⟨hindexed, -⟩ := join_of_stop telling_applicationLine hstop
    (fun _ => isIdentifier_of_mem_indexed hf) (fun _ => isIdentifier_of_mem_indexed hg) h2
  show (⟨f.name, f.dimensions⟩ : Feature) = ⟨g.name, g.dimensions⟩
  rw [show f.name = g.name from hname, indexed_inj hlen hindexed]

end Feature

/-! ## Particles -/

theorem injective_quotedName : Function.Injective quotedName := fun _ _ h =>
  (String.append_right_inj _).1 ((String.append_left_inj _).1 h)

namespace Particle

/-- The function that returns a list, up to the length of the list. -/
def listFront (type list : String) : String :=
  "function _" ++ list ++ "() internal pure returns (" ++ type ++ "[] memory " ++ list ++ ") \x7b"
    ++ list ++ " = new " ++ type ++ "[]("

/-- The assignment of one element. -/
def assignment (list : String) (p : String × Nat) : String := s!"{list}[{p.2}] = {p.1};\n"

theorem listFunction_append (type list r : String) (elements : List String) :
    listFunction type list elements ++ r = listFront type list ++ (elements.length.repr ++
      (");" ++ (String.join (elements.zipIdx.map (assignment list)) ++ ("\x7d" ++ r)))) := by
  unfold listFunction listFront assignment
  simp only [toString, String.append_assoc]

theorem telling_assignment (list : String) :
    Telling (fun p : String × Nat => ';' ∉ p.1.toList) (assignment list) := by
  rintro ⟨e, i⟩ ⟨e', j⟩ he he' r s h
  simp only [assignment, toString, String.append_assoc] at h
  replace h := (String.append_right_inj _).1 ((String.append_right_inj _).1 h)
  obtain ⟨rfl, h1⟩ := nat_of_mark ']' rfl rfl h
  obtain ⟨rfl, h2⟩ := eq_of_mark ';' rfl he he' h1
  exact ⟨rfl, h2⟩

theorem telling_listFunction {type list : String} {c : Char} (hlist : list.toList.head? = some c)
    (hc : c ≠ '\x7d') : Telling (∀ e ∈ ·, ';' ∉ e.toList) (listFunction type list) := by
  intro l m hl hm r s h
  rw [listFunction_append, listFunction_append] at h
  obtain ⟨-, h1⟩ := nat_of_mark ')' rfl rfl ((String.append_right_inj _).1 h)
  have hstop : ∀ p r s, assignment list p ++ r ≠ "\x7d" ++ s := by
    intro p r s
    simp only [assignment, toString, String.append_assoc]
    exact append_ne hlist rfl hc
  obtain ⟨hzip, hrest⟩ := join_of_stop (telling_assignment list) hstop
    (fun p hp => hl _ (List.fst_mem_of_mem_zipIdx hp))
    (fun p hp => hm _ (List.fst_mem_of_mem_zipIdx hp)) h1
  refine ⟨?_, hrest⟩
  rw [← List.zipIdx_map_fst 0 l, hzip, List.zipIdx_map_fst]

theorem telling_namesConstructor (name : String) :
    Telling (fun p : String × String => '"' ∉ p.1.toList ∧ '"' ∉ p.2.toList) fun p =>
      constructor "ParticleBase" name [quotedName p.1, "_compositeDimIds()", "_compositeNames()",
        quotedName p.2, "_conditionArgs()"] := by
  rintro ⟨feature, condition⟩ ⟨feature', condition'⟩ ⟨hf, hc⟩ ⟨hf', hc'⟩ r s h
  rw [constructor_append, constructor_append] at h
  simp only [String.intercalate_cons_cons, String.intercalate_singleton,
    String.append_assoc] at h
  obtain ⟨rfl, h1⟩ := telling_quotedName hf hf' ((String.append_right_inj _).1 h)
  -- Nothing else but the second name is open.
  iterate 5 replace h1 := (String.append_right_inj _).1 h1
  obtain ⟨rfl, h2⟩ := telling_quotedName hc hc' h1
  iterate 4 replace h2 := (String.append_right_inj _).1 h2
  exact ⟨rfl, h2⟩

theorem telling_conditionArg : Telling (fun _ : Int32 => True) fun n => s!"int32({n.toInt})" := by
  intro n k _ _ r s h
  simp only [toString, String.append_assoc] at h
  obtain ⟨hnk, hrs⟩ := eq_of_mark ')' rfl (not_mem_reprInt _ rfl (by decide))
    (not_mem_reprInt _ rfl (by decide)) ((String.append_right_inj _).1 h)
  exact ⟨Int32.toInt_inj.1 (Int.repr_inj.1 hnk), hrs⟩

/-- No element of the three lists ends an assignment. -/
theorem no_semicolon (p : Particle) (h : Definition.validate (k := .particle) p = .ok ()) :
    (∀ e ∈ p.composites.map (fun (i, _) => s!"uint32({i.toNat})"), ';' ∉ e.toList) ∧
    (∀ e ∈ p.composites.map (fun (_, name) => quotedName name), ';' ∉ e.toList) ∧
    ∀ e ∈ p.conditionArgs.map (fun n => s!"int32({n.toInt})"), ';' ∉ e.toList := by
  refine ⟨fun e he => ?_, fun e he => ?_, fun e he => ?_⟩
  · obtain ⟨⟨i, name⟩, -, rfl⟩ := List.mem_map.1 he
    exact not_mem_append.2 ⟨not_mem_append.2 ⟨by decide, not_mem_repr i.toNat rfl⟩, by decide⟩
  · obtain ⟨⟨i, name⟩, hc, rfl⟩ := List.mem_map.1 he
    have hname : name ∈ p.references := p.composites_map_snd ▸ List.mem_map_of_mem hc
    have hname := not_mem_identifier (c := ';') ((validate_particle h).2.2 name hname) rfl rfl
    exact not_mem_append.2 ⟨not_mem_append.2 ⟨by decide, hname⟩, by decide⟩
  · obtain ⟨n, -, rfl⟩ := List.mem_map.1 he
    exact not_mem_append.2
      ⟨not_mem_append.2 ⟨by decide, not_mem_reprInt _ rfl (by decide)⟩, by decide⟩

/-- Two particles that differ at most in how many dimensions there are after the last that is left
to another. -/
def Alike (p q : Particle) : Prop :=
  p.name = q.name ∧ p.feature = q.feature ∧ p.condition = q.condition ∧
    p.conditionArgs = q.conditionArgs ∧ p.composites = q.composites

theorem source_congr {p q : Particle} (h : p.Alike q) : p.source = q.source := by
  obtain ⟨hname, hfeature, hcondition, hargs, hcomposites⟩ := h
  unfold source
  rw [hname, hfeature, hcondition, hargs, hcomposites]

theorem composites_inj {l m : List (UInt32 × String)}
    (hdims : l.map (fun (i, _) => s!"uint32({i.toNat})") =
      m.map (fun (i, _) => s!"uint32({i.toNat})"))
    (hnames : l.map (fun (_, name) => quotedName name) = m.map (fun (_, name) => quotedName name)) :
    l = m := by
  have huint32 : Function.Injective fun i : UInt32 => s!"uint32({i.toNat})" :=
    fun _ _ => telling_uint32.eq_of_eq trivial trivial
  have hfst : l.map Prod.fst = m.map Prod.fst := by
    refine List.map_injective_iff.2 huint32 ?_
    rw [List.map_map, List.map_map]
    exact hdims
  have hsnd : l.map Prod.snd = m.map Prod.snd := by
    refine List.map_injective_iff.2 injective_quotedName ?_
    rw [List.map_map, List.map_map]
    exact hnames
  rw [← List.zip_unzip l, ← List.zip_unzip m, List.unzip_eq_map, List.unzip_eq_map, hfst, hsnd]

theorem alike_of_source {p q : Particle} (hp : Definition.validate (k := .particle) p = .ok ())
    (hq : Definition.validate (k := .particle) q = .ok ()) (h : p.source = q.source) :
    p.Alike q := by
  have hquote : ∀ {name}, name = "" ∨ isIdentifier name = true → '"' ∉ name.toList := by
    rintro name (rfl | h)
    · decide
    · exact not_mem_identifier h rfl rfl
  obtain ⟨hfeature, hcondition, -⟩ := validate_particle hp
  obtain ⟨hfeature', hcondition', -⟩ := validate_particle hq
  obtain ⟨hdims, hnames, hargs⟩ := p.no_semicolon hp
  obtain ⟨hdims', hnames', hargs'⟩ := q.no_semicolon hq
  replace h := lines_cancel (lines_cancel (lines_cancel h))
  obtain ⟨hname, h1⟩ :=
    (telling_opening _).line (isIdentifier_of_validate hp) (isIdentifier_of_validate hq) h
  obtain ⟨hd, h2⟩ := (telling_listFunction (c := 'c') rfl (by decide)).line hdims hdims' h1
  obtain ⟨hn, h3⟩ := (telling_listFunction (c := 'c') rfl (by decide)).line hnames hnames' h2
  obtain ⟨ha, h4⟩ := (telling_listFunction (c := 'c') rfl (by decide)).line hargs hargs' h3
  rw [show p.name = q.name from hname] at h4
  obtain ⟨hpair, -⟩ := ((telling_namesConstructor q.name).append "\x7d").line
    (x := (p.feature, p.condition)) (y := (q.feature, q.condition))
    ⟨hquote (.inr hfeature), hquote hcondition⟩ ⟨hquote (.inr hfeature'), hquote hcondition'⟩ h4
  obtain ⟨hfeatures, hconditions⟩ := Prod.mk.inj hpair
  have hconditionArgs : p.conditionArgs = q.conditionArgs :=
    List.map_injective_iff.2 (fun _ _ => telling_conditionArg.eq_of_eq trivial trivial) ha
  exact ⟨hname, hfeatures, hconditions, hconditionArgs, composites_inj hd hn⟩

end Particle

/-! ## Definitions -/

namespace Definition

variable {k : Kind} {d e : Definition k} {text text' : String}

/-- No index in a body is too high for its kind. -/
def InRange : {k : Kind} → Definition k → Prop
  | .transformation, d => ∀ n ∈ indices (Transformation.body d), n ≤ Transformation.maxIndex
  | .condition, d => ∀ n ∈ indices (Condition.body d), n ≤ Condition.maxIndex
  | .feature, _ => True
  | .particle, _ => True

/-- What shows in a contract is the same. -/
def Alike : {k : Kind} → Definition k → Definition k → Prop
  | .transformation, d, e => Transformation.name d = Transformation.name e ∧
      Transformation.body d = Transformation.body e
  | .condition, d, e => Condition.name d = Condition.name e ∧ Condition.body d = Condition.body e
  | .feature, d, e => Feature.name d = Feature.name e ∧ Feature.dimensions d = Feature.dimensions e
  | .particle, d, e => Particle.Alike d e

theorem exists_source (h : d.InRange) : ∃ text, d.source = .ok text := by
  cases k with
  | transformation =>
    obtain ⟨count, hcount⟩ := (argsCount_ok_iff (by decide)).2 h
    exact ⟨_, by rw [source, Transformation.source_eq, hcount]; rfl⟩
  | condition =>
    obtain ⟨count, hcount⟩ := (argsCount_ok_iff (by decide)).2 h
    exact ⟨_, by rw [source, Condition.source_eq, hcount]; rfl⟩
  | feature => exact ⟨_, rfl⟩
  | particle => exact ⟨_, rfl⟩

theorem alike_of_source (hd : d.validate = .ok ()) (he : e.validate = .ok ())
    (h : d.source = .ok text) (h' : e.source = .ok text) : d.Alike e := by
  cases k with
  | transformation =>
    rw [source, Transformation.source_eq] at h h'
    exact wrapped_inj (isIdentifier_of_validate hd) (isIdentifier_of_validate he) h h'
  | condition =>
    rw [source, Condition.source_eq] at h h'
    exact wrapped_inj (isIdentifier_of_validate hd) (isIdentifier_of_validate he) h h'
  | feature =>
    obtain rfl := Feature.source_inj hd he (Except.ok.inj (h.trans h'.symm))
    exact ⟨rfl, rfl⟩
  | particle => exact Particle.alike_of_source hd he (Except.ok.inj (h.trans h'.symm))

theorem source_congr (h : d.Alike e) : d.source = e.source := by
  cases k with
  | transformation =>
    obtain ⟨hname, hbody⟩ := h
    rw [source, source, Transformation.source_eq, Transformation.source_eq, hname, hbody]
  | condition =>
    obtain ⟨hname, hbody⟩ := h
    rw [source, source, Condition.source_eq, Condition.source_eq, hname, hbody]
  | feature =>
    obtain ⟨hname, hdimensions⟩ := h
    rw [source, source, Feature.source, Feature.source, Feature.applicationLines,
      Feature.applicationLines, hname, hdimensions]
  | particle => exact congrArg Except.ok (Particle.source_congr h)

end Definition

/-- A valid definition has a source, if the indices in its body are in range, and two of one kind
have the same source just if they are alike: a body under its name, a feature with all its
dimensions and what is applied along each, a particle with its feature, its condition and the
arguments of that, and the dimensions it leaves to others. -/
theorem sources_tell_definitions {k : Kind} (r r' : Record k) (hr : r.definition.validate = .ok ())
    (hr' : r'.definition.validate = .ok ()) (hi : r.definition.InRange)
    (hi' : r'.definition.InRange) : ∃ text text', r.definition.source = .ok text ∧
      r'.definition.source = .ok text' ∧ (text = text' ↔ r.definition.Alike r'.definition) := by
  obtain ⟨text, h⟩ := Definition.exists_source hi
  obtain ⟨text', h'⟩ := Definition.exists_source hi'
  refine ⟨text, text', h, h', ?_, fun halike => ?_⟩
  · rintro rfl
    exact Definition.alike_of_source hr hr' h h'
  · rw [Definition.source_congr halike, h'] at h
    exact (Except.ok.inj h).symm

/-- A last dimension that is left to no particle makes no difference, and a zero in a body one. -/
theorem sources_tell_definitions_longer :
    let p : Record .particle := ⟨⟨"P", "Wave", ["", "Inner"], "", [-3]⟩, ""⟩
    let q : Record .particle := ⟨⟨"P", "Wave", ["", "Inner", ""], "", [-3]⟩, ""⟩
    let t : Record .transformation := ⟨⟨"Add", "return x + args[0];"⟩, ""⟩
    let u : Record .transformation := ⟨⟨"Add", "return x + args[00];"⟩, ""⟩
    (∃ text, p.definition.source = .ok text ∧ q.definition.source = .ok text) ∧
    ∃ text text', t.definition.source = .ok text ∧ u.definition.source = .ok text' ∧
      text ≠ text' := by
  intro p q t u
  have ht : t.definition.InRange := (argsCount_ok_iff (by decide)).1 ⟨1, by decide⟩
  have hu : u.definition.InRange := (argsCount_ok_iff (by decide)).1 ⟨1, by decide⟩
  constructor
  · obtain ⟨text, text', h, h', htexts⟩ := sources_tell_definitions p q (by decide)
      (by decide) trivial trivial
    obtain rfl : text = text' := htexts.2 ⟨rfl, rfl, rfl, rfl, rfl⟩
    exact ⟨text, h, h'⟩
  · obtain ⟨text, text', h, h', htexts⟩ := sources_tell_definitions t u (by decide)
      (by decide) ht hu
    refine ⟨text, text', h, h', fun he => ?_⟩
    exact absurd (htexts.1 he).2 (by decide)

end ParticleChain.Artifact
