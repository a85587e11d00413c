import ParticleChain.Proofs.Publishing.Agreement

/-!
# Records are loaded as they were saved

A record file is found by its name: `name ++ ".json"` is the one name with this extension and the
stem `name` (`Path.eq_stem_append`), and a directory lists each name once. So the record that was
saved last under a name is the one that is loaded under it, whatever else is in the directory, and
no two records have the same text (`records_round_trip`).
-/

namespace ParticleChain

/-! ## Names with an extension -/

namespace Path

/-- A name with an extension is its stem, a dot and the extension. -/
theorem eq_stem_append {name extension : String} (h : extension? name = some extension) :
    name = stem name ++ "." ++ extension := by
  unfold extension? at h
  unfold stem
  rcases hs : name.toList.reverse.span (· != '.') with ⟨front, rest⟩
  rw [hs] at h
  split at h
  · rename_i c rest' he
    cases he
    cases h
    rw [List.span_eq_takeWhile_dropWhile] at hs
    obtain ⟨hfront, hrest⟩ := Prod.mk.inj hs
    have hname := List.takeWhile_append_dropWhile (p := (· != '.')) (l := name.toList.reverse)
    rw [hfront, hrest] at hname
    have hlist : name.toList = (front ++ '.' :: c :: rest').reverse := by
      rw [hname, List.reverse_reverse]
    refine String.toList_inj.1 ?_
    simp [hlist]
  · cases h

theorem extension?_json {name : String} (h : name ≠ "") :
    extension? (name ++ ".json") = some "json" ∧ stem (name ++ ".json") = name := by
  rw [show ".json" = "." ++ "json" from rfl, ← String.append_assoc]
  exact stem_append h (by decide)

end Path

/-! ## Directories -/

namespace Disk

variable {d : Disk} {q : Place} {name : String} {e : Entry}

/-- A place is listed under its last name in the directory that the other names lead to. -/
theorem listed_iff {place : Place} {e' : Entry} :
    (match place.getLast? with
      | some name => if place.dropLast = q then some (name, e) else none
      | none => none) = some (name, e') ↔ place = q ++ [name] ∧ e = e' := by
  cases hlast : place.getLast? with
  | none => simp [List.getLast?_eq_none_iff.1 hlast]
  | some n =>
    have hplace := List.dropLast_append_getLast? n hlast
    rw [← hplace]
    simp [and_assoc]

/-- A directory lists what is directly below it. -/
theorem mem_below : (name, e) ∈ d.below q ↔ d.entry? (q ++ [name]) = some e := by
  have hentry : d.entry? (q ++ [name]) = d.entries[q ++ [name]]? := if_neg (by simp)
  rw [hentry, below, List.mem_filterMap]
  constructor
  · rintro ⟨⟨place, e'⟩, hmem, h⟩
    obtain ⟨rfl, rfl⟩ := listed_iff.1 h
    exact Std.TreeMap.mem_toList_iff_getElem?_eq_some.1 hmem
  · intro hget
    exact ⟨_, Std.TreeMap.mem_toList_iff_getElem?_eq_some.2 hget, listed_iff.2 ⟨rfl, rfl⟩⟩

/-- A directory lists each name once. -/
theorem pairwise_below (d : Disk) (q : Place) : (d.below q).Pairwise fun x y => x.1 ≠ y.1 := by
  rw [below, List.pairwise_filterMap]
  refine Std.TreeMap.distinct_keys_toList.imp fun {x y} hne a ha b hb he => hne ?_
  rw [Std.compare_eq_iff_eq, (listed_iff.1 ha).1, (listed_iff.1 hb).1, he]

/-- The way to a name leads through the directory above it. -/
theorem find_child {p : Path} {x : Place} (hp : p.names ≠ []) (hn : IsName name)
    (hq : d.find p = .ok q) (hx : d.find (p / name) = .ok x) :
    d.entry? q = some .directory ∧ x = q ++ [name] := by
  unfold find at hq hx
  split at hq
  · cases hq
  · split at hx
    · cases hx
    · have hsteps : (p / name).steps = p.steps ++ [name] := by
        rw [Path.steps_eq (.inl (List.append_ne_nil_of_right_ne_nil _ (List.cons_ne_nil _ _))),
          Path.steps_eq (.inl hp)]
        exact (List.append_assoc _ _ _).symm
      rw [hsteps] at hx
      obtain ⟨y, hy, hx⟩ := walk_append.1 hx
      obtain rfl := Except.ok.inj (hy.symm.trans hq)
      exact ⟨(walk_cons_eq_ok.1 hx).1, walk_names (List.forall_mem_singleton.2 hn) hx⟩

theorem list_of_find {p : Path} (h : d.find p = .ok q) (hq : d.entry? q = some .directory) :
    d.list p = .ok (d.below q) := by
  unfold list
  rw [h]
  simp only [bind, Except.bind, hq]
  rfl

end Disk

namespace Publishing

open Artifact (Kind Record isIdentifier)

variable {c : Config} {k : Kind} {r : Record k} {d d' : Disk} {name : String}

/-! ## Loading -/

/-- After a record is saved its directory can be listed, and its file is there. -/
theorem list_of_saveRecord (h : saveRecord c r d = .ok d') :
    ∃ q, d'.list (recordsDirectory c k) = .ok (d'.below q) ∧
      (r.name ++ ".json", .file r.render.toUTF8) ∈ d'.below q := by
  obtain ⟨x, hx, hsame, hfile⟩ := Disk.write_eq_ok (write_of_saveRecord h)
  obtain ⟨q, hq⟩ : ∃ q, d.find (recordsDirectory c k) = .ok q := by
    unfold saveRecord at h
    dsimp only at h
    split at h
    · rename_i hhas
      obtain ⟨e, hlook⟩ := Disk.has_iff.1 hhas
      obtain ⟨q, hq, -⟩ := Disk.look_eq_ok.1 hlook
      exact ⟨q, hq⟩
    · cases h
  have hname := isName_append r.name ".json" (by decide)
  obtain ⟨hdirectory, rfl⟩ := Disk.find_child (List.cons_ne_nil _ _) hname hq hx
  have hentry := hsame.entry q (by simp)
  exact ⟨q, Disk.list_of_find (hsame.find_eq_ok.2 hq) (hentry.trans hdirectory),
    Disk.mem_below.2 hfile⟩

/-- A record is loaded under the name of its file without the extension. -/
theorem name_of_storedRecord? {stem : String} (h : storedRecord? c k d name = some (stem, r)) :
    name = stem ++ ".json" := by
  unfold storedRecord? at h
  split at h
  · rename_i hext
    split at h
    · obtain ⟨_, -, he⟩ := Option.map_eq_some_iff.1 h
      cases he
      have hname := Path.eq_stem_append hext
      rwa [String.append_assoc] at hname
    · cases h
  · cases h

/-- What is read from the file of a record is the record under its name. -/
theorem storedRecord?_of_readText (hn : r.name ≠ "")
    (h : d.readText (recordFile c k r.name) = .ok r.render) :
    storedRecord? c k d (r.name ++ ".json") = some (r.name, r) := by
  obtain ⟨hext, hstem⟩ := Path.extension?_json hn
  unfold storedRecord?
  rw [if_pos hext, show recordsDirectory c k / (r.name ++ ".json") = recordFile c k r.name from rfl,
    h, hstem]
  simp only [r.parse?_render, Option.map_some]

/-- A record that was saved is loaded under its name. -/
theorem storedRecords_of_saveRecord (hn : r.name ≠ "") (h : saveRecord c r d = .ok d') :
    ∃ records, storedRecords c k d' = .ok records ∧ records[r.name]? = some r := by
  obtain ⟨q, hlist, hmem⟩ := list_of_saveRecord h
  refine ⟨_, by rw [storedRecords, hlist]; rfl, ?_⟩
  refine Std.TreeMap.getElem?_ofList_of_mem Std.ReflCmp.compare_self ?distinct ?mem
  case distinct =>
    rw [List.pairwise_filterMap]
    refine (Disk.pairwise_below d' q).imp fun {x y} hne a ha b hb he => hne ?_
    rw [name_of_storedRecord? ha, name_of_storedRecord? hb, Std.LawfulEqCmp.eq_of_compare he]
  case mem =>
    have hread := Disk.readText_of_look (look_saveRecord h)
    exact List.mem_filterMap.2 ⟨_, hmem, storedRecord?_of_readText hn hread⟩

/-- A record is read back from its text, whatever texts, numbers and lists it is made of. So no two
records have the same text, be they of one kind or of two. It is this text that is saved, and after
that the record is loaded under its name. -/
theorem records_round_trip (c : Config) (k : Kind) (r : Record k) :
    Record.parse? r.render = some r ∧
    (∀ (l : Kind) (r' : Record l), r.render = r'.render → (⟨k, r⟩ : Sigma Record) = ⟨l, r'⟩) ∧
    ∀ d d', saveRecord c r d = .ok d' →
      d'.readText (recordFile c k r.name) = .ok r.render ∧
      (isIdentifier r.name = true →
        ∃ records, storedRecords c k d' = .ok records ∧ records[r.name]? = some r) := by
  refine ⟨r.parse?_render, fun l r' h => ?_, fun d d' hsave => ⟨?_, fun hn => ?_⟩⟩
  · obtain rfl := Record.kind_eq_of_render h
    have hr := r'.parse?_render
    rw [← h, r.parse?_render] at hr
    rw [Option.some.inj hr]
  · exact Disk.readText_of_look (look_saveRecord hsave)
  · refine storedRecords_of_saveRecord (fun he => ?_) hsave
    rw [he] at hn
    exact absurd hn (by decide)

/-- The condition is saved in a directory that is there. -/
theorem records_round_trip_always : ∃ d' records,
    saveRecord bench Registry.always workshop.disk = .ok d' ∧
    storedRecords bench .condition d' = .ok records ∧
    records["always"]? = some Registry.always := by
  have hfree : workshop.disk.entry? Furnished.record ≠ some .directory := by
    rw [workshop_record]
    exact nofun
  have hsave := furnished_workshop.saveRecord_open (r := Registry.always) rfl hfree rfl
  obtain ⟨-, -, hsaved⟩ := records_round_trip bench .condition Registry.always
  obtain ⟨records, hload, hget⟩ := (hsaved _ _ hsave).2 (by decide)
  exact ⟨_, records, hsave, hload, hget⟩

end Publishing

end ParticleChain
