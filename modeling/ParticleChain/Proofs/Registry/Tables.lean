import ParticleChain.Registry.Basic

/-!
# What a table has under a name

`t.Lists name es` says that the records `es`, with their addresses, are what the table has under
the name, in the order of their insertion: its bucket and its history follow from `es`. An
insertion appends to the list of its name, a removal filters it, and neither touches the list of
another name.
-/

namespace ParticleChain.Registry.Table

open Artifact (Kind Record)

variable {k : Kind} {t : Table k} {name n : String} {a b : Address} {r : Record k}

/-! ## Maps as lists -/

section

variable {α β : Type} {cmp : α → α → Ordering}

theorem values_eq_map (m : Std.TreeMap α β cmp) : m.values = m.toList.map Prod.snd := by
  rw [show m.values = m.foldr (fun _ x l => x :: l) [] from rfl, Std.TreeMap.foldr_eq_foldr_toList]
  induction m.toList with
  | nil => rfl
  | cons e l ih => simp [ih]

theorem mem_values [Std.TransCmp cmp] [Std.LawfulEqCmp cmp] {m : Std.TreeMap α β cmp} {x : β} :
    x ∈ m.values ↔ ∃ a : α, m[a]? = some x := by
  rw [values_eq_map, List.mem_map]
  constructor
  · rintro ⟨e, he, rfl⟩
    exact ⟨e.1, Std.TreeMap.mem_toList_iff_getElem?_eq_some.1 he⟩
  · rintro ⟨a, ha⟩
    exact ⟨(a, x), Std.TreeMap.mem_toList_iff_getElem?_eq_some.2 ha, rfl⟩

end

/-! ## Reading after an insertion or a removal -/

theorem get?_insert (t : Table k) (a owner : Address) (r : Record k) (name : String) (b : Address) :
    (t.insert a owner r).get? name b =
      if r.name = name ∧ a = b then some r else t.get? name b := by
  unfold get? bucket insert
  rw [Std.TreeMap.getD_insert]
  by_cases hn : r.name = name
  · subst hn
    by_cases ha : a = b
    · simp [ha]
    · simp [ha, Std.TreeMap.getElem?_insert, bucket]
  · simp [hn]

/-- A removal that finds nothing leaves the table as it is. -/
theorem remove_of_none (h : t.get? name a = none) : t.remove name a = t := by
  unfold remove
  rw [h]

/-- An entry that is replaced, or taken out if it would be empty. -/
theorem getElem?_prune {β : Type} (m : Std.TreeMap String β) (c : Bool) (x : β) (name n : String) :
    (if c then m.erase name else m.insert name x)[n]? =
      if name = n then if c then none else some x else m[n]? := by
  cases c <;> simp [Std.TreeMap.getElem?_insert, Std.TreeMap.getElem?_erase]

theorem buckets_remove (h : t.get? name a = some r) (n : String) :
    (t.remove name a).buckets[n]? =
      if name = n then
        if ((t.bucket name).erase a).isEmpty then none else some ((t.bucket name).erase a)
      else t.buckets[n]? := by
  unfold remove
  rw [h]
  exact getElem?_prune _ _ _ _ _

theorem histories_remove (h : t.get? name a = some r) (n : String) :
    (t.remove name a).histories[n]? =
      if name = n then
        if ((t.history name).filter (· != a)).isEmpty then none
        else some ((t.history name).filter (· != a))
      else t.histories[n]? := by
  unfold remove
  rw [h]
  exact getElem?_prune _ _ _ _ _

theorem bucket_eq (t : Table k) (name : String) : t.bucket name = t.buckets[name]?.getD ∅ :=
  Std.TreeMap.getD_eq_getD_getElem?

theorem history_eq (t : Table k) (name : String) : t.history name = t.histories[name]?.getD [] :=
  Std.TreeMap.getD_eq_getD_getElem?

theorem getElem?_erase {β : Type} (m : Std.TreeMap Address β) (a b : Address) :
    (m.erase a)[b]? = if a = b then none else m[b]? := by simp [Std.TreeMap.getElem?_erase]

theorem bucket_remove (h : t.get? name a = some r) :
    (t.remove name a).bucket name =
      if ((t.bucket name).erase a).isEmpty then ∅ else (t.bucket name).erase a := by
  rw [bucket_eq, buckets_remove h, if_pos rfl]
  split <;> rfl

theorem get?_remove (t : Table k) (name : String) (a : Address) (n : String) (b : Address) :
    (t.remove name a).get? n b = if name = n ∧ a = b then none else t.get? n b := by
  cases h : t.get? name a with
  | none =>
    rw [remove_of_none h]
    split
    · rename_i he
      rwa [← he.1, ← he.2]
    · rfl
  | some r =>
    unfold get?
    by_cases hn : name = n
    · subst hn
      have he := getElem?_erase (t.bucket name) a b
      rw [bucket_remove h]
      by_cases hz : ((t.bucket name).erase a).isEmpty
      · -- The bucket is dropped; as it was empty, nothing was read from it.
        rw [Std.TreeMap.getElem?_of_isEmpty hz] at he
        simpa [hz] using he
      · simp [hz, he]
    · rw [bucket_eq, buckets_remove h, if_neg hn, if_neg fun he => hn he.1, ← bucket_eq]

theorem newest?_of_no_history (h : t.histories[name]? = none) : t.newest? name = none := by
  unfold newest? newestAddress?
  rw [history_eq, h]
  rfl

theorem history_insert (t : Table k) (a owner : Address) (r : Record k) (name : String) :
    (t.insert a owner r).history name =
      if r.name = name then t.history name ++ [a] else t.history name := by
  unfold history insert
  rw [Std.TreeMap.getD_insert]
  by_cases hn : r.name = name
  · simp [hn, history]
  · simp [hn]

theorem newestAddress?_insert (t : Table k) (a owner : Address) (r : Record k) (name : String) :
    (t.insert a owner r).newestAddress? name =
      if r.name = name then some a else t.newestAddress? name := by
  unfold newestAddress?
  rw [history_insert]
  split
  · exact List.getLast?_concat
  · rfl

theorem newest?_insert (t : Table k) (a owner : Address) (r : Record k) (name : String) :
    (t.insert a owner r).newest? name = if r.name = name then some r else t.newest? name := by
  unfold newest?
  rw [newestAddress?_insert]
  by_cases hn : r.name = name
  · simp [hn, get?_insert]
  · rw [if_neg hn, if_neg hn]
    refine Option.bind_congr fun b _ => ?_
    rw [get?_insert, if_neg fun he => hn he.1]

theorem newest?_remove_of_ne (t : Table k) (h : n ≠ name) (a : Address) :
    (t.remove n a).newest? name = t.newest? name := by
  have hhistory : (t.remove n a).history name = t.history name := by
    cases hg : t.get? n a with
    | none => rw [remove_of_none hg]
    | some r => rw [history_eq, histories_remove hg, if_neg h, ← history_eq]
  unfold newest? newestAddress?
  rw [hhistory]
  refine Option.bind_congr fun b _ => ?_
  rw [get?_remove, if_neg fun he => h he.1]

/-! ## The records of a name -/

/-- The table has just these records under the name, inserted in this order. -/
structure Lists (t : Table k) (name : String) (es : List (Address × Record k)) : Prop where
  distinct : (es.map Prod.fst).Nodup
  get? (a : Address) (r : Record k) : t.get? name a = some r ↔ (a, r) ∈ es
  hasBucket : t.hasBucket name = !es.isEmpty
  histories : t.histories[name]? = if es.isEmpty then none else some (es.map Prod.fst)

variable {es : List (Address × Record k)}

/-- A map that reads as a list of entries is empty if the list is. -/
theorem isEmpty_of_reads {β : Type} {m : Std.TreeMap Address β} {es : List (Address × β)}
    (h : ∀ a x, m[a]? = some x ↔ (a, x) ∈ es) : m.isEmpty = es.isEmpty := by
  cases es with
  | nil =>
    refine Std.TreeMap.isEmpty_iff_forall_not_mem.2 fun a ha => ?_
    obtain ⟨x, hx⟩ := Option.isSome_iff_exists.1 (Std.TreeMap.mem_iff_isSome_getElem?.1 ha)
    cases (h a x).1 hx
  | cons e es =>
    refine Std.TreeMap.isEmpty_eq_false_iff_exists_mem.2 ⟨e.1, ?_⟩
    rw [Std.TreeMap.mem_iff_isSome_getElem?, (h e.1 e.2).2 List.mem_cons_self]
    rfl

theorem lists_empty (name : String) : (∅ : Table k).Lists name [] where
  distinct := .nil
  get? a r := by
    rw [show (∅ : Table k).get? name a = (∅ : Std.TreeMap Address (Record k))[a]? from rfl]
    simp
  hasBucket := rfl
  histories := rfl

namespace Lists

theorem history (h : t.Lists name es) : t.history name = es.map Prod.fst := by
  rw [history_eq, h.histories]
  cases es <;> rfl

theorem mem_bucket (h : t.Lists name es) : a ∈ t.bucket name ↔ a ∈ es.map Prod.fst := by
  rw [Std.TreeMap.mem_iff_isSome_getElem?, Option.isSome_iff_exists, List.mem_map]
  constructor
  · rintro ⟨r, hr⟩
    exact ⟨(a, r), (h.get? a r).1 hr, rfl⟩
  · rintro ⟨e, he, rfl⟩
    exact ⟨e.2, (h.get? e.1 e.2).2 he⟩

theorem contains_eq (h : t.Lists name es) :
    t.buckets.contains name = t.histories.contains name := by
  rw [Std.TreeMap.contains_eq_isSome_getElem? (t := t.histories), h.histories]
  refine h.hasBucket.trans ?_
  cases es <;> rfl

theorem bucket_not_empty (h : t.Lists name es) {m : Std.TreeMap Address (Record k)}
    (hm : t.buckets[name]? = some m) : m.isEmpty = false := by
  have hb : t.bucket name = m := by rw [bucket_eq, hm, Option.getD_some]
  have he : es.isEmpty = false := by
    have := h.hasBucket
    rw [Table.hasBucket, Std.TreeMap.contains_eq_isSome_getElem?, hm] at this
    simpa using this.symm
  rw [← he]
  refine isEmpty_of_reads fun a r => ?_
  rw [← h.get? a r, Table.get?, hb]

theorem history_ne_nil (h : t.Lists name es) {l : List Address}
    (hl : t.histories[name]? = some l) : l ≠ [] := by
  rw [h.histories] at hl
  cases es with
  | nil => cases hl
  | cons e es =>
    obtain rfl := Option.some.inj hl
    exact List.cons_ne_nil _ _

theorem newestAddress? (h : t.Lists name es) :
    t.newestAddress? name = es.getLast?.map Prod.fst := by
  rw [Table.newestAddress?, h.history, List.getLast?_map]

theorem newest? (h : t.Lists name es) : t.newest? name = es.getLast?.map Prod.snd := by
  rw [Table.newest?, h.newestAddress?]
  cases hl : es.getLast? with
  | none => rfl
  | some e => exact (h.get? e.1 e.2).2 (List.mem_of_getLast? hl)

theorem ne_of_none (h : t.Lists name es) (ha : t.get? name a = none) :
    ∀ e ∈ es, e.1 ≠ a := by
  rintro e he rfl
  rw [(h.get? e.1 e.2).2 he] at ha
  cases ha

/-- Buckets and histories alone decide what is listed. -/
theorem of_same {u : Table k} (h : t.Lists name es) (hb : u.buckets[name]? = t.buckets[name]?)
    (hh : u.histories[name]? = t.histories[name]?) : u.Lists name es where
  distinct := h.distinct
  get? a r := by
    rw [Table.get?, bucket_eq, hb, ← bucket_eq]
    exact h.get? a r
  hasBucket := by
    rw [← h.hasBucket, Table.hasBucket, Table.hasBucket, Std.TreeMap.contains_eq_isSome_getElem?,
      Std.TreeMap.contains_eq_isSome_getElem?, hb]
  histories := by rw [hh, h.histories]

theorem insert_of_ne (h : t.Lists name es) (hn : r.name ≠ name) (a owner : Address) :
    (t.insert a owner r).Lists name es :=
  h.of_same (by simp [Table.insert, Std.TreeMap.getElem?_insert, hn])
    (by simp [Table.insert, Std.TreeMap.getElem?_insert, hn])

theorem insert (h : t.Lists r.name es) (ha : t.get? r.name a = none) (owner : Address) :
    (t.insert a owner r).Lists r.name (es ++ [(a, r)]) where
  distinct := by
    rw [List.map_append, List.nodup_append]
    refine ⟨h.distinct, by simp, fun b hb c hc => ?_⟩
    obtain ⟨e, he, rfl⟩ := List.mem_map.1 hb
    obtain rfl := List.mem_singleton.1 hc
    exact h.ne_of_none ha e he
  get? b q := by
    rw [get?_insert, List.mem_append, ← h.get? b q, List.mem_singleton, Prod.mk.injEq]
    by_cases hb : a = b
    · subst hb
      rw [if_pos ⟨rfl, rfl⟩, ha]
      simp [eq_comm]
    · rw [if_neg fun he => hb he.2]
      simp [Ne.symm hb]
  hasBucket := by simp [Table.hasBucket, Table.insert]
  histories := by simp [Table.insert, h.history]

theorem remove_of_ne (h : t.Lists name es) (hn : n ≠ name) (a : Address) :
    (t.remove n a).Lists name es := by
  cases hg : t.get? n a with
  | none => rwa [remove_of_none hg]
  | some r =>
    exact h.of_same ((buckets_remove hg name).trans (if_neg hn))
      ((histories_remove hg name).trans (if_neg hn))

theorem remove (h : t.Lists name es) (a : Address) :
    (t.remove name a).Lists name (es.filter (·.1 != a)) := by
  cases hg : t.get? name a with
  | none =>
    rw [remove_of_none hg, List.filter_eq_self.2 fun e he => bne_iff_ne.2 (h.ne_of_none hg e he)]
    exact h
  | some r =>
    have hbucket : ((t.bucket name).erase a).isEmpty = (es.filter (·.1 != a)).isEmpty := by
      refine isEmpty_of_reads fun b q => ?_
      rw [getElem?_erase, List.mem_filter, ← h.get? b q]
      by_cases hb : a = b <;> simp [hb, Ne.symm, Table.get?]
    have hhistory : (t.history name).filter (· != a) = (es.filter (·.1 != a)).map Prod.fst := by
      rw [h.history, List.filter_map]
      rfl
    refine ⟨h.distinct.sublist (List.filter_sublist.map _), fun b q => ?_, ?_, ?_⟩
    · rw [get?_remove, List.mem_filter, ← h.get? b q]
      by_cases hb : a = b <;> simp [hb, Ne.symm]
    · rw [Table.hasBucket, Std.TreeMap.contains_eq_isSome_getElem?, buckets_remove hg, if_pos rfl,
        hbucket]
      cases (es.filter (·.1 != a)).isEmpty <;> rfl
    · rw [histories_remove hg, if_pos rfl, hhistory, List.isEmpty_map]

end Lists

end ParticleChain.Registry.Table
