import Mathlib.Data.List.Nodup
import ParticleChain.Proofs.Composite.Paths

/-!
# The order of composites

What a depth-first walk places has its references placed before it (`Settled`), and the walk
places every node from which no path comes to a cycle (`Clean`). The reason is that a node which
is neither waiting nor placed is either blocked or on the way to the names that are visited: a
clean node is never blocked, and if one on the way could be reached from a clean name, there would
be a cycle (`Walk.Below`). What is settled is clean in turn, so just the other nodes have no place
(`mem_order_snd_iff`).
-/

namespace ParticleChain.Composite.Graph

open Relation

variable {g : Graph} {n m : String} {names rest next : List String} {w : Walk}

/-- No path from the name comes to a node that leads back to itself. -/
def Clean (g : Graph) (n : String) : Prop := ∀ m, g.Leads n m → ¬ TransGen g.Refers m m

theorem Clean.leads (h : g.Clean n) (hl : g.Leads n m) : g.Clean m := fun _ hm => h _ (hl.trans hm)

theorem Acyclic.clean (h : g.Acyclic) (n : String) : g.Clean n := fun m _ => h m

/-- Each name stands before what it refers to, as far as that is a node. -/
def Settled (g : Graph) : List String → Prop
  | [] => True
  | n :: l => (∀ m, g.Refers n m → m ∈ g → m ∈ l) ∧ g.Settled l

theorem Settled.suffix {l l' : List String} (h : g.Settled l) (hs : l' <:+ l) : g.Settled l' := by
  obtain ⟨front, rfl⟩ := hs
  induction front with
  | nil => exact h
  | cons n front ih => exact ih h.2

namespace Walk

/-! ## One turn of the walk -/

theorem visit_nil (isNode : String → Bool) (w : Walk) : (visit isNode [] w).1 = (true, w) := by
  rw [visit]

theorem visit_of_none (isNode : String → Bool) (rest : List String) (h : w.unvisited[n]? = none) :
    (visit isNode (n :: rest) w).1 =
      ((w.placed.contains n || !isNode n) && (visit isNode rest w).1.1,
        (visit isNode rest w).1.2) := by
  rw [visit]
  split
  · rfl
  · rename_i hs
    rw [h] at hs
    cases hs

/-- The walk without a node. -/
def enter (w : Walk) (n : String) : Walk := ⟨w.unvisited.erase n, w.placed⟩

/-- The walk after the references of a node, which is placed if all of them could be. -/
def close (n : String) (r : Bool × Walk) : Walk :=
  ⟨r.2.unvisited, if r.1 then n :: r.2.placed else r.2.placed⟩

theorem visit_of_some (isNode : String → Bool) (rest : List String)
    (h : w.unvisited[n]? = some next) :
    (visit isNode (n :: rest) w).1 =
      let inner := (visit isNode next (w.enter n)).1
      let after := (visit isNode rest (close n inner)).1
      (inner.1 && after.1, after.2) := by
  rw [visit]
  split
  · rename_i hs
    rw [h] at hs
    cases hs
  · rename_i l hs
    obtain rfl := Option.some.inj (h.symm.trans hs)
    rfl

theorem size_enter (h : w.unvisited[n]? = some next) :
    (w.enter n).unvisited.size < w.unvisited.size := size_erase_lt h

theorem size_close (isNode : String → Bool) (h : w.unvisited[n]? = some next) :
    (close n (visit isNode next (w.enter n)).1).unvisited.size < w.unvisited.size :=
  Nat.lt_of_le_of_lt (visit isNode next (w.enter n)).2 (size_enter h)

/-! ## What a walk keeps -/

structure Within (w : Walk) (g : Graph) : Prop where
  unvisited : ∀ (n : String) next, w.unvisited[n]? = some next → g[n]? = some next
  placed : ∀ n ∈ w.placed, n ∈ g ∧ n ∉ w.unvisited
  distinct : w.placed.Nodup
  settled : g.Settled w.placed

/-- A node that is not clean, or waits, or is placed, or leads to all the names. -/
def Below (w : Walk) (g : Graph) (names : List String) : Prop :=
  ∀ m ∈ g, g.Clean m → m ∈ w.unvisited ∨ m ∈ w.placed ∨ ∀ n ∈ names, TransGen g.Refers m n

/-- What visiting the names makes of a walk. -/
structure Visits (g : Graph) (names : List String) (w : Walk) (r : Bool × Walk) : Prop where
  within : r.2.Within g
  waits : ∀ n ∈ r.2.unvisited, n ∈ w.unvisited
  keeps : ∀ n ∈ w.placed, n ∈ r.2.placed
  places : ∀ n ∈ r.2.placed, n ∈ w.placed ∨ n ∈ w.unvisited
  visited : ∀ n ∈ names, n ∉ r.2.unvisited
  ok : r.1 = true ↔ ∀ n ∈ names, n ∈ g → n ∈ r.2.placed
  clean : w.Below g names → ∀ n ∈ w.unvisited, g.Clean n → n ∈ r.2.unvisited ∨ n ∈ r.2.placed

theorem mem_of_getElem? (h : w.unvisited[n]? = some next) : n ∈ w.unvisited := by
  rw [Std.TreeMap.mem_iff_isSome_getElem?, h]
  rfl

theorem mem_unvisited_enter : m ∈ (w.enter n).unvisited ↔ n ≠ m ∧ m ∈ w.unvisited := by
  simp [enter, Std.TreeMap.mem_erase]

theorem Within.mem (h : w.Within g) (hn : n ∈ w.unvisited) : n ∈ g := by
  obtain ⟨next, hs⟩ := Option.isSome_iff_exists.1 (Std.TreeMap.mem_iff_isSome_getElem?.1 hn)
  rw [Std.TreeMap.mem_iff_isSome_getElem?, h.unvisited n next hs]
  rfl

theorem Within.enter (h : w.Within g) (n : String) : (w.enter n).Within g where
  unvisited m next hm := by
    rw [Walk.enter, Std.TreeMap.getElem?_erase] at hm
    split at hm
    · cases hm
    · exact h.unvisited m next hm
  placed m hm := ⟨(h.placed m hm).1, fun hu => (h.placed m hm).2 (mem_unvisited_enter.1 hu).2⟩
  distinct := h.distinct
  settled := h.settled

section

variable {inner after : Bool × Walk}

theorem Visits.not_mem (hv : Visits g next (w.enter n) inner) : n ∉ inner.2.unvisited :=
  fun hn => (mem_unvisited_enter.1 (hv.waits n hn)).1 rfl

/-- A node is not placed while its references are visited. -/
theorem Visits.not_placed (h : w.Within g) (hn : n ∈ w.unvisited)
    (hv : Visits g next (w.enter n) inner) : n ∉ inner.2.placed := by
  intro hp
  rcases hv.places n hp with hp | hp
  · exact (h.placed n hp).2 hn
  · exact (mem_unvisited_enter.1 hp).1 rfl

theorem mem_placed_close :
    m ∈ (close n inner).placed ↔ m ∈ inner.2.placed ∨ (inner.1 = true ∧ m = n) := by
  unfold close
  cases inner.1 <;> simp [or_comm]

theorem Visits.within_close (h : w.Within g) (hn : w.unvisited[n]? = some next)
    (hv : Visits g next (w.enter n) inner) : (close n inner).Within g where
  unvisited := hv.within.unvisited
  placed m hm := by
    rcases mem_placed_close.1 hm with hm | ⟨-, rfl⟩
    · exact hv.within.placed m hm
    · exact ⟨h.mem (mem_of_getElem? hn), hv.not_mem⟩
  distinct := by
    unfold close
    split
    · exact List.nodup_cons.2 ⟨hv.not_placed h (mem_of_getElem? hn), hv.within.distinct⟩
    · exact hv.within.distinct
  settled := by
    unfold close
    split
    · rename_i hok
      refine ⟨?_, hv.within.settled⟩
      rintro m ⟨l, hl, hm⟩ hg
      obtain rfl := Option.some.inj (hl.symm.trans (h.unvisited n next hn))
      exact hv.ok.1 hok m hm hg
    · exact hv.within.settled

theorem Below.enter (h : w.Below g (n :: rest)) (hn : g[n]? = some next) :
    (w.enter n).Below g next := by
  intro m hg hc
  rcases h m hg hc with hm | hm | hm
  · by_cases he : n = m
    · subst he
      exact .inr (.inr fun c hc => .single ⟨next, hn, hc⟩)
    · exact .inl (mem_unvisited_enter.2 ⟨he, hm⟩)
  · exact .inr (.inl hm)
  · exact .inr (.inr fun c hc => (hm n List.mem_cons_self).tail ⟨next, hn, hc⟩)

/-- The references of a clean node can all be placed. -/
theorem Visits.ok_of_clean (h : w.Within g) (hn : w.unvisited[n]? = some next)
    (hv : Visits g next (w.enter n) inner) (hb : w.Below g (n :: rest)) (hc : g.Clean n) :
    inner.1 = true := by
  have hgn := h.unvisited n next hn
  have hbelow : (w.enter n).Below g next := hb.enter hgn
  refine hv.ok.2 fun m hm hg => ?_
  have hcm : g.Clean m := hc.leads (.single ⟨next, hgn, hm⟩)
  rcases hbelow m hg hcm with hu | hp | hl
  · exact (hv.clean hbelow m hu hcm).resolve_left (hv.visited m hm)
  · exact hv.keeps m hp
  · exact absurd (hl m hm) (hcm m .refl)

theorem Visits.clean_close (h : w.Within g) (hn : w.unvisited[n]? = some next)
    (hv : Visits g next (w.enter n) inner) (hb : w.Below g (n :: rest)) (hm : m ∈ w.unvisited)
    (hc : g.Clean m) : m ∈ (close n inner).unvisited ∨ m ∈ (close n inner).placed := by
  by_cases he : n = m
  · subst he
    exact .inr (mem_placed_close.2 (.inr ⟨hv.ok_of_clean h hn hb hc, rfl⟩))
  · have hbelow := hb.enter (h.unvisited n next hn)
    exact (hv.clean hbelow m (mem_unvisited_enter.2 ⟨he, hm⟩) hc).imp_right
      fun hp => mem_placed_close.2 (.inl hp)

theorem Visits.below_close (h : w.Within g) (hn : w.unvisited[n]? = some next)
    (hv : Visits g next (w.enter n) inner) (hb : w.Below g (n :: rest)) :
    (close n inner).Below g rest := by
  intro m hg hc
  rcases hb m hg hc with hm | hm | hm
  · exact (hv.clean_close h hn hb hm hc).imp_right .inl
  · exact .inr (.inl (mem_placed_close.2 (.inl (hv.keeps m hm))))
  · exact .inr (.inr fun c hr => hm c (List.mem_cons_of_mem _ hr))

end

/-! ## The whole walk -/

theorem visits_nil (h : w.Within g) : Visits g [] w (true, w) where
  within := h
  waits _ hn := hn
  keeps _ hn := hn
  places _ hn := .inl hn
  visited _ hn := nomatch hn
  ok := ⟨fun _ _ hn => (nomatch hn), fun _ => rfl⟩
  clean _ _ hn _ := .inl hn

theorem Visits.cons_of_none {after : Bool × Walk} (hn : w.unvisited[n]? = none)
    (hv : Visits g rest w after) :
    Visits g (n :: rest) w ((w.placed.contains n || !g.contains n) && after.1, after.2) where
  within := hv.within
  waits := hv.waits
  keeps := hv.keeps
  places := hv.places
  visited m hm := by
    rcases List.mem_cons.1 hm with rfl | hm
    · intro hu
      have := Std.TreeMap.mem_iff_isSome_getElem?.1 (hv.waits m hu)
      rw [hn] at this
      cases this
    · exact hv.visited m hm
  ok := by
    have hplaced : n ∈ after.2.placed ↔ n ∈ w.placed := by
      refine ⟨fun hp => (hv.places n hp).resolve_right fun hu => ?_, hv.keeps n⟩
      have := Std.TreeMap.mem_iff_isSome_getElem?.1 hu
      rw [hn] at this
      cases this
    have hfirst : (w.placed.contains n || !g.contains n) = true ↔ (n ∈ g → n ∈ w.placed) := by
      cases hc : g.contains n <;> simp [Std.TreeMap.mem_iff_contains, hc]
    rw [Bool.and_eq_true, hv.ok, List.forall_mem_cons, hplaced, hfirst]
  clean hb := hv.clean fun m hg hc => (hb m hg hc).imp_right
    (.imp_right fun hl c hr => hl c (List.mem_cons_of_mem _ hr))

theorem Visits.cons_of_some {inner after : Bool × Walk} (h : w.Within g)
    (hn : w.unvisited[n]? = some next) (hi : Visits g next (w.enter n) inner)
    (ha : Visits g rest (close n inner) after) :
    Visits g (n :: rest) w (inner.1 && after.1, after.2) where
  within := ha.within
  waits m hm := (mem_unvisited_enter.1 (hi.waits m (ha.waits m hm))).2
  keeps m hm := ha.keeps m (mem_placed_close.2 (.inl (hi.keeps m hm)))
  places m hm := by
    have hw : ∀ m ∈ (w.enter n).unvisited, m ∈ w.unvisited :=
      fun m hm => (mem_unvisited_enter.1 hm).2
    rcases ha.places m hm with hm | hm
    · rcases mem_placed_close.1 hm with hm | ⟨-, rfl⟩
      · exact (hi.places m hm).imp_right (hw m)
      · exact .inr (mem_of_getElem? hn)
    · exact .inr (hw m (hi.waits m hm))
  visited m hm := by
    rcases List.mem_cons.1 hm with rfl | hm
    · exact fun hu => hi.not_mem (ha.waits m hu)
    · exact ha.visited m hm
  ok := by
    have hplaced : n ∈ after.2.placed ↔ inner.1 = true := by
      constructor
      · intro hp
        have hc := (ha.places n hp).resolve_right hi.not_mem
        exact ((mem_placed_close.1 hc).resolve_left
          (hi.not_placed h (mem_of_getElem? hn))).1
      · exact fun hok => ha.keeps n (mem_placed_close.2 (.inr ⟨hok, rfl⟩))
    have hg : n ∈ g := h.mem (mem_of_getElem? hn)
    rw [Bool.and_eq_true, ha.ok, List.forall_mem_cons, hplaced]
    simp only [hg, true_imp_iff]
  clean hb m hm hc := by
    rcases hi.clean_close h hn hb hm hc with hu | hp
    · exact ha.clean (hi.below_close h hn hb) m hu hc
    · exact .inr (ha.keeps m hp)

theorem visits (names : List String) (w : Walk) (h : w.Within g) :
    Visits g names w (visit g.contains names w).1 := by
  match names with
  | [] =>
    rw [visit_nil]
    exact visits_nil h
  | n :: rest =>
    match hn : w.unvisited[n]? with
    | none =>
      rw [visit_of_none _ _ hn]
      exact (visits rest w h).cons_of_none hn
    | some next =>
      have hlt := size_enter hn
      have hle := size_close g.contains hn
      rw [visit_of_some _ _ hn]
      have hi := visits next (w.enter n) (h.enter n)
      exact .cons_of_some h hn hi (visits rest _ (hi.within_close h hn))
termination_by (w.unvisited.size, names.length)

end Walk

/-! ## The order -/

theorem within_start (g : Graph) : Walk.Within ⟨g, []⟩ g where
  unvisited _ _ h := h
  placed _ h := nomatch h
  distinct := .nil
  settled := trivial

/-- The nodes in the order in which they are placed, the last one first. -/
def placed (g : Graph) : List String := (Walk.visit g.contains g.keys ⟨g, []⟩).1.2.placed

theorem order_fst (g : Graph) : g.order.1 = g.placed.reverse := rfl

theorem mem_order_snd : n ∈ g.order.2 ↔ n ∈ g ∧ n ∉ g.placed := by
  rw [show g.order.2 = g.keys.filter fun n => !g.placed.contains n from rfl, List.mem_filter,
    Std.TreeMap.mem_keys]
  simp

theorem visits_keys (g : Graph) :
    Walk.Visits g g.keys ⟨g, []⟩ (Walk.visit g.contains g.keys ⟨g, []⟩).1 :=
  Walk.visits g.keys _ (within_start g)

theorem nodup_placed (g : Graph) : g.placed.Nodup := (visits_keys g).within.distinct

theorem settled_placed (g : Graph) : g.Settled g.placed := (visits_keys g).within.settled

theorem mem_of_placed (h : n ∈ g.placed) : n ∈ g := ((visits_keys g).within.placed n h).1

theorem placed_of_clean (hn : n ∈ g) (hc : g.Clean n) : n ∈ g.placed := by
  have hv := visits_keys g
  refine (hv.clean (fun m hm _ => .inl hm) n hn hc).resolve_left ?_
  exact hv.visited n (Std.TreeMap.mem_keys.2 hn)

theorem order_snd_of_acyclic (h : g.Acyclic) : g.order.2 = [] := by
  refine List.eq_nil_iff_forall_not_mem.2 fun n hn => ?_
  obtain ⟨hg, hp⟩ := mem_order_snd.1 hn
  exact hp (placed_of_clean hg (h.clean n))

/-! ## Nodes without a place -/

/-- A reference from a node to a node. -/
def Links (g : Graph) (a b : String) : Prop := g.Refers a b ∧ b ∈ g

theorem Refers.mem (h : g.Refers n m) : n ∈ g := by
  obtain ⟨next, hn, -⟩ := h
  exact Std.TreeMap.mem_iff_isSome_getElem?.2 (hn ▸ rfl)

theorem Leads.mem (h : g.Leads n m) (hm : m ∈ g) : n ∈ g := by
  rcases ReflTransGen.cases_head h with rfl | ⟨c, hr, -⟩
  · exact hm
  · exact hr.mem

/-- A path to a node leads over nodes only. -/
theorem Leads.links (h : g.Leads n m) (hm : m ∈ g) : ReflTransGen g.Links n m := by
  induction h using ReflTransGen.head_induction_on with
  | refl => exact .refl
  | head hr hl ih => exact .head ⟨hr, Leads.mem hl hm⟩ ih

theorem transGen_links_iff : TransGen g.Links m m ↔ TransGen g.Refers m m := by
  refine ⟨fun h => TransGen.mono (fun _ _ hl => hl.1) _ _ h, fun h => ?_⟩
  obtain ⟨c, hr, hl⟩ := TransGen.head'_iff.1 h
  exact .head' ⟨hr, Leads.mem hl hr.mem⟩ (Leads.links hl hr.mem)

theorem not_clean_iff :
    ¬ g.Clean n ↔ ∃ m, ReflTransGen g.Links n m ∧ TransGen g.Links m m := by
  constructor
  · intro h
    obtain ⟨m, hl, hm⟩ : ∃ m, g.Leads n m ∧ TransGen g.Refers m m := by
      simpa [Clean] using h
    obtain ⟨c, hr, -⟩ := TransGen.head'_iff.1 hm
    exact ⟨m, hl.links hr.mem, transGen_links_iff.2 hm⟩
  · rintro ⟨m, hl, hm⟩ hc
    exact hc m (ReflTransGen.mono (fun _ _ hl => hl.1) _ _ hl) (transGen_links_iff.1 hm)

/-- From what stands behind all its references no path comes to a cycle: the first reference on
the way would stand before it, and so on. -/
theorem Settled.clean {l : List String} (h : g.Settled l) (hn : n ∈ l) : g.Clean n := by
  induction l generalizing n with
  | nil => cases hn
  | cons a l ih =>
    rcases List.mem_cons.1 hn with rfl | hn
    · intro m hl hm
      obtain ⟨c, hr, hc⟩ := TransGen.head'_iff.1 (TransGen.trans_right hl hm)
      obtain ⟨d, hd, -⟩ := TransGen.head'_iff.1 hm
      exact ih h.2 (h.1 c hr (Leads.mem hc hd.mem)) m hc hm
    · exact ih h.2 hn

theorem mem_placed_iff : n ∈ g.placed ↔ n ∈ g ∧ g.Clean n :=
  ⟨fun h => ⟨mem_of_placed h, (settled_placed g).clean h⟩, fun h => placed_of_clean h.1 h.2⟩

theorem mem_order_snd_iff :
    n ∈ g.order.2 ↔ ∃ m, ReflTransGen g.Links n m ∧ TransGen g.Links m m := by
  rw [mem_order_snd, mem_placed_iff, ← not_clean_iff]
  refine ⟨fun h hc => h.2 ⟨h.1, hc⟩, fun h => ?_⟩
  obtain ⟨m, hl, hm⟩ := not_clean_iff.1 h
  obtain ⟨c, hr, -⟩ := TransGen.head'_iff.1 hm
  exact ⟨Leads.mem (ReflTransGen.mono (fun _ _ hl => hl.1) _ _ hl) hr.1.mem, fun hc => h hc.2⟩

/-- What a node in order refers to stands before it. -/
theorem mem_before_of_refers {before after : List String} (h : g.order.1 = before ++ n :: after)
    (hr : g.Refers n m) (hm : m ∈ g) : m ∈ before := by
  have hplaced : g.placed = after.reverse ++ n :: before.reverse := by
    rw [order_fst, List.reverse_eq_iff] at h
    simpa using h
  have hsettled : g.Settled (n :: before.reverse) :=
    (settled_placed g).suffix ⟨after.reverse, hplaced.symm⟩
  exact List.mem_reverse.1 (hsettled.1 m hr hm)

/-- Each node is in order or has no place, and not both. -/
theorem mem_order_iff : n ∈ g.order.1 ++ g.order.2 ↔ n ∈ g := by
  rw [List.mem_append, mem_order_snd, order_fst, List.mem_reverse]
  refine ⟨fun h => h.elim mem_of_placed And.left, fun h => ?_⟩
  exact (Classical.em _).imp_right fun hp => ⟨h, hp⟩

theorem nodup_order (g : Graph) : (g.order.1 ++ g.order.2).Nodup := by
  rw [List.nodup_append, order_fst]
  refine ⟨List.nodup_reverse.2 g.nodup_placed, Std.TreeMap.nodup_keys.filter _, ?_⟩
  rintro a ha b hb rfl
  exact (mem_order_snd.1 hb).2 (List.mem_reverse.1 ha)

end ParticleChain.Composite.Graph
