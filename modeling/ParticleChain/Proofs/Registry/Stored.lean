import Mathlib.Data.List.Nodup
import ParticleChain.Proofs.Composite.Order
import ParticleChain.Proofs.Registry.References
import ParticleChain.Publishing.Replay

/-!
# Stored records and their order

Of each name the storage has the newest record. A restart adds these again, kind after kind and
particles after their composites (`replay`). So when the turn of a record comes, the records of
the kinds before its own have all been tried, and so have the particles that it uses; its own name
has not (`Turn`).
-/

namespace ParticleChain.Registry

open Artifact (Kind Record Particle)
open Publishing (replayOrder)

variable {s : Registry} {k l : Kind} {name c : String} {a : Address} {r : Record k}
  {ops before : List Op} {place : Kind → String → Address}

/-! ## What is stored -/

/-- The newest record of each name. -/
def stored (s : Registry) (k : Kind) : Std.TreeMap String (Record k) :=
  (s.table k).histories.filterMap fun name _ => (s.table k).newest? name

/-- The records in the order in which they are added again. -/
def stack (s : Registry) (k : Kind) : List (Record k) := (replayOrder (s.stored k)).1

/-- The particles that have no place in this order. -/
def blocked (s : Registry) (k : Kind) : List String := (replayOrder (s.stored k)).2

/-- The particles in the storage. -/
def storedGraph (s : Registry) : Composite.Graph :=
  (s.stored .particle).map fun _ r => Particle.references r.definition

theorem getElem?_stored (s : Registry) (k : Kind) (name : String) :
    (s.stored k)[name]? = (s.table k).newest? name := by
  unfold stored
  rw [Std.TreeMap.getElem?_filterMap']
  cases h : (s.table k).histories[name]? with
  | some l => rfl
  | none => exact (Table.newest?_of_no_history h).symm

theorem getElem?_storedGraph (s : Registry) (name : String) :
    s.storedGraph[name]? = (s.newest? .particle name).map Particle.references := by
  rw [storedGraph, Std.TreeMap.getElem?_map, getElem?_stored, newest?, Option.map_map]
  rfl

theorem mem_storedGraph : name ∈ s.storedGraph ↔ ∃ r, (s.table .particle).newest? name = some r := by
  rw [Std.TreeMap.mem_iff_isSome_getElem?, getElem?_storedGraph, newest?, Option.map_map,
    Option.isSome_map, Option.isSome_iff_exists]

theorem refers_storedGraph (s : Registry) : s.storedGraph.Refers = s.Uses := by
  rw [← refers_compositeGraph]
  funext a b
  unfold Composite.Graph.Refers
  rw [getElem?_storedGraph, getElem?_compositeGraph]

theorem stack_particle (s : Registry) : s.stack .particle =
    s.storedGraph.order.1.filterMap fun name => (s.stored .particle)[name]? := rfl

/-- No particle is left out if none uses itself. -/
theorem blocked_eq_nil (h : s.CycleFree) (k : Kind) : s.blocked k = [] := by
  cases k with
  | transformation | condition | feature => rfl
  | particle =>
    refine Composite.Graph.order_snd_of_acyclic (g := s.storedGraph) fun n hn => h n ?_
    rwa [refers_storedGraph] at hn

namespace Follows

variable (h : s.Follows ops)

include h

theorem map_name_filterMap {names : List String}
    (hn : ∀ name ∈ names, ∃ r, (s.table k).newest? name = some r) :
    (names.filterMap fun name => (s.stored k)[name]?).map Record.name = names := by
  rw [List.map_filterMap]
  refine (List.filterMap_congr fun name hm => ?_).trans List.filterMap_some
  obtain ⟨r, hr⟩ := hn name hm
  rw [getElem?_stored, hr, Option.map_some, (h.newest?_mem hr).2]

theorem map_name_values (k : Kind) : (s.stored k).values.map Record.name = (s.stored k).keys := by
  rw [Table.values_eq_map, ← Std.TreeMap.map_fst_toList_eq_keys, List.map_map]
  refine List.map_congr_left fun e he => ?_
  have hr := Std.TreeMap.mem_toList_iff_getElem?_eq_some.1 he
  rw [getElem?_stored] at hr
  exact (h.newest?_mem hr).2

theorem map_name_particles :
    (s.stack .particle).map Record.name = s.storedGraph.placed.reverse := by
  rw [stack_particle, Composite.Graph.order_fst]
  refine h.map_name_filterMap fun name hm => mem_storedGraph.1 ?_
  exact Composite.Graph.mem_of_placed (List.mem_reverse.1 hm)

theorem nodup_stack (k : Kind) : ((s.stack k).map Record.name).Nodup := by
  cases k with
  | particle =>
    rw [h.map_name_particles]
    exact List.nodup_reverse.2 s.storedGraph.nodup_placed
  | transformation | condition | feature =>
    refine (h.map_name_values _).symm ▸ ?_
    exact Std.TreeMap.nodup_keys

theorem mem_stack (hc : s.CycleFree) : r ∈ s.stack k ↔ (s.table k).newest? r.name = some r := by
  have hvalue : r ∈ (s.stored k).values ↔ (s.table k).newest? r.name = some r := by
    simp only [Table.mem_values, getElem?_stored]
    refine ⟨fun ⟨name, hr⟩ => ?_, fun hr => ⟨_, hr⟩⟩
    rwa [(h.newest?_mem hr).2]
  cases k with
  | transformation | condition | feature => exact hvalue
  | particle =>
    rw [stack_particle, Composite.Graph.order_fst, List.mem_filterMap]
    simp only [getElem?_stored]
    refine ⟨fun ⟨name, _, hr⟩ => ?_, fun hr => ⟨r.name, List.mem_reverse.2 ?_, hr⟩⟩
    · rwa [(h.newest?_mem hr).2]
    · refine Composite.Graph.placed_of_clean (mem_storedGraph.2 ⟨r, hr⟩) fun m _ hm => hc m ?_
      rwa [refers_storedGraph] at hm

/-- What a particle uses is in the stack before it. -/
theorem composites_before {rs : List (Record .particle)} {r : Record .particle}
    (hp : rs ++ [r] <+: s.stack .particle) (hu : s.Uses r.name c)
    (hq : ∃ q, (s.table .particle).newest? c = some q) : ∃ q ∈ rs, q.name = c := by
  have hnames := hp.map Record.name
  rw [h.map_name_particles, List.map_append, List.map_singleton, ← List.reverse_suffix] at hnames
  simp only [List.reverse_append, List.reverse_reverse, List.reverse_singleton,
    List.singleton_append] at hnames
  have hsettled := (s.storedGraph.settled_placed).suffix hnames
  obtain ⟨q, hq, hn⟩ := List.mem_map.1 (List.mem_reverse.1
    (hsettled.1 c (by rwa [refers_storedGraph]) (mem_storedGraph.2 hq)))
  exact ⟨q, hq, hn⟩

end Follows

/-! ## The order of a restart -/

/-- Adds what is stored, each record at an address of its own. -/
def replay (s : Registry) (place : Kind → String → Address) : List Op :=
  Kind.all.flatMap fun k => (s.stack k).map fun r => .add k (place k r.name) r

/-- What comes before the addition of a record in a restart. -/
structure Turn (s : Registry) (place : Kind → String → Address) (before : List Op) {k : Kind}
    (r : Record k) : Prop where
  newest : (s.table k).newest? r.name = some r
  fresh (a : Address) (q : Record k) : .add k a q ∈ before → q.name ≠ r.name
  newestBefore (l : Kind) (a : Address) (q : Record l) : .add l a q ∈ before →
    (s.table l).newest? q.name = some q
  kinds (l : Kind) (q : Record l) : l.ctorIdx < k.ctorIdx → (s.table l).newest? q.name = some q →
    .add l (place l q.name) q ∈ before
  composites (q : Record .particle) : k = .particle → s.Uses r.name q.name →
    (s.table .particle).newest? q.name = some q → .add .particle (place .particle q.name) q ∈ before

theorem mem_replay_add : .add k a r ∈ s.replay place ↔ a = place k r.name ∧ r ∈ s.stack k := by
  unfold replay
  rw [List.mem_flatMap]
  constructor
  · rintro ⟨l, -, hl⟩
    obtain ⟨q, hq, he⟩ := List.mem_map.1 hl
    cases he
    exact ⟨rfl, hq⟩
  · rintro ⟨rfl, hr⟩
    exact ⟨k, k.mem_all, List.mem_map.2 ⟨r, hr, rfl⟩⟩

theorem prefix_flatMap {α β : Type} {f : α → List β} {xs : List α} {l : List β} {y : β}
    (h : l ++ [y] <+: xs.flatMap f) : ∃ front x back l', xs = front ++ x :: back ∧
      l = front.flatMap f ++ l' ∧ l' ++ [y] <+: f x := by
  induction xs generalizing l with
  | nil => exact absurd (List.prefix_nil.1 h) (by simp)
  | cons x xs ih =>
    rw [List.flatMap_cons] at h
    rcases List.prefix_or_prefix_of_prefix h (List.prefix_append (f x) _) with hx | hx
    · exact ⟨[], x, xs, l, rfl, rfl, hx⟩
    · rcases List.prefix_concat_iff.1 hx with he | ⟨rest, rfl⟩
      · exact ⟨[], x, xs, l, rfl, rfl, he ▸ List.prefix_refl _⟩
      · rw [List.append_assoc, List.prefix_append_right_inj] at h
        obtain ⟨front, z, back, l', rfl, rfl, hl'⟩ := ih h
        exact ⟨x :: front, z, back, l', rfl, by simp, hl'⟩

theorem mem_front_of_lt {front back : List Kind} (h : Kind.all = front ++ k :: back)
    (hl : l.ctorIdx < k.ctorIdx) : l ∈ front := by
  have hsorted : Kind.all.Pairwise fun a b => a.ctorIdx < b.ctorIdx := by decide
  have hmem := l.mem_all
  rw [h] at hsorted hmem
  rcases List.mem_append.1 hmem with hf | hb
  · exact hf
  · rcases List.mem_cons.1 hb with rfl | hb
    · exact absurd hl (Nat.lt_irrefl _)
    · have := (List.pairwise_cons.1 (List.pairwise_append.1 hsorted).2.1).1 l hb
      omega

theorem not_mem_front {front back : List Kind} (h : Kind.all = front ++ k :: back) :
    k ∉ front := by
  have hnodup : Kind.all.Nodup := by decide
  rw [h] at hnodup
  exact fun hk => (List.nodup_append.1 hnodup).2.2 k hk k List.mem_cons_self rfl

theorem Follows.turn (h : s.Follows ops) (hc : s.CycleFree) {op : Op}
    (hp : before ++ [op] <+: s.replay place) :
    ∃ k, ∃ r : Record k, op = .add k (place k r.name) r ∧ s.Turn place before r := by
  have hsub : ∀ o ∈ before, o ∈ s.replay place :=
    fun o ho => hp.subset (List.mem_append_left _ ho)
  obtain ⟨front, k, back, l', hall, hbefore, hl'⟩ := prefix_flatMap hp
  obtain ⟨rs, hrs, hmap⟩ := List.prefix_map_iff.1 hl'
  obtain ⟨rs, rest, rfl, hfirst, hlast⟩ := List.map_eq_append_iff.1 hmap.symm
  obtain ⟨r, rfl, rfl⟩ := List.map_eq_singleton_iff.1 hlast
  have hmem : ∀ q ∈ rs, .add k (place k q.name) q ∈ before := fun q hq => by
    rw [hbefore, ← hfirst]
    exact List.mem_append_right _ (List.mem_map.2 ⟨q, hq, rfl⟩)
  refine ⟨k, r, rfl, ⟨?newest, fun a q hq => ?fresh, fun l a q hq => ?newestBefore,
    fun l q hlt hq => ?kinds, fun q hk hu hq => ?composites⟩⟩
  case newest => exact (h.mem_stack hc).1 (hrs.subset (List.mem_append_right _ List.mem_cons_self))
  case fresh =>
    rw [hbefore, List.mem_append] at hq
    rcases hq with hq | hq
    · obtain ⟨l, hl, hq⟩ := List.mem_flatMap.1 hq
      obtain ⟨q', -, he⟩ := List.mem_map.1 hq
      cases he
      exact absurd hl (not_mem_front hall)
    · rw [← hfirst] at hq
      obtain ⟨q', hq', he⟩ := List.mem_map.1 hq
      cases he
      have hnodup := (h.nodup_stack k).sublist (hrs.sublist.map Record.name)
      rw [List.map_append, List.nodup_append] at hnodup
      exact hnodup.2.2 _ (List.mem_map.2 ⟨q, hq', rfl⟩) _ (List.mem_map.2 ⟨r, List.mem_cons_self, rfl⟩)
  case newestBefore => exact (h.mem_stack hc).1 (mem_replay_add.1 (hsub _ hq)).2
  case kinds =>
    rw [hbefore]
    refine List.mem_append_left _ (List.mem_flatMap.2 ⟨l, mem_front_of_lt hall hlt, ?_⟩)
    exact List.mem_map.2 ⟨q, (h.mem_stack hc).2 hq, rfl⟩
  case composites =>
    subst hk
    obtain ⟨q', hq', hn⟩ := h.composites_before hrs hu ⟨q, hq⟩
    have hstack := (h.mem_stack hc).1 (hrs.subset (List.mem_append_left _ hq'))
    rw [hn, hq] at hstack
    cases hstack
    exact hmem q hq'

end ParticleChain.Registry
