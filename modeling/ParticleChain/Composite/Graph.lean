import Std.Data.TreeMap

/-!
# Composite graphs

A directed graph on names: each node has the names it refers to. A name that is no node may be
referred to, but leads nowhere. Each search takes the nodes it enters out of the graph, so it
ends.
-/

namespace ParticleChain.Composite

abbrev Graph := Std.TreeMap String (List String)

namespace Graph

theorem size_erase_lt {g : Graph} {n : String} {next : List String} (h : g[n]? = some next) :
    (g.erase n).size < g.size := by
  have mem : g.contains n = true := by rw [Std.TreeMap.contains_eq_isSome_getElem?, h]; rfl
  have some_left := Std.TreeMap.isEmpty_eq_false_of_contains mem
  rw [Std.TreeMap.isEmpty_eq_size_eq_zero, beq_eq_false_iff_ne] at some_left
  rw [Std.TreeMap.size_erase, if_pos mem]
  omega

/-- Whether a path leads from one of the pending names to `target`. -/
def reaches (g : Graph) (target : String) : List String → Bool
  | [] => false
  | n :: pending =>
    if n = target then true
    else match h : g[n]? with
      | none => reaches g target pending
      | some next =>
        have := size_erase_lt h
        reaches (g.erase n) target (next ++ pending)
termination_by pending => (g.size, pending.length)

/-- What a depth-first search has not entered, and what it has put in order. -/
structure Walk where
  unvisited : Graph
  /-- Nodes behind everything they refer to; the last one first. -/
  placed : List String

/-- Places the names, each behind what it refers to; whether all of them could be. A node that
was entered but is not placed either refers to itself, over others, or to such a node. -/
def Walk.visit (isNode : String → Bool) (names : List String) (w : Walk) :
    { r : Bool × Walk // r.2.unvisited.size ≤ w.unvisited.size } :=
  match names with
  | [] => ⟨(true, w), Nat.le_refl _⟩
  | n :: rest =>
    match h : w.unvisited[n]? with
    | none =>
      let ⟨(ok, after), le⟩ := visit isNode rest w
      ⟨((w.placed.contains n || !isNode n) && ok, after), le⟩
    | some next =>
      have lt := size_erase_lt h
      let ⟨(ok, inner), le⟩ := visit isNode next ⟨w.unvisited.erase n, w.placed⟩
      have inner_lt : inner.unvisited.size < w.unvisited.size := Nat.lt_of_le_of_lt le lt
      let placed := if ok then n :: inner.placed else inner.placed
      let ⟨(restOk, after), restLe⟩ := visit isNode rest ⟨inner.unvisited, placed⟩
      ⟨(ok && restOk, after), Nat.le_trans restLe (Nat.le_of_lt inner_lt)⟩
termination_by (w.unvisited.size, names.length)

/-- The nodes in an order with references first, and the nodes that have no place in one: those
on a cycle and those that lead to one. -/
def order (g : Graph) : List String × List String :=
  let placed := (Walk.visit g.contains g.keys ⟨g, []⟩).1.2.placed
  (placed.reverse, g.keys.filter fun n => !placed.contains n)

end Graph

end ParticleChain.Composite
