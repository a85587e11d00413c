import Mathlib.Logic.Relation
import ParticleChain.Composite.Graph

/-!
# Paths in composite graphs

`g.Leads a b` says that a path leads from `a` to `b`, maybe the empty one. The search finds just
these paths (`reaches_iff`), though it takes every node out of the graph that it enters: a path
that comes back to a node can be cut there. A graph in which one node gets other references stays
acyclic if and only if none of these leads back to the node (`acyclic_iff_of_agree`).
-/

namespace ParticleChain.Composite.Graph

open Relation

variable {g g' : Graph} {a b n p target : String} {next : List String}

/-- A node refers to a name. -/
def Refers (g : Graph) (a b : String) : Prop := ∃ next, g[a]? = some next ∧ b ∈ next

def Leads (g : Graph) : String → String → Prop := ReflTransGen g.Refers

/-- No node leads to itself, except by the empty path. -/
def Acyclic (g : Graph) : Prop := ∀ n, ¬ TransGen g.Refers n n

/-! ## The search -/

theorem refers_erase : Refers (g.erase n) a b ↔ n ≠ a ∧ g.Refers a b := by
  unfold Refers
  rw [Std.TreeMap.getElem?_erase]
  by_cases h : n = a <;> simp [h]

theorem Leads.of_erase (h : Leads (g.erase n) a b) : g.Leads a b :=
  ReflTransGen.mono (fun _ _ hr => (refers_erase.1 hr).2) _ _ h

/-- A path to another name can be cut where it leaves `n` for the last time. -/
theorem Leads.avoid (h : g.Leads a target) (ht : n ≠ target) (hn : g[n]? = some next) :
    (a ≠ n ∧ Leads (g.erase n) a target) ∨ ∃ m ∈ next, Leads (g.erase n) m target := by
  induction h using ReflTransGen.head_induction_on with
  | refl => exact .inl ⟨ht.symm, .refl⟩
  | @head a m hr _ ih =>
    rcases ih with ⟨_, hm⟩ | hm
    · by_cases ha : n = a
      · subst ha
        obtain ⟨l, hl, hml⟩ := hr
        obtain rfl := Option.some.inj (hn.symm.trans hl)
        exact .inr ⟨m, hml, hm⟩
      · exact .inl ⟨Ne.symm ha, .head (refers_erase.2 ⟨ha, hr⟩) hm⟩
    · exact .inr hm

theorem reaches_iff (g : Graph) (target : String) (pending : List String) :
    g.reaches target pending = true ↔ ∃ n ∈ pending, g.Leads n target := by
  fun_induction reaches g target pending with
  | case1 => simp
  | case2 g pending => simpa using .inl ReflTransGen.refl
  | case3 g n pending hn hg ih =>
    -- A name that is no node leads to itself alone.
    have hstuck : ¬ g.Leads n target := by
      intro h
      rcases ReflTransGen.cases_head h with rfl | ⟨m, ⟨l, hl, -⟩, -⟩
      · exact hn rfl
      · rw [hg] at hl
        cases hl
    simp [ih, hstuck]
  | case4 g n pending hn next hg _ ih =>
    rw [ih]
    constructor
    · rintro ⟨m, hm, hl⟩
      rcases List.mem_append.1 hm with hm | hm
      · exact ⟨n, List.mem_cons_self, .head ⟨next, hg, hm⟩ hl.of_erase⟩
      · exact ⟨m, List.mem_cons_of_mem _ hm, hl.of_erase⟩
    · rintro ⟨m, hm, hl⟩
      rcases hl.avoid hn hg with ⟨hmn, hl⟩ | ⟨q, hq, hl⟩
      · rcases List.mem_cons.1 hm with rfl | hm
        · exact absurd rfl hmn
        · exact ⟨m, List.mem_append_right _ hm, hl⟩
      · exact ⟨q, List.mem_append_left _ hq, hl⟩

/-! ## Other references for one node -/

/-- Two graphs that differ at one node only. -/
def AgreeApart (p : String) (g g' : Graph) : Prop := ∀ n, n ≠ p → g'[n]? = g[n]?

theorem AgreeApart.symm (h : AgreeApart p g g') : AgreeApart p g' g := fun n hn => (h n hn).symm

theorem AgreeApart.refers (h : AgreeApart p g g') (ha : a ≠ p) (hr : g.Refers a b) :
    g'.Refers a b := by
  obtain ⟨next, hn, hb⟩ := hr
  exact ⟨next, (h a ha).trans hn, hb⟩

/-- Up to its first visit to `p`, a path does not use the references of `p`. -/
theorem AgreeApart.leads (h : AgreeApart p g g') (hl : g.Leads a p) : g'.Leads a p := by
  induction hl using ReflTransGen.head_induction_on with
  | refl => exact .refl
  | @head a b hr _ ih =>
    by_cases ha : a = p
    · subst ha
      exact .refl
    · exact .head (h.refers ha hr) ih

/-- A path keeps clear of the references of `p`, or goes through `p`. -/
theorem transGen_avoids_or_visits (hp : TransGen g.Refers a b) (p : String) :
    TransGen (fun x y => x ≠ p ∧ g.Refers x y) a b ∨ g.Leads a p ∧ TransGen g.Refers p b := by
  induction hp with
  | single hr =>
    by_cases ha : a = p
    · subst ha
      exact .inr ⟨.refl, .single hr⟩
    · exact .inl (.single ⟨ha, hr⟩)
  | @tail b c _ hr ih =>
    rcases ih with h | ⟨hl, hv⟩
    · by_cases hb : b = p
      · subst hb
        exact .inr ⟨(TransGen.mono (fun _ _ hr => hr.2) _ _ h).to_reflTransGen, .single hr⟩
      · exact .inl (h.tail ⟨hb, hr⟩)
    · exact .inr ⟨hl, hv.tail hr⟩

theorem acyclic_iff_of_agree (hg : g.Acyclic) (h : AgreeApart p g g') :
    g'.Acyclic ↔ ∀ b, g'.Refers p b → ¬ g.Leads b p := by
  constructor
  · intro hc b hb hl
    exact hc p (.head' hb (h.leads hl))
  · intro hb n hn
    rcases transGen_avoids_or_visits hn p with hn | ⟨hl, hv⟩
    · exact hg n (TransGen.mono (fun _ _ hr => h.symm.refers hr.1 hr.2) _ _ hn)
    · -- The cycle goes through `p`, so one of its new references leads back to it.
      obtain ⟨b, hr, hback⟩ := TransGen.head'_iff.1 (hv.trans_left hl)
      exact hb b hr (h.symm.leads hback)

end ParticleChain.Composite.Graph
