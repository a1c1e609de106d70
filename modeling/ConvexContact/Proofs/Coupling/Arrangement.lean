import Mathlib.Data.List.GetD
import ConvexContact.Proofs.Coupling.ClusterGraph
import ConvexContact.Proofs.Index.PartialPermutation
import ConvexContact.Proofs.Index.Pick
import ConvexContact.Proofs.Problem

/-!
# Arrangements of problems

A problem is arranged by its graph, which orders the constraints by cluster, and by the numbering of
the cliques that take part (`ContactProblem.Arranged`). Both a stack and a model begin with this.
The order is a rearrangement of the constraints, and exactly the coupled cliques take part.

Every problem that can be met has an arrangement (`ContactProblem.WellFormed.exists_arranged`): the
checks of the graph and of the numbering repeat what the problem has checked already.

Positions and cliques are whole numbers that may be negative where callers name them, and natural
numbers where lists are indexed. Here is the border: the order and the scan of a graph only hold
indices of constraints and cliques, so the lemmas of this module speak of natural numbers, and those
that come after it can forget the difference.
-/

namespace ConvexContact

variable {K : Type}

/-- The places of the constraints, in the order of the clusters. -/
def ClusterGraph.places (g : ClusterGraph) : List Nat := g.order.map Int.toNat

namespace ContactProblem

/-- Counted from the front, the constraint at a position is the one there. -/
theorem constraintAt_of_getElem? {p : ContactProblem K} {i : Nat} {c : Constraint K}
    (h : p.constraints[i]? = some c) : p.constraintAt i = .ok c := by
  rw [constraintAt, atSigned?_natCast, h]

/-- The graph of a problem, with the numbering of the cliques that take part. -/
structure Arranged (p : ContactProblem K) (g : ClusterGraph) (q : PartialPermutation) : Prop where
  graph : p.graph = .ok g
  cliques : g.numbering (K := K) = .ok q

namespace Arranged

variable {p : ContactProblem K} {g : ClusterGraph} {q : PartialPermutation}

/-! ## The order of the constraints -/

/-- The graph of an arrangement collects the constraints of the problem. -/
theorem collects (h : p.Arranged g q) :
    g.Collects (p.constraints.map fun c => c.cliques.map Int.ofNat) :=
  (collects_graph h.graph).1

/-- The graph names places of constraints, which are not negative. -/
theorem graph_order (h : p.Arranged g q) : g.order = g.places.map Int.ofNat := by
  have hnat : ∀ i ∈ g.order, Int.ofNat i.toNat = i := by
    intro i hi
    obtain ⟨n, -, rfl⟩ := List.mem_map.mp (h.collects.order.mem_iff.mp hi)
    rfl
  have hid : g.order.map (Int.ofNat ∘ Int.toNat) = g.order.map id := List.map_congr_left hnat
  rw [ClusterGraph.places, List.map_map, hid, List.map_id]

/-- The order is a rearrangement of the constraints. -/
theorem places_perm (h : p.Arranged g q) : g.places.Perm (List.range p.constraints.length) := by
  have hperm := h.collects.order.map Int.toNat
  rw [List.length_map, List.map_map] at hperm
  have hid : Int.toNat ∘ Int.ofNat = id := funext fun n => Int.toNat_natCast n
  rw [hid, List.map_id] at hperm
  exact hperm

/-- No place is out of range. -/
theorem lt_of_mem_places (h : p.Arranged g q) : ∀ i ∈ g.places, i < p.constraints.length :=
  fun _ hi => List.mem_range.mp (h.places_perm.mem_iff.mp hi)

/-- The constraints are looked up in the order. -/
theorem mapM_constraintAt (h : p.Arranged g q) :
    g.order.mapM p.constraintAt = .ok (pick p.constraints g.places) := by
  rw [h.graph_order, Outcome.mapM_eq_ok, List.forall₂_map_left_iff]
  apply (forall₂_pick h.lt_of_mem_places).imp
  exact fun i c hc => constraintAt_of_getElem? hc

/-! ## The cliques that take part -/

/-- The numbering is a valid one of all cliques, and numbers those that some constraint couples: a
constraint names them, its cluster couples them, and the scan of the graph meets them. -/
theorem cliques_spec (h : p.Arranged g q) : q.Valid ∧ q.domainSize = p.cliqueCount ∧
    ∀ c, c ∈ q.inverse ↔ ∃ con ∈ p.constraints, c ∈ con.cliques := by
  obtain ⟨hvalid, hdomain, hmem⟩ := (PartialPermutation.valid_blank _).pushAll h.cliques
  refine ⟨hvalid, ?_, ?_⟩
  · rw [hdomain, ← (collects_graph h.graph).2]
    exact List.length_replicate
  · intro c
    rw [hmem, h.collects.mem_scan]
    simp [PartialPermutation.blank]

/-- The numbering of an arrangement is a valid one. -/
theorem cliques_valid (h : p.Arranged g q) : q.Valid := h.cliques_spec.1

/-- A clique takes part when some constraint couples it. -/
theorem mem_cliques (h : p.Arranged g q) {c : Nat} :
    c ∈ q.inverse ↔ ∃ con ∈ p.constraints, c ∈ con.cliques :=
  h.cliques_spec.2.2 c

theorem lt_of_mem_cliques (h : p.Arranged g q) : ∀ c ∈ q.inverse, c < p.dynamics.length := by
  intro c hc
  have hlt := h.cliques_valid.lt_of_mem hc
  rw [h.cliques_spec.2.1] at hlt
  exact hlt

/-- The number of a clique that a constraint names. -/
theorem number?_of_mem (h : p.Arranged g q) {c : Constraint K} (hc : c ∈ p.constraints)
    {b : CliqueBlock K} (hb : b ∈ c.blocks) :
    ∃ k, q.number? b.clique = some k ∧ q.inverse[k]? = some b.clique := by
  have hmem := h.mem_cliques.mpr ⟨c, hc, List.mem_map_of_mem hb⟩
  obtain ⟨k, hk⟩ := List.mem_iff_getElem?.mp hmem
  exact ⟨k, (h.cliques_valid.number?_eq_some_iff _ _).mpr hk, hk⟩

/-- The sizes of the cliques are looked up in the order of their numbers. -/
theorem mapM_sizeAt (h : p.Arranged g q) :
    q.inverse.mapM (fun (c : Nat) => p.sizeAt c) =
      .ok (q.inverse.map fun c => p.sizes.getD c 0) := by
  apply Outcome.mapM_of_forall
  intro c hc
  have hlt : c < p.sizes.length := by
    rw [sizes, List.length_map]
    exact h.lt_of_mem_cliques c hc
  rw [sizeAt, atSigned?_natCast, List.getElem?_eq_getElem hlt, List.getD_eq_getElem _ _ hlt]

/-- The matrices of the cliques that take part have the sizes of these cliques. -/
theorem map_rows_pick (h : p.Arranged g q) :
    (pick p.dynamics q.inverse).map (·.rows) = q.inverse.map fun c => p.sizes.getD c 0 := by
  rw [map_pick]
  refine pick_eq_map (fun c hc => ?_) 0
  rw [List.length_map]
  exact h.lt_of_mem_cliques c hc

end Arranged

/-! ## Existence -/

/-- Constraints of a problem name cliques of the problem. -/
theorem WellFormed.lt_of_mem_cliques {p : ContactProblem K} (hp : p.WellFormed) {c : Constraint K}
    (hc : c ∈ p.constraints) {k : Nat} (hk : k ∈ c.cliques) : k < p.cliqueCount := by
  obtain ⟨b, hb, rfl⟩ := List.mem_map.mp hk
  have hlt := (List.getElem?_eq_some_iff.mp (hp.width c hc b hb)).1
  rwa [sizes, List.length_map] at hlt

/-- The constraints of a problem pass the checks of its graph. -/
theorem WellFormed.exists_graph {p : ContactProblem K} (hp : p.WellFormed) :
    ∃ g, p.graph = .ok g := by
  have hadd : ∀ (done : List (Constraint K)) (c : Constraint K) (g : ClusterGraph),
      (∃ rest, done ++ c :: rest = p.constraints) → g.cliqueCount = p.cliqueCount →
      ∃ g', (·.1) <$> g.add (K := K) (.list (c.cliques.map Int.ofNat)) c.equations = .ok g' ∧
        g'.cliqueCount = p.cliqueCount := by
    rintro done c g ⟨rest, hsplit⟩ hg
    have hc : c ∈ p.constraints := by
      rw [← hsplit]
      simp
    have hlength : (c.cliques.map Int.ofNat).length = 1 ∨
        (c.cliques.map Int.ofNat).length = 2 := by
      cases hsecond : c.second <;> simp [Constraint.cliques, Constraint.blocks, hsecond]
    have hrange : ∀ x ∈ c.cliques.map Int.ofNat, 0 ≤ x ∧ x < g.cliqueCount := by
      intro x hx
      obtain ⟨k, hk, rfl⟩ := List.mem_map.mp hx
      rw [hg]
      exact ⟨Int.natCast_nonneg k, Int.ofNat_lt.mpr (hp.lt_of_mem_cliques hc hk)⟩
    obtain ⟨⟨g', i⟩, hadd⟩ := ClusterGraph.exists_add (K := K) hlength hrange
      (Int.ofNat_lt.mpr (hp.constraint c hc).equations_pos)
    obtain ⟨pair, -, rfl⟩ := ClusterGraph.add_eq_ok hadd
    exact ⟨g.join pair c.equations, by rw [hadd]; rfl, hg⟩
  obtain ⟨g, hg, -⟩ := Outcome.exists_foldlM (b := ClusterGraph.blank p.cliqueCount)
    (fun _ g => g.cliqueCount = p.cliqueCount) rfl hadd
  exact ⟨g, hg⟩

/-- **Existence.** A problem that can be met has an arrangement. -/
theorem WellFormed.exists_arranged {p : ContactProblem K} (hp : p.WellFormed) :
    ∃ g q, p.Arranged g q := by
  obtain ⟨g, hg⟩ := hp.exists_graph
  obtain ⟨hcollects, hcount⟩ := collects_graph hg
  have hscan : ∀ i ∈ g.scan,
      0 ≤ i ∧ i < (PartialPermutation.blank g.cliqueCount).domainSize := by
    intro i hi
    obtain ⟨l, hl, hil⟩ := (hcollects.mem_scan i).mp hi
    obtain ⟨c, hc, rfl⟩ := List.mem_map.mp hl
    obtain ⟨k, hk, rfl⟩ := List.mem_map.mp hil
    have hdomain : (PartialPermutation.blank g.cliqueCount).domainSize = p.cliqueCount := by
      rw [← hcount]
      exact List.length_replicate
    refine ⟨Int.natCast_nonneg k, ?_⟩
    rw [hdomain]
    exact Int.ofNat_lt.mpr (hp.lt_of_mem_cliques hc hk)
  obtain ⟨q, hq⟩ := PartialPermutation.exists_pushAll (K := K) hscan
  exact ⟨g, q, hg, hq⟩

end ContactProblem

end ConvexContact
