import ConvexContact.Proofs.Linear.GridEntries
import ConvexContact.Proofs.Model.Delassus
import ConvexContact.Proofs.Coupling.ClusterGraph

/-!
# Where the Jacobian has blocks

The Jacobian of a model that was built has a block where the constraint of the row couples the
clique of the column (`Model.Steps.clique_of_block?`). Blocks in one row belong to one constraint,
so a cluster holds the cliques of their columns (`Model.Steps.couples_of_block?`).
-/

namespace ConvexContact.Model

variable {K : Type} [ExactField K] {p : ContactProblem K} {m : Model K}
  {Ls : List (CholeskyFactor K)}

omit [ExactField K] in
/-- Some cluster holds the cliques with the numbers `a` and `b`. -/
def couples (m : Model K) (a b : Nat) : Prop :=
  ∃ cluster ∈ m.graph.clusters, ∀ k ∈ [a, b], ∃ c : Nat,
    m.cliques.inverse[k]? = some c ∧ (c : Int) ∈ cluster.cliques.cliques

namespace Steps

/-- The blocks of the Jacobian are those of the constraints, each at the number of its clique. -/
theorem lists (h : Steps p m Ls) :
    m.stack.J.Lists (placed m.cliques (pick p.constraints m.order)) :=
  have ⟨_, hparts⟩ := h.exists_parts
  hparts.lists

/-- Where a row has a block, the constraint of the row couples the clique of the column. -/
theorem clique_of_block? (h : Steps p m Ls) {k a : Nat} {B : Mat K}
    (hB : m.stack.J.block? k a = some B) :
    ∃ c, (pick p.constraints m.order)[k]? = some c ∧ ∃ b ∈ c.blocks,
      m.cliques.inverse[a]? = some b.clique ∧ B = b.jacobian :=
  h.clique_of_mem_placed (h.lists.mem_of_block? hB)

/-- Where a row has two blocks, a cluster holds the cliques of both columns. -/
theorem couples_of_block? (h : Steps p m Ls) {k a b : Nat} {A B : Mat K}
    (hA : m.stack.J.block? k a = some A) (hB : m.stack.J.block? k b = some B) :
    m.couples a b := by
  obtain ⟨c, hc, x, hx, hax, -⟩ := h.clique_of_block? hA
  obtain ⟨c', hc', y, hy, hby, -⟩ := h.clique_of_block? hB
  -- both blocks belong to the constraint of the row, and its cliques are in one cluster
  obtain rfl : c = c' := Option.some.inj (hc.symm.trans hc')
  obtain ⟨pair, hpair, hcovers⟩ := ContactProblem.covers_graph h.graph
    (c.cliques.map Int.ofNat) (List.mem_map_of_mem (h.mem_of_getElem?_pick hc))
  obtain ⟨cluster, hcluster, rfl⟩ := List.mem_map.mp hpair
  have hheld : ∀ d ∈ c.blocks, (d.clique : Int) ∈ cluster.cliques.cliques :=
    fun d hd => hcovers _ (List.mem_map_of_mem (List.mem_map_of_mem hd))
  refine ⟨cluster, hcluster, fun l hl => ?_⟩
  rcases List.mem_cons.mp hl with rfl | hl
  · exact ⟨x.clique, hax, hheld x hx⟩
  · obtain rfl := List.mem_singleton.mp hl
    exact ⟨y.clique, hby, hheld y hy⟩

/-- Without constraints a model is empty. -/
theorem without_constraints (h : Steps p m Ls) (hnone : p.constraints = []) :
    m.dynamics = [] ∧ m.stack.members = [] ∧ m.stack.J.heights = [] := by
  obtain ⟨laws, hparts⟩ := h.exists_parts
  have hpick : pick p.constraints m.order = [] := by
    rw [hnone]
    simp [pick]
  have hcliques : m.cliques.inverse = [] := by
    rw [List.eq_nil_iff_forall_not_mem]
    intro c hc
    obtain ⟨con, hcon, -⟩ := h.mem_cliques.mp hc
    rw [hnone] at hcon
    cases hcon
  refine ⟨?_, ?_, ?_⟩
  · rw [h.dynamics_eq, hcliques]
    rfl
  · rw [hparts.members, hpick, List.zipWith_nil_right]
  · rw [hparts.heights_eq, hpick]
    rfl

end Steps

end ConvexContact.Model
