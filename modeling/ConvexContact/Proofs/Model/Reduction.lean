import ConvexContact.Proofs.Coupling.Arrangement
import ConvexContact.Proofs.Index.BlockNumbering
import ConvexContact.Model.Basic

/-!
# Reduced models and their problems

A model that is built from a problem lists the constraints in the order of the clusters, and the
cliques that take part in the order of their numbers (`Model.order`, `Model.cliques`). `Model.Steps`
collects what the steps of the construction have computed, beginning with an arrangement of the
problem. What the reduced model has to do with the problem follows from it:

* the velocities of the model are those of these cliques, clique by clique;
* the equations of the model are those of the constraints, constraint by constraint in the order.

Proof shape: the construction is opened once, in `exists_steps`. Everything else is read off the
fields of `Steps`, mostly by the laws of `pick`.
-/

namespace ConvexContact

variable {K : Type}

/-! ## Numberings

Both numberings are made by pushing the indices of blocks, so both are known by the order of the
blocks alone (`PartialPermutation.NumbersBlocks`). -/

/-- The equations are those of the constraints, in the order of the clusters. -/
theorem Model.numberImpulses_eq (p : ContactProblem K) (g : ClusterGraph) : numberImpulses p g =
    (PartialPermutation.blank (total (p.constraints.map (·.equations)))).pushAll
      ((g.places.flatMap (blockIndices (p.constraints.map (·.equations)))).map Int.ofNat) := by
  rw [numberImpulses, ClusterGraph.places, List.flatMap_map]

namespace ContactProblem.Arranged

variable {p : ContactProblem K} {g : ClusterGraph} {q r : PartialPermutation}

/-- The velocities are numbered clique by clique. -/
theorem velocities_spec (h : p.Arranged g q) (hr : Model.numberVelocities p q = .ok r) :
    r.NumbersBlocks p.sizes q.inverse :=
  .of_pushAll h.cliques_valid.nodup hr

/-- The equations are numbered constraint by constraint. -/
theorem impulses_spec (h : p.Arranged g q) (hr : Model.numberImpulses p g = .ok r) :
    r.NumbersBlocks (p.constraints.map (·.equations)) g.places := by
  rw [Model.numberImpulses_eq] at hr
  exact .of_pushAll (h.places_perm.nodup_iff.mpr List.nodup_range) hr

end ContactProblem.Arranged

variable [Arith K]

namespace Model

/-- The steps of the construction of a model, with the factors of its dynamics matrices. -/
structure Steps (p : ContactProblem K) (m : Model K) (Ls : List (CholeskyFactor K)) : Prop
    extends p.Arranged m.graph m.cliques where
  format : m.format = p.format
  dynamics : m.cliques.gather p.dynamics = (.ok m.dynamics : Except (Error K) _)
  velocities : numberVelocities p m.cliques = .ok m.velocities
  impulses : numberImpulses p m.graph = .ok m.impulses
  vStar : ∃ w, m.velocities.gather p.vStar.entries = (.ok w : Except (Error K) _) ∧
    m.vStar = ⟨p.format, w⟩
  pStar : multiplyBlocks m.dynamics m.vStar = .ok m.pStar
  factors : factorAll m.cliques m.dynamics = .ok Ls
  delassus : estimateAll p m.graph m.cliques Ls = .ok m.delassus
  stack : Stack.build? p m.delassus.toTensor = .ok m.stack

/-- A model that was built went through all steps. -/
theorem exists_steps {p : ContactProblem K} {m : Model K} (h : build? p = .ok m) :
    ∃ Ls, Steps p m Ls := by
  obtain ⟨graph, hgraph, h⟩ := Outcome.bind_eq_ok.mp h
  obtain ⟨cliques, hcliques, h⟩ := Outcome.bind_eq_ok.mp h
  obtain ⟨dynamics, hdynamics, h⟩ := Outcome.bind_eq_ok.mp h
  obtain ⟨velocities, hvelocities, h⟩ := Outcome.bind_eq_ok.mp h
  obtain ⟨impulses, himpulses, h⟩ := Outcome.bind_eq_ok.mp h
  obtain ⟨w, hw, h⟩ := Outcome.bind_eq_ok.mp h
  obtain ⟨pStar, hpStar, h⟩ := Outcome.bind_eq_ok.mp h
  obtain ⟨Ls, hLs, h⟩ := Outcome.bind_eq_ok.mp h
  obtain ⟨delassus, hdelassus, h⟩ := Outcome.bind_eq_ok.mp h
  obtain ⟨stack, hstack, h⟩ := Outcome.bind_eq_ok.mp h
  -- the steps are in the order of the construction, so the fields take them as they come
  obtain rfl := Outcome.pure_eq_ok.mp h
  exact ⟨Ls, ⟨hgraph, hcliques⟩, rfl, hdynamics, hvelocities, himpulses, ⟨w, hw, rfl⟩, hpStar, hLs,
    hdelassus, hstack⟩

/-- What else a model that was built holds. -/
theorem fields_of_build {p : ContactProblem K} {m : Model K} (h : build? p = .ok m) :
    m.fullVelocityCount = p.velocityCount ∧
      m.invSqrtDynamics = invSqrtDiagonal p.format m.dynamics := by
  obtain ⟨graph, -, h⟩ := Outcome.bind_eq_ok.mp h
  obtain ⟨cliques, -, h⟩ := Outcome.bind_eq_ok.mp h
  obtain ⟨dynamics, -, h⟩ := Outcome.bind_eq_ok.mp h
  obtain ⟨velocities, -, h⟩ := Outcome.bind_eq_ok.mp h
  obtain ⟨impulses, -, h⟩ := Outcome.bind_eq_ok.mp h
  obtain ⟨w, -, h⟩ := Outcome.bind_eq_ok.mp h
  obtain ⟨pStar, -, h⟩ := Outcome.bind_eq_ok.mp h
  obtain ⟨Ls, -, h⟩ := Outcome.bind_eq_ok.mp h
  obtain ⟨delassus, -, h⟩ := Outcome.bind_eq_ok.mp h
  obtain ⟨stack, -, h⟩ := Outcome.bind_eq_ok.mp h
  obtain rfl := Outcome.pure_eq_ok.mp h
  exact ⟨rfl, rfl⟩

/-- The places of the constraints, in the order of the stack. -/
def order (m : Model K) : List Nat := m.graph.places

/-- The velocities that the model has of the full ones. -/
def reduced (m : Model K) (V : Vec K) : Vec K := ⟨V.format, m.velocities.inverse.map V.get⟩

namespace Steps

variable {p : ContactProblem K} {m : Model K} {Ls : List (CholeskyFactor K)}

/-! ## The order of the constraints -/

/-- The graph names the constraints by numbers that are never negative. -/
theorem graph_order (h : Steps p m Ls) : m.graph.order = m.order.map Int.ofNat :=
  h.toArranged.graph_order

/-- Each constraint stands in the order once. -/
theorem order_perm (h : Steps p m Ls) : m.order.Perm (List.range p.constraints.length) :=
  h.places_perm

/-- The order names constraints of the problem. -/
theorem lt_of_mem_order (h : Steps p m Ls) : ∀ i ∈ m.order, i < p.constraints.length :=
  h.lt_of_mem_places

/-- Looking the constraints up one by one picks them from the problem. -/
theorem mapM_constraintAt (h : Steps p m Ls) :
    m.graph.order.mapM p.constraintAt = .ok (pick p.constraints m.order) :=
  h.toArranged.mapM_constraintAt

/-! ## The cliques that take part -/

/-- The dynamics matrices are those of the cliques that take part. -/
theorem dynamics_eq (h : Steps p m Ls) : m.dynamics = pick p.dynamics m.cliques.inverse :=
  (PartialPermutation.gather_eq_ok.mp h.dynamics).2

/-- The model has no dynamics matrix of its own. -/
theorem mem_dynamics (h : Steps p m Ls) {A : Mat K} (hA : A ∈ m.dynamics) : A ∈ p.dynamics := by
  rw [h.dynamics_eq] at hA
  obtain ⟨c, -, hc⟩ := List.mem_filterMap.mp hA
  exact List.mem_of_getElem? hc

/-- The dynamics matrix with number `k` is that of the clique with this number. -/
theorem getElem?_dynamics (h : Steps p m Ls) {k c : Nat} (hk : m.cliques.inverse[k]? = some c) :
    m.dynamics[k]? = p.dynamics[c]? := by
  rw [h.dynamics_eq, getElem?_pick h.lt_of_mem_cliques hk]

/-- Each dynamics matrix is symmetric within the tolerance, holds fractions and has a factor. -/
theorem exists_factor (h : Steps p m Ls) {k : Nat} {A : Mat K} (hA : m.dynamics[k]? = some A) :
    ∃ L, Ls[k]? = some L ∧ A.nearlySymmetric = true ∧ A.format.isFloating = true ∧
      CholeskyFactor.ofMat? A = some L := by
  obtain ⟨L, hL, hfactor⟩ := Outcome.getElem?_of_mapM h.factors (getElem?_zipIdx_of_eq hA)
  obtain ⟨clique, -, hfactor⟩ := Outcome.bind_eq_ok.mp hfactor
  -- the checks of one matrix, each of which would have failed the construction
  unfold factor at hfactor
  split at hfactor
  · cases hfactor
  · rename_i hsymmetric
    split at hfactor
    · cases hfactor
    · rename_i hfloating
      split at hfactor
      · rename_i L' hofMat
        obtain rfl := Except.ok.inj hfactor
        exact ⟨L', hL, by simpa using hsymmetric, by simpa using hfloating, hofMat⟩
      · cases hfactor

/-- The sizes are those of the cliques that take part. -/
theorem sizes_eq (h : Steps p m Ls) :
    m.sizes = m.cliques.inverse.map fun c => p.sizes.getD c 0 := by
  rw [sizes, h.dynamics_eq]
  exact h.map_rows_pick

/-- The size of a clique goes with it when the cliques are numbered. -/
theorem getD_sizes (h : Steps p m Ls) {k c : Nat} (hk : m.cliques.inverse[k]? = some c) :
    m.sizes.getD k 0 = p.sizes.getD c 0 := by
  rw [h.sizes_eq, List.getD_eq_getElem?_getD, List.getElem?_map, hk]
  rfl

/-! ## The velocities -/

/-- The velocities of the model are numbered by the sizes of the problem. -/
theorem velocities_spec (h : Steps p m Ls) :
    m.velocities.NumbersBlocks p.sizes m.cliques.inverse :=
  h.toArranged.velocities_spec h.velocities

/-- The velocities of a clique have their numbers one after the other. -/
theorem number?_velocity (h : Steps p m Ls) {k c l : Nat} (hk : m.cliques.inverse[k]? = some c)
    (hl : l < p.sizes.getD c 0) :
    m.velocities.number? (offset p.sizes c + l) = some (offset m.sizes k + l) := by
  rw [h.sizes_eq]
  exact h.velocities_spec.number?_offset_add hk hl

/-- Reduced velocities are as many as the model has. -/
theorem size_reduced (h : Steps p m Ls) (V : Vec K) : (reduced m V).size = m.velocityCount := by
  rw [velocityCount, h.sizes_eq, ← h.velocities_spec.length_inverse]
  exact List.length_map _

/-- The velocities of the clique with number `k` are those of the clique. -/
theorem coord_reduced {R : Type} [CommRing R] (φ : Reading K R) (h : Steps p m Ls) (V : Vec K)
    {k c l : Nat} (hk : m.cliques.inverse[k]? = some c) (hl : l < p.sizes.getD c 0) :
    (reduced m V).coord φ m.sizes k l = V.coord φ p.sizes c l := by
  have hentry := getD_map_flatMap_blockIndices V.get 0 hk hl
  rw [Vec.coord, Vec.coord, Vec.get, reduced, h.velocities_spec.inverse, h.sizes_eq, hentry]

/-- Velocities are gathered from full ones. -/
theorem gather_velocities (h : Steps p m Ls) {V : Vec K} (hV : V.size = p.velocityCount) :
    m.velocities.gatherTensor V.toTensor = .ok (reduced m V).toTensor := by
  obtain ⟨hvalid, hdomain, -⟩ := h.velocities_spec
  exact hvalid.gatherTensor_toTensor (hV.trans hdomain.symm)

/-- The velocities of free motion are reduced like all others. -/
theorem vStar_eq (h : Steps p m Ls) : m.vStar = reduced m p.vStar := by
  obtain ⟨w, hw, hvStar⟩ := h.vStar
  obtain ⟨hlength, rfl⟩ := PartialPermutation.gather_eq_ok.mp hw
  rw [hvStar, pick_eq_map (fun i hi => ?_) 0]
  · rfl
  · rw [hlength]
    exact h.velocities_spec.valid.lt_of_mem hi

/-! ## The equations -/

/-- The equations of the model are numbered by the constraints of the problem. -/
theorem impulses_spec (h : Steps p m Ls) :
    m.impulses.NumbersBlocks (p.constraints.map (·.equations)) m.order :=
  h.toArranged.impulses_spec h.impulses

end Steps

end Model

end ConvexContact
