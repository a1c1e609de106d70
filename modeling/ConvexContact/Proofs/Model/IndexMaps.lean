import ConvexContact.Proofs.Model.Assembly

/-!
# Agreement of the index maps

A model keeps three numberings, of cliques, of velocities and of equations, and its stack has tables
of offsets for the rows and for the columns of the Jacobian. All of them are computed apart. They
agree:

* velocities are numbered as the cliques they belong to, and the numbers of the velocities of a
  clique are the columns of the Jacobian that belong to it (`Model.NumbersVelocities`);
* equations are numbered as the constraints they belong to, all of them, and the numbers of the
  equations of a constraint are the rows of the Jacobian that belong to it
  (`Model.NumbersEquations`);
* so data that is joined block by block is gathered block by block (`Model.GathersByBlock`).

Proof shape: each numbering is known by `PartialPermutation.NumbersBlocks`, which says how it was
made from blocks, and each table of offsets by the sizes it adds up. The statements compare the two
through one equation each, `sizes_eq` for cliques and `heights_eq` for constraints.

Main statement: `Model.index_maps_agree`.
-/

namespace ConvexContact.Model

variable {K : Type} [Arith K]

/-- Velocity `l` of clique `c` takes part when the clique does. With number `j` of the clique, its
number is `l` behind the sizes of the cliques numbered before, which is place `l` in the slice of
column `j` of the Jacobian. -/
def NumbersVelocities (p : ContactProblem K) (m : Model K) : Prop :=
  ∀ c l : Nat, l < p.sizes.getD c 0 → ∃ first b, p.offsetAt c = .ok first ∧
    m.velocities.participates (first + l : Nat) = (.ok b : Except (Error K) Bool) ∧
    m.cliques.participates c = (.ok b : Except (Error K) Bool) ∧
    (b = true → ∃ j start stop,
      m.cliques.permutedIndex c = (.ok j : Except (Error K) Nat) ∧
      start = total ((m.cliques.inverse.take j).map fun d => p.sizes.getD d 0) ∧
      m.velocities.permutedIndex (first + l : Nat) = (.ok (start + l) : Except (Error K) Nat) ∧
      BlockGrid.sliceAt m.stack.J.widths j = (.ok (start, stop) : Except (Error K) _) ∧
      start + l < stop)

/-- The equations of the problem and their numbers are one to one, and equation `l` of a constraint
has its number `l` behind the offset in the stack of the constraint's place in the order. -/
structure NumbersEquations (p : ContactProblem K) (m : Model K) : Prop where
  domainSize : m.impulses.domainSize = p.equationCount
  size : m.impulses.size = p.equationCount
  number_of_equation : ∀ e < p.equationCount, ∃ n < p.equationCount,
    m.impulses.permutedIndex e = (.ok n : Except (Error K) Nat) ∧
      m.impulses.domainIndex n = (.ok e : Except (Error K) Nat)
  equation_of_number : ∀ n < p.equationCount, ∃ e < p.equationCount,
    m.impulses.domainIndex n = (.ok e : Except (Error K) Nat) ∧
      m.impulses.permutedIndex e = (.ok n : Except (Error K) Nat)
  offset : ∀ (i : Nat) (c : Constraint K), p.constraints[i]? = some c → ∃ k start,
    (∀ k' : Nat, m.graph.order[k']? = some (i : Int) ↔ k' = k) ∧
      m.stack.offsets[k]? = some start ∧
      ∀ l < c.equations, m.impulses.permutedIndex
        (total ((p.constraints.take i).map (·.equations)) + l : Nat) =
          (.ok (start + l) : Except (Error K) Nat)

/-- Gathering from joined blocks gives the gathered blocks, joined: for velocities from the blocks
of all cliques, for equations from the blocks of all constraints, which are put in the order of the
clusters. This holds of lists, and of tensors cut along their first axis into slabs of one shape. -/
structure GathersByBlock (p : ContactProblem K) (m : Model K) : Prop where
  velocities : ∀ {α : Type} (blocks : List (List α)), blocks.map List.length = p.sizes →
    ∃ chosen, m.cliques.gather blocks = (.ok chosen : Except (Error K) _) ∧
      m.velocities.gather blocks.flatten = (.ok chosen.flatten : Except (Error K) _)
  velocityTensors : ∀ (f : Format) (shape : List Nat) (blocks : List (List (List K))),
    (∀ xs ∈ blocks, ∀ x ∈ xs, x.length = Shape.size shape) → blocks.map List.length = p.sizes →
    ∃ chosen, m.cliques.gather blocks = (.ok chosen : Except (Error K) _) ∧
      m.velocities.gatherTensor (Tensor.ofSlabs f shape blocks.flatten) =
        .ok (Tensor.ofSlabs f shape chosen.flatten)
  impulses : ∀ {α : Type} (blocks : List (List α)),
    blocks.map List.length = p.constraints.map (·.equations) →
    ∃ chosen, List.Forall₂ (fun i xs => atSigned? blocks i = some xs) m.graph.order chosen ∧
      m.impulses.gather blocks.flatten = (.ok chosen.flatten : Except (Error K) _)
  impulseTensors : ∀ (f : Format) (shape : List Nat) (blocks : List (List (List K))),
    (∀ xs ∈ blocks, ∀ x ∈ xs, x.length = Shape.size shape) →
    blocks.map List.length = p.constraints.map (·.equations) →
    ∃ chosen, List.Forall₂ (fun i xs => atSigned? blocks i = some xs) m.graph.order chosen ∧
      m.impulses.gatherTensor (Tensor.ofSlabs f shape blocks.flatten) =
        .ok (Tensor.ofSlabs f shape chosen.flatten)

namespace Steps

variable {p : ContactProblem K} {m : Model K} {Ls : List (CholeskyFactor K)}

/-! ## Velocities -/

/-- **Velocities.** They are numbered as their cliques. -/
theorem numbersVelocities (h : Steps p m Ls) : NumbersVelocities p m := by
  intro c l hl
  have hc : c < p.sizes.length := lt_length_of_lt_size hl
  have hfirst : p.offsetAt c = .ok (offset p.sizes c) := by
    rw [ContactProblem.offsetAt, atSigned?_natCast, getElem?_offsets _ (Nat.le_of_lt hc)]
  have hvelocity : offset p.sizes c + l < m.velocities.domainSize := by
    rw [h.velocities_spec.domainSize]
    exact offset_add_lt hl
  have hclique : c < m.cliques.domainSize := by
    rw [h.cliques_spec.2.1]
    rwa [ContactProblem.sizes, List.length_map] at hc
  refine ⟨offset p.sizes c, (m.cliques.number? c).isSome, hfirst, ?_,
    PartialPermutation.participates_of_lt hclique, fun htakes => ?_⟩
  · rw [PartialPermutation.participates_of_lt hvelocity]
    -- a velocity has a number if its clique has one, and not otherwise
    cases hj : m.cliques.number? c with
    | none =>
      have hout := h.cliques_valid.number?_eq_none_iff.mp hj
      rw [h.velocities_spec.number?_eq_none hout hl]
    | some j =>
      have hinverse := (h.cliques_valid.number?_eq_some_iff c j).mp hj
      rw [h.number?_velocity hinverse hl]
      rfl
  · obtain ⟨j, hj⟩ := Option.isSome_iff_exists.mp htakes
    have hinverse := (h.cliques_valid.number?_eq_some_iff c j).mp hj
    obtain ⟨laws, hparts⟩ := h.exists_parts
    -- the columns were cut with the sizes that number the velocities
    have hwidths : m.stack.J.widths = m.sizes := hparts.widths_eq.trans h.sizes_eq.symm
    have hlt : l < m.sizes.getD j 0 := by
      rw [h.getD_sizes hinverse]
      exact hl
    have hstart : offset m.sizes j =
        total ((m.cliques.inverse.take j).map fun d => p.sizes.getD d 0) := by
      rw [offset, h.sizes_eq, List.map_take]
    refine ⟨j, offset m.sizes j, offset m.sizes (j + 1),
      PartialPermutation.permutedIndex_eq_ok.mpr hj, hstart,
      PartialPermutation.permutedIndex_eq_ok.mpr (h.number?_velocity hinverse hl), ?_, ?_⟩
    · rw [hwidths]
      exact BlockGrid.sliceAt_of_lt (lt_length_of_lt_size hlt)
    · rw [offset_add_size]
      omega

/-! ## Equations

All constraints take part, unlike cliques. So the numbering of the equations rearranges all of them,
and every number is that of an equation. -/

/-- The rows of the Jacobian are as many as the equations of the constraints, in the order. -/
theorem heights_eq (h : Steps p m Ls) : m.stack.J.heights =
    m.order.map fun i => (p.constraints.map (·.equations)).getD i 0 := by
  obtain ⟨laws, hparts⟩ := h.exists_parts
  rw [hparts.heights_eq, map_pick]
  refine pick_eq_map (fun i hi => ?_) 0
  rw [List.length_map]
  exact h.lt_of_mem_order i hi

/-- There are as many numbers as equations. -/
theorem size_impulses (h : Steps p m Ls) : m.impulses.size = m.impulses.domainSize := by
  have hperm : m.order.Perm (List.range (p.constraints.map (·.equations)).length) := by
    rw [List.length_map]
    exact h.order_perm
  have hlt : ∀ i ∈ m.order, i < (p.constraints.map (·.equations)).length :=
    fun i hi => List.mem_range.mp (hperm.mem_iff.mp hi)
  rw [PartialPermutation.size, h.impulses_spec.length_inverse, h.impulses_spec.domainSize,
    ← pick_eq_map hlt, total_eq_sum, total_eq_sum, (pick_perm hperm).sum_eq]

/-- A constraint has one place in the order. -/
theorem exists_place (h : Steps p m Ls) {i : Nat} (hi : i < p.constraints.length) :
    ∃ k, m.order[k]? = some i ∧ ∀ k' : Nat, m.graph.order[k']? = some (i : Int) ↔ k' = k := by
  obtain ⟨k, hk⟩ := List.mem_iff_getElem?.mp
    (h.order_perm.mem_iff.mpr (List.mem_range.mpr hi))
  have hnodup : m.order.Nodup := h.order_perm.nodup_iff.mpr List.nodup_range
  refine ⟨k, hk, fun k' => ?_⟩
  have horder : m.graph.order[k']? = some (i : Int) ↔ m.order[k']? = some i := by
    rw [h.graph_order, List.getElem?_map, Option.map_eq_some_iff]
    exact ⟨fun ⟨j, hj, hji⟩ => Int.ofNat.inj hji ▸ hj, fun hj => ⟨i, hj, rfl⟩⟩
  rw [horder]
  constructor
  · intro hk'
    exact (List.getElem?_inj (List.getElem?_eq_some_iff.mp hk').1 hnodup).mp (hk'.trans hk.symm)
  · rintro rfl
    exact hk

/-- **Equations.** They are numbered as their constraints, and all of them are. -/
theorem numbersEquations (hp : p.Constructed) (h : Steps p m Ls) : NumbersEquations p m := by
  have hvalid := h.impulses_spec.valid
  have hdomain : m.impulses.domainSize = p.equationCount := by
    rw [h.impulses_spec.domainSize, hp.equationCount_eq]
  have hsize : m.impulses.size = p.equationCount := h.size_impulses.trans hdomain
  -- no constraint is left out, so every equation has a number
  have hall : ∀ i < (p.constraints.map (·.equations)).length, i ∈ m.order := by
    intro i hi
    rw [List.length_map] at hi
    exact h.order_perm.mem_iff.mpr (List.mem_range.mpr hi)
  refine ⟨hdomain, hsize, fun e he => ?_, fun n hn => ?_, fun i c hc => ?_⟩
  · rw [← hdomain] at he
    obtain ⟨n, hn⟩ := List.mem_iff_getElem?.mp (h.impulses_spec.mem_inverse hall he)
    refine ⟨n, ?_, PartialPermutation.permutedIndex_eq_ok.mpr
      ((hvalid.number?_eq_some_iff e n).mpr hn), PartialPermutation.domainIndex_eq_ok.mpr hn⟩
    rw [← hsize]
    exact (List.getElem?_eq_some_iff.mp hn).1
  · have hlt : n < m.impulses.inverse.length := hn.trans_eq hsize.symm
    have he : m.impulses.inverse[n]? = some _ := List.getElem?_eq_getElem hlt
    refine ⟨_, ?_, PartialPermutation.domainIndex_eq_ok.mpr he,
      PartialPermutation.permutedIndex_eq_ok.mpr ((hvalid.number?_eq_some_iff _ n).mpr he)⟩
    rw [← hdomain]
    exact hvalid.lt_of_mem (List.getElem_mem hlt)
  · have hi : i < p.constraints.length := (List.getElem?_eq_some_iff.mp hc).1
    obtain ⟨k, hk, hplace⟩ := h.exists_place hi
    obtain ⟨laws, hparts⟩ := h.exists_parts
    have hpick : (pick p.constraints m.order)[k]? = some c := by
      rw [getElem?_pick h.lt_of_mem_order hk, hc]
    have hequations : (p.constraints.map (·.equations)).getD i 0 = c.equations := by
      rw [List.getD_eq_getElem?_getD, List.getElem?_map, hc]
      rfl
    refine ⟨k, offset m.stack.J.heights k, hplace, hparts.getElem?_offsets hpick, fun l hl => ?_⟩
    rw [PartialPermutation.permutedIndex_eq_ok, h.heights_eq, List.map_take]
    exact h.impulses_spec.number?_offset_add hk (by rw [hequations]; exact hl)

/-! ## Blocks -/

/-- **Blocks.** Joined blocks are gathered block by block. -/
theorem gathersByBlock (h : Steps p m Ls) : GathersByBlock p m := by
  -- blocks in the order of the numbers, for cliques and for constraints
  have hcliques : ∀ {α : Type} (blocks : List (List α)), blocks.map List.length = p.sizes →
      m.cliques.gather (K := K) blocks = .ok (pick blocks m.cliques.inverse) ∧
        ∀ c ∈ m.cliques.inverse, c < blocks.length := by
    intro α blocks hblocks
    have hlength : blocks.length = m.cliques.domainSize := by
      rw [h.cliques_spec.2.1, ← List.length_map List.length, hblocks, ContactProblem.sizes,
        List.length_map]
      rfl
    refine ⟨PartialPermutation.gather_eq_ok.mpr ⟨hlength, rfl⟩, fun c hc => ?_⟩
    rw [hlength]
    exact h.cliques_valid.lt_of_mem hc
  have hconstraints : ∀ {α : Type} (blocks : List (List α)),
      blocks.map List.length = p.constraints.map (·.equations) →
      List.Forall₂ (fun i xs => atSigned? blocks i = some xs) m.graph.order
        (pick blocks m.order) ∧ ∀ i ∈ m.order, i < blocks.length := by
    intro α blocks hblocks
    have hlt : ∀ i ∈ m.order, i < blocks.length := by
      intro i hi
      rw [← List.length_map List.length, hblocks, List.length_map]
      exact h.lt_of_mem_order i hi
    refine ⟨?_, hlt⟩
    rw [h.graph_order, List.forall₂_map_left_iff]
    exact (forall₂_pick hlt).imp fun i xs hi => by
      rw [Int.ofNat_eq_natCast, atSigned?_natCast, hi]
  constructor
  case velocities =>
    intro α blocks hblocks
    obtain ⟨hgather, hlt⟩ := hcliques blocks hblocks
    have hnumbers := h.velocities_spec
    rw [← hblocks] at hnumbers
    exact ⟨_, hgather, hnumbers.gather_flatten hlt⟩
  case velocityTensors =>
    intro f shape blocks hshape hblocks
    obtain ⟨hgather, hlt⟩ := hcliques blocks hblocks
    have hnumbers := h.velocities_spec
    rw [← hblocks] at hnumbers
    exact ⟨_, hgather, hnumbers.gatherTensor_ofSlabs f hlt hshape⟩
  case impulses =>
    intro α blocks hblocks
    obtain ⟨horder, hlt⟩ := hconstraints blocks hblocks
    have hnumbers := h.impulses_spec
    rw [← hblocks] at hnumbers
    exact ⟨_, horder, hnumbers.gather_flatten hlt⟩
  case impulseTensors =>
    intro f shape blocks hshape hblocks
    obtain ⟨horder, hlt⟩ := hconstraints blocks hblocks
    have hnumbers := h.impulses_spec
    rw [← hblocks] at hnumbers
    exact ⟨_, horder, hnumbers.gatherTensor_ofSlabs f hlt hshape⟩

end Steps

/-! ## Models that were built -/

/-- **Index maps.** The numberings of a model that was built, the offsets of its stack and the
slices of its Jacobian agree. -/
theorem index_maps_agree {p : ContactProblem K} (hp : p.Constructed) {m : Model K}
    (hm : build? p = .ok m) :
    NumbersVelocities p m ∧ NumbersEquations p m ∧ GathersByBlock p m := by
  obtain ⟨Ls, h⟩ := exists_steps hm
  exact ⟨h.numbersVelocities, h.numbersEquations hp, h.gathersByBlock⟩

/-- Two of four cliques take part, the last one first, and the constraints on it come before those
between the two. -/
theorem index_maps_agree_sample :
    ∃ (p : ContactProblem ℚ) (m : Model ℚ), ContactProblem.interleavedSample? = .ok p ∧
      build? p = .ok m ∧ m.cliques.inverse = [3, 1] ∧ m.graph.order = [0, 2, 1, 3, 4] ∧
      NumbersVelocities p m ∧ NumbersEquations p m ∧ GathersByBlock p m := by
  obtain ⟨p, hp, h⟩ := Outcome.exists_of_check (x := ContactProblem.interleavedSample?)
    (P := fun p => (build? p).toOption.any fun m =>
      m.cliques.inverse == [3, 1] && m.graph.order == [0, 2, 1, 3, 4]) (by decide +kernel)
  obtain ⟨m, hm, h⟩ := Outcome.exists_of_check h
  simp only [Bool.and_eq_true, beq_iff_eq] at h
  exact ⟨p, m, hp, hm, h.1, h.2,
    index_maps_agree (ContactProblem.constructed_interleavedSample hp) hm⟩

end ConvexContact.Model
