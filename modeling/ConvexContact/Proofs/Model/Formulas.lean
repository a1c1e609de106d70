import ConvexContact.Proofs.Index.Pick
import ConvexContact.Proofs.Linear.BlockGrid
import ConvexContact.Proofs.Evaluation.Trace

/-!
# The quantities in coordinates

For a model whose parts fit together (`Model.WellFormed`), and velocities `v` that fit the model,
the quantities have the coordinates that the formulas of the model say, whatever kind of numbers it
is evaluated on:

* the momentum gain is `Σⱼ A[k,i,j]·(v - v*)[k,j]`;
* the unprojected impulses are `-R⁻¹·(Σ J·v - v̂)`, where the sum is over the blocks of a row;
* the impulses are what the members of the stack make of their parts of these;
* the cost is `½(v - v*)·A·(v - v*) + ½γ·R·γ`, and its gradient `A·(v - v*) - Jᵀ·γ`.

Where a formula has no way to fail, the quantity is shown to have a value.

Proof shape: there is one lemma for each quantity, which names its value, its size, its format and
its coordinates. The sizes and formats are what the next formula asks of its operands, so each lemma
hands on what the following one needs, and no later module opens a formula again.
-/

namespace ConvexContact

variable {K R : Type} [Arith K] [CommRing R] (φ : Reading K R)

/-- Entry `i, j` of matrix `k` of a list. -/
def entryOf (A : List (Mat K)) (k i j : Nat) : K :=
  match A[k]? with
  | some B => B.get i j
  | none => 0

omit [CommRing R] in
/-- Where there is a matrix, the entries are its own. -/
theorem entryOf_of_getElem? {A : List (Mat K)} {k : Nat} {B : Mat K} (hB : A[k]? = some B) :
    entryOf A k = B.get := by
  funext i j
  rw [entryOf, hB]

/-- A product with a list of square matrices, taken block by block. -/
theorem Model.multiplyBlocks_of_fits {A : List (Mat K)} {v : Vec K}
    (hsquare : ∀ B ∈ A, B.cols = B.rows) (hformat : ∀ B ∈ A, B.format = v.format)
    (hf : v.format ≠ .boolean) (hv : v.size = total (A.map (·.rows))) :
    ∃ w, multiplyBlocks A v = .ok w ∧ w.size = v.size ∧ w.format = v.format ∧
      ∀ k i, i < (A.map (·.rows)).getD k 0 → w.coord φ (A.map (·.rows)) k i =
        ∑ j ∈ Finset.range ((A.map (·.rows)).getD k 0),
          φ (entryOf A k i j) * v.coord φ (A.map (·.rows)) k j := by
  generalize hsizes : A.map (·.rows) = sizes at *
  have hrows : ∀ k B, A[k]? = some B → sizes.getD k 0 = B.rows := by
    intro k B hB
    simp [← hsizes, List.getD_eq_getElem?_getD, hB]
  -- the product of each matrix with its block of the vector
  let piece : Mat K × Nat → Vec K := fun Bk => Bk.1.mulVec (v.block sizes Bk.2)
  -- no product fails, since the blocks are cut to the sizes of the matrices
  have hpiece : ∀ Bk ∈ A.zipIdx, Bk.1.mulVec? (v.block sizes Bk.2) = .ok (piece Bk) := by
    intro Bk hBk
    have hB : A[Bk.2]? = some Bk.1 := List.mem_zipIdx_iff_getElem?.mp hBk
    have hmem := List.mem_of_getElem? hB
    refine Mat.mulVec?_of_fits (hformat _ hmem) ?_ (by rw [hformat _ hmem]; exact hf)
    rw [hsquare _ hmem, Vec.size_block hv, hrows _ _ hB]
  have hpieces : A.zipIdx.mapM (fun Bk => Bk.1.mulVec? (v.block sizes Bk.2)) =
      .ok (A.zipIdx.map piece) := Outcome.mapM_of_forall hpiece
  -- the pieces have the sizes of the blocks, so joined they are cut at the same places
  have hpsizes : (A.zipIdx.map piece).map Vec.size = sizes := by
    have hsize : (Vec.size ∘ piece) = (fun B : Mat K => B.rows) ∘ Prod.fst :=
      funext fun Bk => Mat.size_mulVec _ _
    rw [List.map_map, hsize, ← List.map_map, List.zipIdx_map_fst, hsizes]
  refine ⟨Vec.concat v.format (A.zipIdx.map piece), ?_, ?_, ?_, ?_⟩
  -- the value is the pieces joined
  · rw [multiplyBlocks, hsizes]
    simp only [hv, ne_eq, not_true_eq_false, if_false]
    exact Outcome.bind_of_ok _ hpieces
  · rw [Vec.size_concat, hpsizes, hv]
  · apply Vec.format_concat
    intro w hw
    obtain ⟨Bk, hBk, rfl⟩ := List.mem_map.mp hw
    exact hformat _ (List.fst_mem_of_mem_zipIdx hBk)
  -- a coordinate of the joined vector is one of its piece, which is a row against the block
  · intro k i hi
    have hk : k < A.length := by
      rw [← List.length_map (fun B : Mat K => B.rows), hsizes]
      exact lt_length_of_lt_size hi
    have hB : A[k]? = some A[k] := List.getElem?_eq_getElem hk
    have hget : (A.zipIdx.map piece)[k]? = some (piece (A[k], k)) := by
      simp [hB]
    have hcols : A[k].cols = sizes.getD k 0 := by
      rw [hsquare _ (List.getElem_mem hk), hrows _ _ hB]
    have hcoord := Vec.coord_concat φ (f := v.format) hget (l := i)
      (by rw [Mat.size_mulVec, ← hrows _ _ hB]; exact hi)
    rw [hpsizes] at hcoord
    rw [hcoord, Mat.map_get_mulVec φ (by rw [Vec.size_block hv, hcols]), hcols]
    apply Finset.sum_congr rfl
    intro j hj
    rw [Vec.map_get_block φ (Finset.mem_range.mp hj)]
    simp [entryOf, hB]

namespace Model

/-- A model whose parts fit together; `ts` lists the blocks of its Jacobian. -/
structure WellFormed (m : Model K) (ts : List (PlacedBlock K)) : Prop where
  floating : m.format.isFloating = true
  square : ∀ A ∈ m.dynamics, A.cols = A.rows
  dynamics_format : ∀ A ∈ m.dynamics, A.format = m.format
  vStar_size : m.vStar.size = m.velocityCount
  vStar_format : m.vStar.format = m.format
  pStar_size : m.pStar.size = m.velocityCount
  pStar_format : m.pStar.format = m.format
  pStar_coord : ∀ (R : Type) [CommRing R] (φ : Reading K R) (k i : Nat), i < m.sizes.getD k 0 →
    m.pStar.coord φ m.sizes k i = ∑ j ∈ Finset.range (m.sizes.getD k 0),
      φ (entryOf m.dynamics k i j) * m.vStar.coord φ m.sizes k j
  lists : m.stack.J.Lists ts
  heights : m.stack.J.heights = m.stack.members.map (·.equations)
  widths : m.stack.J.widths = m.sizes
  block_format : ∀ t ∈ ts, t.block.format = m.format
  R_size : m.stack.R.size = total m.stack.J.heights
  R_format : m.stack.R.format = m.format
  vHat_size : m.stack.vHat.size = total m.stack.J.heights
  vHat_format : m.stack.vHat.format = m.format
  Rinv_size : m.stack.Rinv.size = total m.stack.J.heights
  Rinv_format : m.stack.Rinv.format = m.format

/-- Velocities that fit a model. -/
structure Fits (m : Model K) (v : Vec K) : Prop where
  size : v.size = m.velocityCount
  format : v.format = m.format

omit [Arith K] in
/-- The size of a clique is that of its dynamics matrix. -/
theorem getD_sizes_of_dynamics {m : Model K} {k : Nat} {A : Mat K}
    (hA : m.dynamics[k]? = some A) : m.sizes.getD k 0 = A.rows := by
  rw [sizes, List.getD_eq_getElem?_getD, List.getElem?_map, hA]
  rfl

omit [Arith K] in
/-- Truth values are no fractions, so products and differences of fractions are not refused. -/
theorem ne_boolean_of_floating {f : Format} (h : f.isFloating = true) : f ≠ .boolean := by
  rintro rfl
  cases h

variable {m : Model K} {ts : List (PlacedBlock K)} {v : Vec K}

/-- A block of equations has as many as its member of the stack. -/
theorem WellFormed.getD_heights (h : m.WellFormed ts) {k : Nat} {c : StackedConstraint K}
    (hc : m.stack.members[k]? = some c) : m.stack.J.heights.getD k 0 = c.equations := by
  simp [h.heights, List.getD_eq_getElem?_getD, hc]

/-- Equations belong to a member of the stack. -/
theorem WellFormed.exists_member (h : m.WellFormed ts) {k l : Nat}
    (hl : l < m.stack.J.heights.getD k 0) : ∃ c, m.stack.members[k]? = some c := by
  have hk := lt_length_of_lt_size hl
  rw [h.heights, List.length_map] at hk
  exact ⟨_, List.getElem?_eq_getElem hk⟩

/-! ## Momenta -/

/-- The momentum is the product of the dynamics with the velocities. -/
theorem WellFormed.exists_momentum (h : m.WellFormed ts) (hv : m.Fits v) :
    ∃ w, m.multiplyDynamics v = .ok w ∧ w.size = m.velocityCount ∧ w.format = m.format ∧
      ∀ k i, i < m.sizes.getD k 0 → w.coord φ m.sizes k i =
        ∑ j ∈ Finset.range (m.sizes.getD k 0),
          φ (entryOf m.dynamics k i j) * v.coord φ m.sizes k j := by
  obtain ⟨w, hw, hsize, hformat, hcoord⟩ := multiplyBlocks_of_fits φ (A := m.dynamics) (v := v)
    h.square (by rw [hv.format]; exact h.dynamics_format)
    (by rw [hv.format]; exact ne_boolean_of_floating h.floating) hv.size
  exact ⟨w, hw, hsize.trans hv.size, hformat.trans hv.format, hcoord⟩

/-- The gain of momentum is the product of the dynamics with the difference of the velocities. -/
theorem WellFormed.exists_momentumGain (h : m.WellFormed ts) (hv : m.Fits v) :
    ∃ w, m.valueAt v .momentumGain = .ok w ∧ w.size = m.velocityCount ∧ w.format = m.format ∧
      ∀ k i, i < m.sizes.getD k 0 → w.coord φ m.sizes k i =
        ∑ j ∈ Finset.range (m.sizes.getD k 0), φ (entryOf m.dynamics k i j) *
          (v.coord φ m.sizes k j - m.vStar.coord φ m.sizes k j) := by
  obtain ⟨p, hp, hpsize, hpformat, hpcoord⟩ := h.exists_momentum φ hv
  have hdiff : p.difference m.pStar = .ok (p.sub m.pStar) :=
    Vec.difference_of_floating (by rw [hpformat]; exact h.floating)
      (by rw [h.pStar_format, hpformat])
  refine ⟨p.sub m.pStar, ?_, ?_, ?_, ?_⟩
  · rw [valueAt_momentumGain, valueAt_momentum, hp]
    exact hdiff
  · rw [Vec.size_sub, hpsize, h.pStar_size, Nat.min_self]
  · rw [Vec.format_sub, hpformat, h.pStar_format, Format.join_self]
  · intro k i hi
    rw [Vec.coord, Vec.map_get_sub φ (hpsize.trans h.pStar_size.symm)]
    change p.coord φ m.sizes k i - m.pStar.coord φ m.sizes k i = _
    rw [hpcoord k i hi, h.pStar_coord R φ k i hi, ← Finset.sum_sub_distrib]
    exact Finset.sum_congr rfl fun j _ => (mul_sub _ _ _).symm

/-- The momentum term of the cost is half the square of the difference of the velocities, measured
by the dynamics. -/
theorem WellFormed.exists_momentumCost (h : m.WellFormed ts) (hv : m.Fits v) :
    ∃ x, m.valueAt v .momentumCost = .ok x ∧
      φ x.value = φ Arith.half * ∑ k ∈ Finset.range m.sizes.length,
        ∑ i ∈ Finset.range (m.sizes.getD k 0),
          (v.coord φ m.sizes k i - m.vStar.coord φ m.sizes k i) *
            ∑ j ∈ Finset.range (m.sizes.getD k 0), φ (entryOf m.dynamics k i j) *
              (v.coord φ m.sizes k j - m.vStar.coord φ m.sizes k j) := by
  obtain ⟨gain, hgain, hsize, -, hcoord⟩ := h.exists_momentumGain φ hv
  have hdiff : v.difference m.vStar = .ok (v.sub m.vStar) :=
    Vec.difference_of_floating (by rw [hv.format]; exact h.floating)
      (by rw [h.vStar_format, hv.format])
  have hmatch : v.size = m.vStar.size := hv.size.trans h.vStar_size.symm
  have hdsize : (v.sub m.vStar).size = m.velocityCount := by
    rw [Vec.size_sub, ← hmatch, Nat.min_self, hv.size]
  refine ⟨momentumCostOf (v.sub m.vStar) gain, ?_, ?_⟩
  · rw [valueAt_momentumCost, hdiff, Outcome.bind_of_ok _ rfl, hgain, Outcome.bind_of_ok _ rfl]
  · rw [momentumCostOf, Scalar.half, φ.map_mulIn, φ.map_cast, φ.map_cast,
      Vec.map_dot_blocks φ hdsize hsize]
    refine congrArg _ (Finset.sum_congr rfl fun k _ => Finset.sum_congr rfl fun i hi => ?_)
    rw [hcoord k i (Finset.mem_range.mp hi), Vec.coord, Vec.map_get_sub φ hmatch]
    rfl

/-! ## Impulses

Which projections a model has is left open. What holds of the answer of each member, for its part of
the unprojected impulses, holds of the impulses at the places of this part. -/

/-- The unprojected impulses of each row. -/
theorem WellFormed.exists_unprojectedImpulses (h : m.WellFormed ts) (hv : m.Fits v) :
    ∃ y, m.valueAt v .unprojectedImpulses = .ok y ∧ y.size = total m.stack.J.heights ∧
      y.format = m.format ∧
      ∀ i l, l < m.stack.J.heights.getD i 0 → y.coord φ m.stack.J.heights i l =
        -m.stack.Rinv.coord φ m.stack.J.heights i l *
          (((ts.filter fun t => t.row = i).map (PlacedBlock.forward φ m.sizes v l)).sum -
            m.stack.vHat.coord φ m.stack.J.heights i l) := by
  have hne := ne_boolean_of_floating h.floating
  obtain ⟨vc, hvc, hvcformat⟩ := BlockGrid.multiply_of_fits h.lists
    (by rw [h.widths]; exact hv.size) (by rw [hv.format]; exact hne)
    (by rw [hv.format]; exact h.block_format)
  obtain ⟨hvcsize, hvccoord⟩ := BlockGrid.coord_multiply φ h.lists hvc
  rw [hv.format] at hvcformat
  have hdiff : vc.difference m.stack.vHat = .ok (vc.sub m.stack.vHat) :=
    Vec.difference_of_floating (by rw [hvcformat]; exact h.floating)
      (by rw [h.vHat_format, hvcformat])
  have hneg : m.stack.Rinv.opposite = .ok m.stack.Rinv.neg := by
    rw [Vec.opposite, Vec.neg?, if_neg (by rw [h.Rinv_format]; exact hne)]
  have hmatch : vc.size = m.stack.vHat.size := hvcsize.trans h.vHat_size.symm
  have hsub : (vc.sub m.stack.vHat).size = total m.stack.J.heights := by
    rw [Vec.size_sub, ← hmatch, Nat.min_self, hvcsize]
  have hfactors : m.stack.Rinv.neg.size = (vc.sub m.stack.vHat).size := by
    rw [Vec.size_neg, h.Rinv_size, hsub]
  refine ⟨m.stack.Rinv.neg.mul (vc.sub m.stack.vHat), ?_, ?_, ?_, ?_⟩
  · rw [valueAt_unprojectedImpulses, valueAt_constraintVelocities, hvc, Outcome.bind_of_ok _ rfl,
      Stack.unproject, if_neg (not_not.mpr (show vc.size = m.stack.equations from hvcsize)), hneg,
      Outcome.bind_of_ok _ rfl, hdiff, Outcome.bind_of_ok _ rfl]
    rfl
  · rw [Vec.size_mul, ← hfactors, Nat.min_self, Vec.size_neg, h.Rinv_size]
  · rw [Vec.format_mul, Vec.format_neg, Vec.format_sub, h.Rinv_format, hvcformat, h.vHat_format,
      Format.join_self, Format.join_self]
  -- entry by entry the formula is what the operations compute
  · intro i l hl
    rw [Vec.coord, Vec.map_get_mul φ hfactors, Vec.map_get_neg, Vec.map_get_sub φ hmatch]
    change -m.stack.Rinv.coord φ _ i l * (vc.coord φ m.stack.J.heights i l - _) = _
    rw [hvccoord i l hl, h.widths]
    rfl

end Model

/-- What a member of a stack makes of its part of unprojected impulses. -/
def Stack.Answers (s : Stack K) (y : Vec K) (i : Nat) (c : StackedConstraint K) (γ : Vec K) :
    Prop :=
  γ.size = c.equations ∧
    ∃ D, c.projection.run (y.block s.J.heights i) (s.R.block s.J.heights i) false = .ok (γ, D)

/-- The impulses of a stack are the answers of its members, joined. -/
theorem Stack.project_eq_ok {s : Stack K} {y γ : Vec K} (hy : y.size = total s.J.heights) :
    s.project y = .ok γ ↔ ∃ γs,
      List.Forall₂ (fun ci γi => s.Answers y ci.2 ci.1 γi) s.members.zipIdx γs ∧
        γ = Vec.concat y.format γs := by
  have hmember : ∀ (ci : StackedConstraint K × Nat) (part : Vec K × Option (Mat K)),
      s.projectMember y false ci.2 ci.1 = .ok part ↔
        ∃ γi, s.Answers y ci.2 ci.1 γi ∧ part = (γi, none) := by
    rintro ⟨c, i⟩ part
    simp only [projectMember, Answers]
    rw [Outcome.bind_eq_ok]
    constructor
    · rintro ⟨⟨γi, D⟩, hrun, hpart⟩
      -- an answer of another size is an error, and so no answer
      by_cases hsize : γi.size = c.equations
      · simp only [hsize, ne_eq, not_true_eq_false, if_false, Bool.not_false, if_true] at hpart
        exact ⟨γi, ⟨hsize, D, hrun⟩, (Except.ok.inj hpart).symm⟩
      · simp only [hsize, ne_eq, not_false_eq_true, if_true] at hpart
        cases hpart
    · rintro ⟨γi, ⟨hsize, D, hrun⟩, rfl⟩
      refine ⟨(γi, D), hrun, ?_⟩
      simp only [hsize, ne_eq, not_true_eq_false, if_false, Bool.not_false, if_true]
      rfl
  rw [project, projectAll, if_neg (not_not.mpr (show y.size = s.equations from hy)),
    Outcome.map_eq_ok]
  constructor
  · rintro ⟨answer, hanswer, rfl⟩
    obtain ⟨parts, hparts, hanswer⟩ := Outcome.bind_eq_ok.mp hanswer
    obtain rfl := Outcome.pure_eq_ok.mp hanswer
    obtain ⟨γs, hγs, rfl⟩ := (Outcome.mapM_eq_ok_map hmember).mp hparts
    refine ⟨γs, hγs, ?_⟩
    simp [Function.comp_def]
  · rintro ⟨γs, hγs, rfl⟩
    refine ⟨(Vec.concat y.format γs, []), ?_, rfl⟩
    rw [Outcome.bind_of_ok _ ((Outcome.mapM_eq_ok_map hmember).mpr ⟨γs, hγs, rfl⟩)]
    simp [Function.comp_def]

/-- Answers of members have the sizes of the members. -/
theorem Stack.map_size_of_answers {s : Stack K} {y : Vec K} {γs : List (Vec K)}
    (h : List.Forall₂ (fun ci γi => s.Answers y ci.2 ci.1 γi) s.members.zipIdx γs) :
    γs.map Vec.size = s.members.map (·.equations) := by
  have hsizes : γs.map Vec.size = s.members.zipIdx.map fun ci => ci.1.equations := by
    rw [← List.forall₂_eq_eq_eq, List.forall₂_map_left_iff, List.forall₂_map_right_iff]
    exact h.flip.imp fun γi ci hi => hi.1
  have hfst : (fun ci : StackedConstraint K × Nat => ci.1.equations) =
      (fun c : StackedConstraint K => c.equations) ∘ Prod.fst := rfl
  rw [hsizes, hfst, ← List.map_map, List.zipIdx_map_fst]

namespace Model

variable {m : Model K} {ts : List (PlacedBlock K)} {v γ : Vec K}

/-- The impulses have one entry for each equation. -/
theorem WellFormed.size_impulses (h : m.WellFormed ts) (hv : m.Fits v)
    (hγ : m.valueAt v .impulses = .ok γ) : γ.size = total m.stack.J.heights := by
  obtain ⟨y, hy, hysize, -⟩ := h.exists_unprojectedImpulses (Reading.trivial K) hv
  rw [valueAt_impulses, hy, Outcome.bind_of_ok _ rfl, Stack.project_eq_ok hysize] at hγ
  obtain ⟨γs, hγs, rfl⟩ := hγ
  rw [Vec.size_concat, Stack.map_size_of_answers hγs, h.heights]

/-- Where every member answers, there are impulses, and what holds of the answers holds of them. -/
theorem WellFormed.exists_impulses (h : m.WellFormed ts) {y : Vec K}
    (hy : m.valueAt v .unprojectedImpulses = .ok y) (hsize : y.size = total m.stack.J.heights)
    {Q : Nat → StackedConstraint K → Nat → R → Prop}
    (hanswers : ∀ k c, m.stack.members[k]? = some c → ∃ γi, m.stack.Answers y k c γi ∧
      γi.format = y.format ∧ ∀ l < c.equations, Q k c l (φ (γi.get l))) :
    ∃ γ, m.valueAt v .impulses = .ok γ ∧ γ.format = y.format ∧
      ∀ k c, m.stack.members[k]? = some c → ∀ l < m.stack.J.heights.getD k 0,
        Q k c l (γ.coord φ m.stack.J.heights k l) := by
  obtain ⟨γs, hγs⟩ := exists_forall₂ fun (ci : StackedConstraint K × Nat) hci =>
    hanswers ci.2 ci.1 (List.mem_zipIdx_iff_getElem?.mp hci)
  have hall : List.Forall₂ (fun ci γi => m.stack.Answers y ci.2 ci.1 γi)
      m.stack.members.zipIdx γs := hγs.imp fun ci γi hi => hi.1
  have hsizes : γs.map Vec.size = m.stack.J.heights := by
    rw [Stack.map_size_of_answers hall, h.heights]
  refine ⟨Vec.concat y.format γs, ?_, ?_, ?_⟩
  · rw [valueAt_impulses, hy, Outcome.bind_of_ok _ rfl, Stack.project_eq_ok hsize]
    exact ⟨γs, hall, rfl⟩
  · apply Vec.format_concat
    intro γi hγi
    obtain ⟨ci, -, hci⟩ := exists_of_forall₂ hγs.flip hγi
    exact hci.2.1
  · intro k c hc l hl
    have hl' : l < c.equations := by rw [← h.getD_heights hc]; exact hl
    obtain ⟨γi, hγi, ⟨hγsize, -⟩, -, hget⟩ := getElem?_of_forall₂ hγs (getElem?_zipIdx_of_eq hc)
    have hcoord := Vec.coord_concat φ (f := y.format) hγi (l := l) (by rw [hγsize]; exact hl')
    rw [hsizes] at hcoord
    rw [hcoord]
    exact hget l hl'

/-! ## Cost and gradient -/

/-- The cost of velocities whose impulses are known. -/
theorem WellFormed.exists_cost (h : m.WellFormed ts) (hv : m.Fits v)
    (hγ : m.valueAt v .impulses = .ok γ) :
    ∃ x, m.valueAt v .cost = .ok x ∧
      φ x.value = φ Arith.half * (∑ k ∈ Finset.range m.sizes.length,
        ∑ i ∈ Finset.range (m.sizes.getD k 0),
          (v.coord φ m.sizes k i - m.vStar.coord φ m.sizes k i) *
            ∑ j ∈ Finset.range (m.sizes.getD k 0), φ (entryOf m.dynamics k i j) *
              (v.coord φ m.sizes k j - m.vStar.coord φ m.sizes k j)) +
        φ Arith.half * ∑ i ∈ Finset.range m.stack.J.heights.length,
          ∑ l ∈ Finset.range (m.stack.J.heights.getD i 0),
            γ.coord φ m.stack.J.heights i l * m.stack.R.coord φ m.stack.J.heights i l *
              γ.coord φ m.stack.J.heights i l := by
  obtain ⟨momentum, hmomentum, hmvalue⟩ := h.exists_momentumCost φ hv
  have hγsize := h.size_impulses hv hγ
  have hmatch : γ.size = m.stack.R.size := hγsize.trans h.R_size.symm
  have hregularizer : φ (m.regularizerCostOf γ).value =
      φ Arith.half * ∑ i ∈ Finset.range m.stack.J.heights.length,
        ∑ l ∈ Finset.range (m.stack.J.heights.getD i 0),
          γ.coord φ m.stack.J.heights i l * m.stack.R.coord φ m.stack.J.heights i l *
            γ.coord φ m.stack.J.heights i l := by
    have hsize : (γ.mul m.stack.R).size = total m.stack.J.heights := by
      rw [Vec.size_mul, ← hmatch, Nat.min_self, hγsize]
    -- half the impulses, weighed by the regularization, against the impulses
    rw [regularizerCostOf, Scalar.half, φ.map_mulIn, φ.map_cast, φ.map_cast,
      Vec.map_dot_blocks φ hsize hγsize]
    refine congrArg _ (Finset.sum_congr rfl fun i _ => Finset.sum_congr rfl fun l _ => ?_)
    rw [Vec.coord, Vec.map_get_mul φ hmatch]
    rfl
  refine ⟨momentum.add (m.regularizerCostOf γ), ?_, ?_⟩
  · rw [valueAt_cost, hmomentum, Outcome.bind_of_ok _ rfl, valueAt_regularizerCost, hγ]
    rfl
  · rw [Scalar.add, φ.map_addIn, φ.map_cast, φ.map_cast, hmvalue, hregularizer]

/-- The gradient, where it has a value. -/
theorem WellFormed.coord_gradient (h : m.WellFormed ts) (hv : m.Fits v)
    (hγ : m.valueAt v .impulses = .ok γ) {g : Vec K} (hg : m.valueAt v .costGradient = .ok g) :
    g.size = m.velocityCount ∧ ∀ k i, i < m.sizes.getD k 0 → g.coord φ m.sizes k i =
      (∑ j ∈ Finset.range (m.sizes.getD k 0), φ (entryOf m.dynamics k i j) *
        (v.coord φ m.sizes k j - m.vStar.coord φ m.sizes k j)) -
      ((ts.filter fun t => t.col = k).map
        (PlacedBlock.backward φ m.stack.J.heights γ i)).sum := by
  obtain ⟨gain, hgain, hsize, -, hcoord⟩ := h.exists_momentumGain φ hv
  rw [valueAt_costGradient, hgain, Outcome.bind_of_ok _ rfl, hγ, Outcome.bind_of_ok _ rfl] at hg
  obtain ⟨back, hback, hg⟩ := Outcome.bind_eq_ok.mp hg
  obtain ⟨hbsize, hbcoord⟩ := BlockGrid.coord_transposeMultiply φ h.lists hback
  rw [h.widths] at hbsize hbcoord
  -- a difference that has a value is the difference
  obtain rfl : g = gain.sub back := by
    unfold Vec.difference Vec.sub? at hg
    split at hg
    · rename_i d hd
      split at hd
      · cases hd
      · rw [← Except.ok.inj hg, ← Option.some.inj hd]
    · cases hg
  have hmatch : gain.size = back.size := hsize.trans hbsize.symm
  refine ⟨by rw [Vec.size_sub, ← hmatch, Nat.min_self, hsize], fun k i hi => ?_⟩
  rw [Vec.coord, Vec.map_get_sub φ hmatch]
  change gain.coord φ m.sizes k i - back.coord φ m.sizes k i = _
  rw [hcoord k i hi, hbcoord k i hi]

/-- A gradient is computed from impulses. -/
theorem exists_impulses_of_gradient {g : Vec K} (hg : m.valueAt v .costGradient = .ok g) :
    ∃ γ, m.valueAt v .impulses = .ok γ := by
  rw [valueAt_costGradient] at hg
  obtain ⟨gain, -, hg⟩ := Outcome.bind_eq_ok.mp hg
  obtain ⟨γ, hγ, -⟩ := Outcome.bind_eq_ok.mp hg
  exact ⟨γ, hγ⟩

/-- Impulses in the format of the model have a gradient in it. -/
theorem WellFormed.exists_gradient_format (h : m.WellFormed ts) (hv : m.Fits v)
    (hγ : m.valueAt v .impulses = .ok γ) (hformat : γ.format = m.format) :
    ∃ g, m.valueAt v .costGradient = .ok g ∧ g.format = m.format := by
  obtain ⟨gain, hgain, -, hgformat, -⟩ := h.exists_momentumGain (Reading.trivial K) hv
  obtain ⟨back, hback, hbformat⟩ := BlockGrid.transposeMultiply_of_fits h.lists
    (h.size_impulses hv hγ) (by rw [hformat]; exact ne_boolean_of_floating h.floating)
    (by rw [hformat]; exact h.block_format)
  refine ⟨gain.sub back, ?_, ?_⟩
  · rw [valueAt_costGradient, hgain, Outcome.bind_of_ok _ rfl, hγ, Outcome.bind_of_ok _ rfl,
      gradientOf, hback, Outcome.bind_of_ok _ rfl]
    exact Vec.difference_of_floating (by rw [hgformat]; exact h.floating)
      (by rw [hbformat, hformat, hgformat])
  · rw [Vec.format_sub, hgformat, hbformat, hformat, Format.join_self]

/-- Impulses in the format of the model have a gradient. -/
theorem WellFormed.exists_gradient (h : m.WellFormed ts) (hv : m.Fits v)
    (hγ : m.valueAt v .impulses = .ok γ) (hformat : γ.format = m.format) :
    ∃ g, m.valueAt v .costGradient = .ok g := by
  obtain ⟨g, hg, -⟩ := h.exists_gradient_format hv hγ hformat
  exact ⟨g, hg⟩

end Model

end ConvexContact
