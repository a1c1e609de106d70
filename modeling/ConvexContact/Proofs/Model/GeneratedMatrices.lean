import Mathlib.Tactic.IntervalCases
import Mathlib.Tactic.NormNum
import ConvexContact.Linear.Gram
import ConvexContact.Proofs.Linear.Coercivity
import ConvexContact.Proofs.Model.Construction
import ConvexContact.Proofs.Model.Divisions

/-!
# Generated matrices

The matrix `M·Mᵀ + n·I` of a sample `M` is symmetric, and its form at `w` is the sum of the squares
of `Mᵀ·w` and `n·wᵀ·w` (`Mat.IsShiftedGram.form_eq`). So it is coercive, whatever the sample, and a
singular one is no exception. A coercive matrix is factored with pivots that are not below its
bound, so no check of a model refuses a matrix that has been generated.

Proof shape: what is generated is described by its entries (`Mat.IsShiftedGram`), which storing it
in another format does not change. From the entries come symmetry and coercivity, from coercivity
the factor (`exists_factor_of_coercive`), and from both `Mat.DefiniteAbove`, which contradicts
either cause for a refusal.

Main statement: `Model.generated_accepted`.
-/

namespace ConvexContact

namespace Mat

variable {K : Type} [ExactField K]

/-- The matrix `M·Mᵀ + n·I` of `n` rows and columns of a sample. -/
structure IsShiftedGram (S : Mat K) (n : Nat) (M : Nat → Nat → K) : Prop where
  rows : S.rows = n
  cols : S.cols = n
  get : ∀ i < n, ∀ j < n,
    S.get i j = (∑ k ∈ Finset.range n, M i k * M j k) + if i = j then (n : K) else 0

/-- What is generated from a square matrix. -/
theorem isShiftedGram_shiftedGram {M : Mat K} {n : Nat} (hrows : M.rows = n) (hcols : M.cols = n) :
    (shiftedGram M).IsShiftedGram n M.get := by
  refine ⟨hrows, hrows, fun i hi j hj => ?_⟩
  have hgram : (M.product M.transpose).get i j =
      ∑ k ∈ Finset.range M.cols, M.get i k * M.transpose.get k j :=
    map_get_product Reading.exact rfl (hi.trans_eq hrows.symm) (hj.trans_eq hrows.symm)
  have hshift := ((IsMultiple.identity (K := K) M.format M.rows).scale ((M.rows : Nat) : K)).get i
    (hi.trans_eq hrows.symm) j (hj.trans_eq hrows.symm)
  have hadd : (shiftedGram M).get i j = (M.product M.transpose).get i j +
      ((identity M.format M.rows).scale ((M.rows : Nat) : K)).get i j :=
    map_get_add Reading.exact (hi.trans_eq hrows.symm) (hj.trans_eq hrows.symm)
  rw [hadd, hgram, hshift, mul_one, hrows, hcols]
  refine congrArg (· + _) (Finset.sum_congr rfl fun k hk => congrArg (M.get i k * ·) ?_)
  exact get_transpose M ((Finset.mem_range.mp hk).trans_eq hcols.symm) (hj.trans_eq hrows.symm)

namespace IsShiftedGram

variable {S : Mat K} {n : Nat} {M : Nat → Nat → K}

/-- Exact numbers are stored as they are. -/
theorem cast (h : S.IsShiftedGram n M) (f : Format) : (S.cast f).IsShiftedGram n M :=
  ⟨h.rows, h.cols, fun i hi j hj => (map_get_cast Reading.exact f S i j).trans (h.get i hi j hj)⟩

/-- What is generated is symmetric, -/
theorem symmetric (h : S.IsShiftedGram n M) : S.Symmetric := by
  intro i hi j hj
  rw [h.rows] at hi hj
  rw [h.get i hi j hj, h.get j hj i hi]
  simp only [eq_comm, mul_comm]

/-- The form is a sum of squares. -/
theorem form_eq (h : S.IsShiftedGram n M) (w : Nat → K) :
    form n S.get w = (∑ k ∈ Finset.range n, (∑ i ∈ Finset.range n, w i * M i k) ^ 2) +
      n * ∑ i ∈ Finset.range n, w i ^ 2 := by
  -- a row of the matrix against `w`, the multiple of the identity apart
  have hrow : ∀ i < n, ∑ j ∈ Finset.range n, S.get i j * w j =
      (∑ k ∈ Finset.range n, M i k * ∑ j ∈ Finset.range n, w j * M j k) + n * w i := by
    intro i hi
    have hshift : ∑ j ∈ Finset.range n, (if i = j then (n : K) else 0) * w j = n * w i :=
      sum_diagonal_mul w hi fun j _ => rfl
    have hgram : ∑ j ∈ Finset.range n, (∑ k ∈ Finset.range n, M i k * M j k) * w j =
        ∑ k ∈ Finset.range n, M i k * ∑ j ∈ Finset.range n, w j * M j k := by
      simp only [Finset.sum_mul, Finset.mul_sum]
      rw [Finset.sum_comm]
      exact Finset.sum_congr rfl fun k _ => Finset.sum_congr rfl fun j _ => by ring
    rw [← hgram, ← hshift, ← Finset.sum_add_distrib]
    exact Finset.sum_congr rfl fun j hj => by rw [h.get i hi j (Finset.mem_range.mp hj), add_mul]
  calc form n S.get w
      = ∑ i ∈ Finset.range n,
          ((∑ k ∈ Finset.range n, w i * M i k * ∑ j ∈ Finset.range n, w j * M j k) +
            n * w i ^ 2) := by
        refine Finset.sum_congr rfl fun i hi => ?_
        rw [hrow i (Finset.mem_range.mp hi), mul_add, Finset.mul_sum]
        refine congrArg₂ (· + ·) (Finset.sum_congr rfl fun k _ => ?_) ?_ <;> ring
    _ = _ := by
        rw [Finset.sum_add_distrib, Finset.sum_comm, ← Finset.mul_sum]
        refine congrArg (· + _) (Finset.sum_congr rfl fun k _ => ?_)
        rw [← Finset.sum_mul, sq]

/-- and coercive with bound `n`, since squares are not negative. -/
theorem coercive (h : S.IsShiftedGram n M) : Coercive n (n : K) S.get := by
  intro w
  rw [h.form_eq]
  exact le_add_of_nonneg_left (Finset.sum_nonneg fun k _ => sq_nonneg _)

end IsShiftedGram

/-- A sample given entry by entry, row by row, yields its matrix. -/
theorem exists_shiftedGram? (f : Format) {n : Nat} {sample : List K} (h : sample.length = n * n) :
    ∃ S, shiftedGram? f n sample = .ok S ∧
      S.IsShiftedGram n fun i j => sample.getD (i * n + j) 0 := by
  let M : Mat K := ofFn .double n n fun i j => sample.getD (i * n + j) 0
  have hM : ∀ i < n, ∀ j < n, M.get i j = sample.getD (i * n + j) 0 := fun i hi j hj =>
    get_ofFn _ _ hi hj
  have hshifted : shiftedGram? f n sample = .ok ((shiftedGram M).cast f) := by
    rw [shiftedGram?, if_neg (by omega), if_pos (by simpa using h)]
    rfl
  have hgram := (isShiftedGram_shiftedGram (M := M) rfl rfl).cast f
  refine ⟨_, hshifted, hgram.rows, hgram.cols, fun i hi j hj => ?_⟩
  rw [hgram.get i hi j hj]
  refine congrArg (· + _) (Finset.sum_congr rfl fun k hk => ?_)
  rw [hM i hi k (Finset.mem_range.mp hk), hM j hj k (Finset.mem_range.mp hk)]

/-! ## Acceptance -/

/-- What is promised of a generated matrix of `n` rows and columns: it is symmetric, its form at `w`
is at least `n·wᵀ·w`, and it has a factor none of whose pivots is below `n`. -/
structure DefiniteAbove (S : Mat K) (n : Nat) : Prop where
  rows : S.rows = n
  cols : S.cols = n
  symmetric : S.Symmetric
  form : ∀ w : Nat → K, (n : K) * ∑ i ∈ Finset.range n, w i ^ 2 ≤ form n S.get w
  factor : ∃ L, CholeskyFactor.ofMat? S = some L ∧ L.pivots.length = n ∧ ∀ a ∈ L.pivots, (n : K) ≤ a

/-- So a generated real matrix has all that is promised. -/
theorem IsShiftedGram.definiteAbove {S : Mat ℝ} {n : Nat} {M : Nat → Nat → ℝ}
    (h : S.IsShiftedGram n M) (hn : 1 ≤ n) : S.DefiniteAbove n where
  rows := h.rows
  cols := h.cols
  symmetric := h.symmetric
  form := h.coercive
  factor := by
    have hcoercive := h.coercive
    have hpos : (0 : ℝ) < n := Nat.cast_pos.mpr hn
    obtain ⟨L, hL, hlength, hpivots⟩ := exists_factor_of_coercive
      (fun a ha => Real.mul_self_sqrt ha.le) (h.cols.trans h.rows.symm) h.symmetric hpos
      (by rwa [h.rows])
    exact ⟨L, hL, hlength.trans h.rows, hpivots⟩

/-- A matrix that is generated from some sample, in formats of fractions. -/
def Generated (A : Mat ℝ) : Prop := ∃ (f : Format) (n : Nat) (sample : List ℝ) (S : Mat ℝ),
  f.isFloating = true ∧ A.format.isFloating = true ∧ 1 ≤ n ∧ sample.length = n * n ∧
    shiftedGram? f n sample = .ok S ∧ A = S.cast A.format

/-- Whatever it was generated from and stored in. -/
theorem Generated.definiteAbove {A : Mat ℝ} (h : A.Generated) : A.DefiniteAbove A.rows := by
  obtain ⟨f, n, sample, S, -, -, hn, hlength, hS, hA⟩ := h
  obtain ⟨S', hS', hgram⟩ := exists_shiftedGram? f hlength
  obtain rfl := Except.ok.inj (hS.symm.trans hS')
  have hstored := hgram.cast A.format
  rw [← hA] at hstored
  rw [hstored.rows]
  exact hstored.definiteAbove hn

end Mat

namespace ContactProblem

variable {p : ContactProblem ℝ}

/-- No check refuses a generated matrix. -/
theorem not_refuses_of_generated {c : Nat} (h : ∀ A, p.dynamics[c]? = some A → A.Generated)
    (e : Error ℝ) : ¬ p.Refuses c e := by
  rintro (⟨hA, hasymmetric⟩ | ⟨hA, -, hindefinite⟩)
  -- a symmetric matrix passes the check of symmetry
  · have hdefinite := (h _ hA).definiteAbove
    rw [hdefinite.symmetric.nearlySymmetric hdefinite.cols] at hasymmetric
    cases hasymmetric
  -- and one that has a factor is not indefinite
  · obtain ⟨L, hL, -⟩ := (h _ hA).definiteAbove.factor
    rw [hindefinite] at hL
    cases hL

/-- Where no matrix is refused, a model is refused for a law. -/
theorem Constructed.exists_lawFails (hp : p.Constructed) (hf : p.format.isFloating = true)
    (h : ∀ c ∈ p.coupled, ∀ e, ¬ p.Refuses c e) {e : Error ℝ} (he : Model.build? p = .error e) :
    ∃ con ∈ p.constraints, p.LawFails con e := by
  have hwf := hp.wellFormed
  obtain ⟨g, q, harranged⟩ := hwf.exists_arranged
  -- a model is refused for a matrix or for a law, and the matrices are none of them refused
  rcases (harranged.build_eq_error hwf hf).mp he with hfactor | ⟨-, hlaw⟩
  · obtain ⟨before, c, after, hsplit, -, hc⟩ := (harranged.firstFails_refuses hwf hf).mp hfactor
    have hmem : c ∈ q.inverse := by simp [hsplit]
    exact absurd hc (h c (mem_coupled.mpr (harranged.mem_cliques.mp hmem)) e)
  · obtain ⟨before, con, after, hsplit, -, hcon⟩ := (Arranged.firstFails_laws p _).mp hlaw
    have hmem : con ∈ pick p.constraints g.places := by simp [hsplit]
    exact ⟨con, (pick_perm harranged.places_perm).mem_iff.mp hmem, hcon⟩

end ContactProblem

namespace Model

/-- **Generated matrices are accepted.** In a format of fractions every square sample of `n` rows,
singular or not, yields a symmetric matrix whose form at `w` is at least `n·wᵀ·w`, and which has a
factor with pivots that are not below `n`. So no matrix is refused where those of the cliques that
take part are generated, and what may still keep a problem from becoming a model is a law of one of
its constraints. -/
theorem generated_accepted :
    (∀ (f : Format) (n : Nat) (sample : List ℝ), f.isFloating = true → 1 ≤ n →
      sample.length = n * n → ∃ S, shiftedGram? f n sample = .ok S ∧ S.DefiniteAbove n) ∧
    ∀ p : ContactProblem ℝ, p.Constructed →
      (∀ c ∈ p.coupled, ∀ A, p.dynamics[c]? = some A → A.Generated) →
      (∀ c ∈ p.coupled, ∀ e, ¬ p.Refuses c e) ∧
      (p.format.isFloating = true → ∀ e, build? p = .error e →
        ∃ con ∈ p.constraints, p.LawFails con e) := by
  refine ⟨fun f n sample _ hn hlength => ?_, fun p hp hgenerated => ?_⟩
  · obtain ⟨S, hS, hgram⟩ := Mat.exists_shiftedGram? f hlength
    exact ⟨S, hS, hgram.definiteAbove hn⟩
  · have hrefuses : ∀ c ∈ p.coupled, ∀ e, ¬ p.Refuses c e := fun c hc =>
      ContactProblem.not_refuses_of_generated (hgenerated c hc)
    exact ⟨hrefuses, fun hf e he => hp.exists_lawFails hf hrefuses he⟩

/-- Four times the identity of size three is generated from the identity. -/
theorem generated_of_isMultiple {A : Mat ℝ} (hA : A.IsMultiple 3 (4 : ℕ))
    (hf : A.format.isFloating = true) : A.Generated := by
  have hlength : ([1, 0, 0, 0, 1, 0, 0, 0, 1] : List ℝ).length = 3 * 3 := rfl
  obtain ⟨S, hS, hgram⟩ := Mat.exists_shiftedGram? .double hlength
  refine ⟨.double, 3, _, S, rfl, hf, by decide, hlength, hS, ?_⟩
  have hstored := hgram.cast A.format
  refine Mat.ext_get rfl (hA.rows.trans hstored.rows.symm) (hA.cols.trans hstored.cols.symm)
    fun i j hi hj => ?_
  rw [hA.rows] at hi
  rw [hA.cols] at hj
  rw [hA.get i hi j hj, hstored.get i hi j hj]
  interval_cases i <;> interval_cases j <;> norm_num [Finset.sum_range_succ]

/-- A sample whose rows are multiples of each other, and the problem of two particles, whose coupled
one has four times the identity as its matrix. -/
theorem generated_accepted_sample :
    (∃ S : Mat ℝ, shiftedGram? .double 2 [1, 2, 2, 4] = .ok S ∧ S.DefiniteAbove 2) ∧
    ∃ p : ContactProblem ℝ, p.Constructed ∧ p.coupled = {0} ∧
      (∀ A, p.dynamics[0]? = some A → A.Generated) ∧ (∀ e, ¬ p.Refuses 0 e) ∧
      ∀ e, build? p = .error e → ∃ con ∈ p.constraints, p.LawFails con e := by
  obtain ⟨hgenerates, haccepts⟩ := generated_accepted
  refine ⟨hgenerates .double 2 [1, 2, 2, 4] rfl (by decide) rfl, ?_⟩
  have hread : SpringMassConfig.readPair .double
      (some (.tensor (Vec.zeros .double 6 : Vec ℝ).toTensor)) =
        .ok (Vec.zeros .double 6 : Vec ℝ).toTensor := rfl
  obtain ⟨p, -, hposes⟩ := sampleSystem.exists_problem hread hread (Vec.size_zeros _ _)
    (Vec.size_zeros _ _) rfl rfl
  obtain ⟨con, hconstraints, hties⟩ := hposes.constraint
  have hcliques : con.cliques = [0] := by
    rw [Constraint.cliques, Constraint.blocks, hties.second]
    simp [hties.clique]
  have hcoupled : ∀ c, c ∈ p.coupled ↔ c = 0 := fun c => by
    rw [ContactProblem.mem_coupled, hconstraints]
    simp [hcliques]
  have hgenerated : ∀ A, p.dynamics[0]? = some A → A.Generated := by
    intro A hA
    obtain ⟨B, hB, hmultiple⟩ := hposes.dynamics
    obtain rfl := Option.some.inj (hA.symm.trans hB)
    refine generated_of_isMultiple hmultiple ?_
    rw [hposes.constructed.wellFormed.dynamics_format A (List.mem_of_getElem? hA)]
    exact hposes.floating
  obtain ⟨hrefuses, herror⟩ := haccepts p hposes.constructed fun c hc A hA =>
    hgenerated A ((hcoupled c).mp hc ▸ hA)
  exact ⟨p, hposes.constructed, Finset.ext fun c => (hcoupled c).trans Finset.mem_singleton.symm,
    hgenerated, hrefuses 0 ((hcoupled 0).mpr rfl), herror hposes.floating⟩

end Model

end ConvexContact
