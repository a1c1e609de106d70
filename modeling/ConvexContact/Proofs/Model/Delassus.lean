import Mathlib.Algebra.Order.Field.Basic
import ConvexContact.Proofs.Model.Assembly
import ConvexContact.Proofs.Unreduced

/-!
# Estimates of the Delassus diagonal

The estimates are computed with the factors of the reduced model, in which the cliques are
renumbered. Each estimate depends on its own constraint only: it is the one of
`ContactProblem.estimate`, which looks at the matrices of the cliques of the constraint. So are the
regularization and the bias of every constraint (`Model.Steps.law_eq`).

Proof shape: `Steps.factor_eq` undoes the renumbering for one clique, `Steps.compliance_eq` for one
summand `J·A⁻¹·Jᵀ`, and `Steps.estimate_eq` by running the loop that adds the summands. Estimates
and laws are then found by their place in the order.
-/

namespace ConvexContact

/-! ## Products and sums of matrices -/

namespace Mat

variable {K R : Type} [Arith K] [CommRing R] (φ : Reading K R) {A B C : Mat K}

/-- An entry of a product is the inner product of a row and a column. -/
theorem map_get_product (h : B.rows = A.cols) {i j : Nat} (hi : i < A.rows) (hj : j < B.cols) :
    φ ((A.product B).get i j) =
      ∑ a ∈ Finset.range A.cols, φ (A.get i a) * φ (B.get a j) := by
  have hi' : i < A.entries.length := by rw [A.length_entries]; exact hi
  have hrow : A.entries[i].length = A.cols := A.length_row _ (List.getElem_mem hi')
  have hget : ∀ a, A.get i a = A.entries[i].getD a 0 := by
    intro a
    simp [get, List.getD_eq_getElem?_getD, hi']
  have hentry : (A.product B).get i j =
      Arith.dot A.format A.entries[i] ((List.range B.rows).map fun a => B.get a j) := by
    simp [product, get, transpose, ofFn, List.getD_eq_getElem?_getD, hi', hj]
  -- the row is a list and the column a function, so both are lined up as functions
  have hzip : List.zipWith (fun x y => φ x * φ y) A.entries[i]
      ((List.range B.rows).map fun a => B.get a j) =
      (List.range A.cols).map fun a => φ (A.get i a) * φ (B.get a j) := by
    apply List.ext_getElem (by simp [hrow, h])
    intro a ha ha'
    have hac : a < A.cols := by simpa using ha'
    simp [hget, List.getD_eq_getElem?_getD, hrow, hac]
  rw [hentry, φ.map_dot, hzip, sum_map_eq_sum_range _ _ 0, List.length_range]
  apply Finset.sum_congr rfl
  intro a ha
  have hac : a < A.cols := Finset.mem_range.mp ha
  simp [List.getD_eq_getElem?_getD, hac]

/-- What a product that succeeds says about its operands. -/
theorem product?_eq_ok (h : A.product? B = .ok C) :
    C = A.product B ∧ A.format = B.format ∧ A.cols = B.rows := by
  obtain ⟨⟨⟩, hcheck, rfl⟩ := Outcome.map_eq_ok.mp h
  obtain ⟨hformat, hsize, -⟩ := checkProduct_eq_ok.mp hcheck
  exact ⟨rfl, hformat, hsize⟩

/-- An entry of a sum is the sum of the entries, each rounded to the common format first. -/
theorem map_get_add {i j : Nat} (hi : i < A.rows) (hj : j < A.cols) :
    φ ((A.add B).get i j) = φ (A.get i j) + φ (B.get i j) := by
  rw [add, get_ofFn _ _ hi hj, φ.map_addIn, φ.map_cast, φ.map_cast]

end Mat

variable {K : Type} [ExactField K]

namespace Model.Steps

variable {p : ContactProblem K} {m : Model K} {Ls : List (CholeskyFactor K)}

/-! ## Factors -/

/-- The factor with the number of a clique is the factor of the matrix of the clique. -/
theorem factor_eq (h : Steps p m Ls) {k c : Nat} {L : CholeskyFactor K}
    (hk : m.cliques.inverse[k]? = some c) (hL : Ls[k]? = some L) :
    (p.dynamics[c]?).bind CholeskyFactor.ofMat? = some L := by
  have hlen := Outcome.length_of_mapM h.factors
  rw [List.length_zipIdx] at hlen
  have hlt : k < m.dynamics.length := by
    rw [← hlen]
    exact (List.getElem?_eq_some_iff.mp hL).1
  have hA : m.dynamics[k]? = some m.dynamics[k] := List.getElem?_eq_getElem hlt
  obtain ⟨L', hL', -, -, hofMat⟩ := h.exists_factor hA
  rw [hL] at hL'
  rw [← h.getElem?_dynamics hk, hA, Option.bind_some, hofMat, Option.some.inj hL']

/-- A summand of a Delassus operator, from the matrix of the clique. -/
theorem compliance_eq (hp : p.WellFormed) (h : Steps p m Ls) {c : Constraint K}
    (hc : c ∈ p.constraints) {b : CliqueBlock K} (hb : b ∈ c.blocks) {W : Mat K}
    (hW : compliance m.cliques Ls b = .ok W) :
    W.format = p.format ∧ ∀ i j, i < c.equations → j < c.equations →
      W.get i j =
        ∑ a ∈ Finset.range b.jacobian.cols, b.jacobian.get i a * (p.solved b).get a j := by
  obtain ⟨k, hk, hW⟩ := Outcome.bind_eq_ok.mp hW
  have hnumber := PartialPermutation.permutedIndex_eq_ok.mp hk
  have hinverse := (h.cliques_valid.number?_eq_some_iff _ _).mp hnumber
  cases hL : Ls[k]? with
  | none =>
    rw [hL] at hW
    cases hW
  | some L =>
    rw [hL] at hW
    obtain ⟨rfl, -, hcols⟩ := Mat.product?_eq_ok hW
    have hsolved : p.solved b = L.solveColumns b.jacobian.transpose := by
      rw [ContactProblem.solved, h.factor_eq hinverse hL]
    have hrows := (hp.constraint c hc).rows b hb
    refine ⟨?_, ?_⟩
    · exact ((hp.constraint c hc).format b hb).trans (hp.constraint_format c hc)
    · intro i j hi hj
      have hentry := Mat.map_get_product Reading.exact hcols.symm (i := i) (j := j)
        (by rw [hrows]; exact hi) (by rw [← hrows] at hj; exact hj)
      rw [hsolved]
      exact hentry

/-! ## Estimates -/

/-- **Estimates.** The estimate of a constraint is computed from its own cliques. -/
theorem estimate_eq (hp : p.WellFormed) (h : Steps p m Ls) {c : Constraint K}
    (hc : c ∈ p.constraints) {w : Scalar K} (hw : estimate p.format m.cliques Ls c = .ok w) :
    Tensor.scalar p.format w.value = p.estimate c := by
  obtain ⟨W, hW, hw⟩ := Outcome.bind_eq_ok.mp hw
  obtain rfl := Outcome.pure_eq_ok.mp hw
  -- the loop keeps the format and the size, and adds the entries of one summand after the other
  have hsum : W.format = p.format ∧ W.rows = c.equations ∧ W.cols = c.equations ∧
      ∀ i j, i < c.equations → j < c.equations → W.get i j =
        (c.blocks.map fun b =>
          ∑ a ∈ Finset.range b.jacobian.cols, b.jacobian.get i a * (p.solved b).get a j).sum := by
    refine Outcome.foldlM_induction (fun done W => W.format = p.format ∧ W.rows = c.equations ∧
      W.cols = c.equations ∧ ∀ i j, i < c.equations → j < c.equations → W.get i j =
        (done.map fun b =>
          ∑ a ∈ Finset.range b.jacobian.cols,
            b.jacobian.get i a * (p.solved b).get a j).sum) ?_ ?_ hW
    · exact ⟨rfl, rfl, rfl, fun i j hi hj => Mat.get_ofFn _ _ hi hj⟩
    · rintro done b V V' ⟨rest, hsplit⟩ ⟨hformat, hrows, hcols, hget⟩ hstep
      have hb : b ∈ c.blocks := by
        rw [← hsplit]
        simp
      obtain ⟨U, hU, hstep⟩ := Outcome.bind_eq_ok.mp hstep
      obtain rfl := Outcome.pure_eq_ok.mp hstep
      obtain ⟨hUformat, hUget⟩ := compliance_eq hp h hc hb hU
      refine ⟨?_, hrows, hcols, ?_⟩
      · change V.format.join U.format = p.format
        rw [hformat, hUformat, Format.join_self]
      · intro i j hi hj
        have hadd := Mat.map_get_add Reading.exact (A := V) (B := U) (i := i) (j := j)
          (by rw [hrows]; exact hi) (by rw [hcols]; exact hj)
        simp only [Reading.exact_apply] at hadd
        rw [hadd, hget i j hi hj, hUget i j hi hj]
        simp
  obtain ⟨hformat, hrows, hcols, hget⟩ := hsum
  -- so what it ends with is the operator of the constraint
  obtain rfl : W = p.delassus c := by
    apply Mat.ext_get hformat hrows hcols
    intro i j hi hj
    rw [hrows] at hi
    rw [hcols] at hj
    rw [hget i j hi hj, ContactProblem.delassus, Mat.get_ofFn _ _ hi hj]
  rfl

/-- The estimate at a place of the order is that of the constraint there. -/
theorem delassus_spec (hp : p.WellFormed) (h : Steps p m Ls) {k : Nat} {c : Constraint K}
    (hk : (pick p.constraints m.order)[k]? = some c) :
    k < m.delassus.size ∧ m.delassus.format = p.format ∧
      Tensor.scalar p.format (m.delassus.get k) = p.estimate c := by
  have hc : c ∈ p.constraints := (pick_perm h.order_perm).mem_iff.mp (List.mem_of_getElem? hk)
  obtain ⟨cs, hcs, hdelassus⟩ := Outcome.bind_eq_ok.mp h.delassus
  rw [h.mapM_constraintAt] at hcs
  obtain rfl := Except.ok.inj hcs
  obtain ⟨ws, hws, hdelassus⟩ := Outcome.bind_eq_ok.mp hdelassus
  have hentries := Outcome.pure_eq_ok.mp hdelassus
  obtain ⟨w, hw, hestimate⟩ := Outcome.getElem?_of_mapM hws hk
  have hget : m.delassus.get k = w.value := by
    simp [← hentries, Vec.get, List.getD_eq_getElem?_getD, hw]
  refine ⟨?_, by rw [← hentries], by rw [hget, estimate_eq hp h hc hestimate]⟩
  simp [← hentries, Vec.size, (List.getElem?_eq_some_iff.mp hw).1]

/-- **Laws.** The regularization and the bias of a constraint in the stack are those that it has by
itself. -/
theorem law_eq (hp : p.WellFormed) (h : Steps p m Ls) {k : Nat} {c : Constraint K}
    (hk : (pick p.constraints m.order)[k]? = some c) {R vHat : Vec K}
    (hlaw : Stack.lawOf p.timeStep m.delassus.toTensor k c = .ok (R, vHat)) :
    c.regularization p.timeStep (p.estimate c) = .ok R ∧
      c.bias p.timeStep (p.estimate c) = .ok vHat := by
  obtain ⟨hsize, hformat, hestimate⟩ := h.delassus_spec hp hk
  obtain ⟨wi, hwi, hlaw⟩ := Outcome.bind_eq_ok.mp hlaw
  rw [Stack.estimateAt_toTensor hsize, hformat, hestimate] at hwi
  obtain rfl := Except.ok.inj hwi
  obtain ⟨R', hR, hlaw⟩ := Outcome.bind_eq_ok.mp hlaw
  obtain ⟨vHat', hvHat, hlaw⟩ := Outcome.bind_eq_ok.mp hlaw
  obtain ⟨rfl, rfl⟩ := Prod.mk.inj (Outcome.pure_eq_ok.mp hlaw)
  exact ⟨hR, hvHat⟩

end Model.Steps

end ConvexContact
