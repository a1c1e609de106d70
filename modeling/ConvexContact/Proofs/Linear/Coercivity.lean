import ConvexContact.Proofs.Linear.Solving

/-!
# Factors of coercive matrices

A matrix is factored when its form has a positive lower bound `b·wᵀ·w`, and no pivot is below `b`.
The bound at the first unit vector is one on the leading entry, which becomes the pivot
(`CholeskyFactor.Coercive.le_lead`). A step completes a square, and it leaves the form of what is
left to factor where the leading component makes that square vanish, so the bound is passed on
(`CholeskyFactor.Coercive.rest`). This is the other direction of `CholeskyFactor.form_mirrored_pos`.

Main statement: `Mat.exists_factor_of_coercive`.
-/

namespace ConvexContact

variable {K : Type} [ExactField K]

/-- The form of `n` rows and columns of entries is at least `b` times the sum of squares. -/
def Coercive (n : Nat) (b : K) (E : Nat → Nat → K) : Prop :=
  ∀ w : Nat → K, b * ∑ i ∈ Finset.range n, w i ^ 2 ≤ form n E w

namespace Coercive

variable {n : Nat} {b r : K} {E F : Nat → Nat → K} {c : Nat → K}

/-- The form at the first unit vector is the leading entry. -/
theorem le_lead (h : Coercive (n + 1) b E) : b ≤ E 0 0 := by
  have hunit := h fun j => if j = 0 then 1 else 0
  rw [form_single (Nat.succ_pos n)] at hunit
  simpa using hunit

/-- **Step.** What is left to factor is bounded as well. -/
theorem rest (h : Coercive (n + 1) b E) (hb : 0 ≤ b) (hsplits : CholeskyFactor.Splits n E F r c)
    (hr : r ≠ 0) : Coercive n b F := by
  intro w
  -- the leading component that makes the square vanish
  let lead := -(∑ i ∈ Finset.range n, c i * w i) / r
  let v : Nat → K := fun i => Nat.casesOn i lead w
  have hsquare : r * v 0 + ∑ i ∈ Finset.range n, c i * v (i + 1) = 0 := by
    change r * (-(∑ i ∈ Finset.range n, c i * w i) / r) + ∑ i ∈ Finset.range n, c i * w i = 0
    rw [mul_div_cancel₀ _ hr, neg_add_cancel]
  calc b * ∑ i ∈ Finset.range n, w i ^ 2
      ≤ b * ∑ i ∈ Finset.range (n + 1), v i ^ 2 := by
        rw [Finset.sum_range_succ']
        exact mul_le_mul_of_nonneg_left (le_add_of_nonneg_right (sq_nonneg _)) hb
    _ ≤ form (n + 1) E v := h v
    _ = form n F w := by
        rw [CholeskyFactor.form_step hsplits, hsquare]
        ring

end Coercive

namespace CholeskyFactor

/-- **Run.** Rows with a coercive mirrored matrix are factored, and no pivot is below the bound. -/
theorem exists_ofRows?_of_coercive
    (hroot : ∀ a : K, 0 < a → ExactField.root a * ExactField.root a = a) (f : Format) {n : Nat}
    {rows : List (List K)} (hrows : rows.length = n) (hwidth : ∀ row ∈ rows, row.length = n) {b : K}
    (hb : 0 < b) (h : Coercive n b (mirrored rows)) :
    ∃ L, ofRows? f n rows = some L ∧ L.pivots.length = n ∧ ∀ a ∈ L.pivots, b ≤ a := by
  induction n generalizing rows with
  | zero => exact ⟨done, by simp [ofRows?], rfl, fun a ha => absurd ha List.not_mem_nil⟩
  | succ n ih =>
    obtain ⟨top, below, rfl⟩ := List.exists_cons_of_length_eq_add_one hrows
    have hbelow : below.length = n := Nat.succ.inj hrows
    have hwidth' : ∀ row ∈ below, row.length = n + 1 :=
      fun row hrow => hwidth row (List.mem_cons_of_mem _ hrow)
    -- the leading entry is the pivot, so it may be divided by its root
    have hlead : b ≤ top.headD 0 := by
      have hle := h.le_lead
      rw [mirrored, max_self, min_self, List.getD_cons_zero] at hle
      cases top <;> exact hle
    have hpivot := hb.trans_le hlead
    have hr := hroot _ hpivot
    have hr0 : ExactField.root (top.headD 0) ≠ 0 := fun hzero => by
      rw [hzero, mul_zero] at hr
      exact hpivot.ne hr
    have hsplits := splits_mirrored f hbelow hwidth' hr hr0 rfl
    obtain ⟨hlength, hsquare⟩ := shape_reduce (f := f) hbelow
      ((List.length_map _).trans hbelow) hwidth'
    obtain ⟨rest, hrest, hcount, hpivots⟩ := ih hlength hsquare (h.rest hb.le hsplits hr0)
    refine ⟨step (top.headD 0) (ExactField.root (top.headD 0))
      (below.map fun row => row.headD 0 / ExactField.root (top.headD 0)) rest, ?_,
      congrArg Nat.succ hcount, List.forall_mem_cons.mpr ⟨hlead, hpivots⟩⟩
    rw [ofRows?]
    dsimp only
    rw [if_pos (Arith.lt_eq_true_iff.mpr hpivot)]
    exact Option.map_eq_some_iff.mpr ⟨rest, hrest, rfl⟩

end CholeskyFactor

namespace Mat

variable {A : Mat K}

/-- **Coercivity.** A symmetric matrix whose form is at least `b·wᵀ·w` is factored, and no pivot is
below `b`. -/
theorem exists_factor_of_coercive
    (hroot : ∀ a : K, 0 < a → ExactField.root a * ExactField.root a = a)
    (hsquare : A.cols = A.rows) (hA : A.Symmetric) {b : K} (hb : 0 < b)
    (h : Coercive A.rows b A.get) :
    ∃ L, CholeskyFactor.ofMat? A = some L ∧ L.pivots.length = A.rows ∧ ∀ a ∈ L.pivots, b ≤ a := by
  refine CholeskyFactor.exists_ofRows?_of_coercive hroot A.format A.length_entries
    (fun row hrow => (A.length_row row hrow).trans hsquare) hb fun w => (h w).trans_eq ?_
  refine Finset.sum_congr rfl fun i hi => congrArg (w i * ·) (Finset.sum_congr rfl fun j hj => ?_)
  rw [← hA.mirrored_eq (Finset.mem_range.mp hi) (Finset.mem_range.mp hj)]
  rfl

end Mat

end ConvexContact
