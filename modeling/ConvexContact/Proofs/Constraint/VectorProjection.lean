import ConvexContact.Constraint.TensorProjection
import ConvexContact.Proofs.Index.Slabs

/-!
# Projections of tensors on vectors

A caller may project tensors of any shape, so the named projections are written twice: for vectors
(`Projection.run`), which is what a model computes with, and for tensors (`Projection.runGiven`).
Here the two are shown to agree on vectors: `Projection.runGiven_toTensor`.

It needs two assumptions. Unprojected impulses and regularization have one size, as they do for a
constraint; otherwise `timesR` would stretch one of them. And the Jacobian can be held, since the
rules for tensors check this even where nobody asks for it.
-/

namespace ConvexContact

variable {K : Type}

/-- The multi-indices of a vector are its indices. -/
theorem indices_singleton (n : Nat) : Shape.indices [n] = (List.range n).map fun i => [i] := by
  simp [Shape.indices, ← List.map_eq_flatMap]

/-- With a single axis, a tensor is read at the index itself: stretching an axis of length one
changes nothing. -/
theorem Shape.restrict_singleton {n i : Nat} (h : i < n) : restrict [n] [i] = [i] := by
  have hone : n = 1 → i = 0 := by omega
  simpa [restrict] using fun h => (hone h).symm

/-- A vector is read at its own indices when it is combined with another one of its size. -/
theorem Vec.get_cast_toTensor [Arith K] {v : Vec K} (f : Format) {i : Nat}
    (h : i < v.entries.length) :
    (v.toTensor.cast f).get (Shape.restrict v.toTensor.shape [i]) = Arith.cast f v.entries[i] := by
  have hindex : Shape.restrict v.toTensor.shape [i] = [i] := Shape.restrict_singleton h
  rw [hindex]
  simp [Tensor.get, Tensor.cast, Tensor.map, toTensor, shape, Shape.place, h]

/-- Vectors of one size are combined entry by entry. -/
theorem Tensor.combine?_toTensor [Arith K] (op : Format → K → K → K) {a b : Vec K}
    (h : b.size = a.size) : combine? op a.toTensor b.toTensor = some (a.zipIn op b).toTensor := by
  have hshape : Shape.stretch? a.toTensor.shape b.toTensor.shape = some [a.size] := by
    simp [Shape.stretch?, Shape.stretchReversed?, Vec.toTensor, Vec.shape, h]
  rw [combine?, hshape, Option.map_some]
  refine congrArg some (Tensor.ext_parts rfl ?_ ?_)
  · simp [ofFn, Vec.toTensor, Vec.shape, h]
  · refine List.ext_getElem ?_ fun i hi _ => ?_
    · simp [ofFn, indices_singleton, Vec.toTensor, Vec.zipIn, ← Vec.size.eq_1, h]
    · have ha : i < a.size := by simpa [ofFn, indices_singleton] using hi
      have ha : i < a.entries.length := ha
      have hb : i < b.entries.length := Nat.lt_of_lt_of_eq ha h.symm
      simp only [ofFn, indices_singleton, List.getElem_map, List.getElem_range,
        Vec.get_cast_toTensor _ ha, Vec.get_cast_toTensor _ hb]
      simp only [Vec.toTensor, Vec.zipIn, List.getElem_zipWith]
      rfl

namespace Projection

variable [Arith K] {y R : Vec K}

/-- The impulses are those of the vector. -/
theorem valueTensor_toTensor (P : Projection K) (h : R.size = y.size) :
    P.valueTensor y.toTensor (.tensor R.toTensor) = (P.value y R).map Vec.toTensor := by
  have hcomponents : ∀ f : Format, ∀ g : K → K,
      ({ y.toTensor.map g with format := f } : Tensor K) = Vec.toTensor ⟨f, y.entries.map g⟩ :=
    fun f g => Tensor.ext_parts rfl (by simp [Vec.toTensor, Vec.shape, Vec.size, Tensor.map]) rfl
  cases P with
  | nonneg | zero | box _ _ => exact congrArg Except.ok (hcomponents _ _)
  | identity | identityOn _ | withoutJacobian | wideJacobian | unspecified | rule _ => rfl
  | linear M => rfl
  | timesR =>
    -- one entry would be stretched on either side, but the sizes are equal
    have hoperand : (Given.tensor R.toTensor).asOperand = .ok R.toTensor := rfl
    rw [valueTensor, Outcome.bind_of_ok _ hoperand, Tensor.combine?_toTensor _ h, value, Vec.mul?,
      if_pos h.symm]
    rfl
  | dropLast =>
    refine congrArg Except.ok ?_
    have hslabs : y.toTensor.slabs = y.entries.map fun x => [x] := by
      rw [PartialPermutation.toTensor_eq_ofSlabs]
      exact Tensor.slabs_ofSlabs _ (PartialPermutation.length_of_mem_singletons _)
    rw [hslabs, ← List.map_dropLast]
    exact (PartialPermutation.toTensor_eq_ofSlabs ⟨y.format, y.entries.dropLast⟩).symm

/-- The Jacobian of a vector is that of the vector's rule. -/
theorem jacobianTensor_toTensor (P : Projection K) :
    P.jacobianTensor y.size y.toTensor (.tensor R.toTensor) =
      .ok ((P.jacobian y R).map Mat.toTensor) := by
  cases P with
  | nonneg | box _ _ => rfl
  | timesR => rfl
  | identity | dropLast | identityOn _ | zero | linear _ | wideJacobian => rfl
  | withoutJacobian | unspecified | rule _ => rfl

omit [Arith K] in
/-- Where the widest of the Jacobians can be held, each one can. -/
theorem checkJacobian_toTensor (P : Projection K)
    (h : (checkShape [y.size, y.size + 1] : Except (Error K) Unit) = .ok ()) :
    P.checkJacobian y.size y.toTensor (.tensor R.toTensor) = .ok () := by
  have hsquare : (checkShape [y.size, y.size] : Except (Error K) Unit) = .ok () := by
    obtain ⟨haxes, hsize⟩ := checkShape_eq_ok.mp h
    have hfewer : Shape.size [y.size, y.size] ≤ Shape.size [y.size, y.size + 1] := by
      simpa using Nat.mul_le_mul_left y.size (Nat.le_succ y.size)
    refine checkShape_eq_ok.mpr ⟨?_, ?_⟩
    · simpa using haxes y.size List.mem_cons_self
    · exact Nat.lt_of_le_of_lt hfewer hsize
  cases P with
  | nonneg | box _ _ | timesR => rfl
  | identity | dropLast | zero => exact hsquare
  | wideJacobian => exact h
  | identityOn _ | linear _ | withoutJacobian | unspecified | rule _ => rfl

/-- A projection with a name answers on vectors with the vectors' answer. -/
theorem namedTensor_toTensor (P : Projection K) (hsize : R.size = y.size)
    (hheld : (checkShape [y.size, y.size + 1] : Except (Error K) Unit) = .ok ()) (wanted : Bool) :
    P.namedTensor y.toTensor (.tensor R.toTensor) wanted =
      (P.value y R).map fun γ =>
        (γ.toTensor, if wanted then (P.jacobian y R).map Mat.toTensor else none) := by
  have hextent : extent y.toTensor = .ok y.size := rfl
  rw [namedTensor, Outcome.bind_of_ok _ hextent, valueTensor_toTensor P hsize]
  cases P.value y R with
  | error e => rfl
  | ok γ =>
    have hγ : (Except.ok γ : Except (Error K) (Vec K)).map Vec.toTensor = .ok γ.toTensor := rfl
    rw [Outcome.bind_of_ok _ hγ, Outcome.bind_of_ok _ (checkJacobian_toTensor P hheld),
      jacobianTensor_toTensor]
    cases wanted <;> rfl

/-- A projection given as a function is handed the vectors. -/
theorem ruleTensor_toTensor (f : Vec K → Vec K → Bool → Option (Vec K × Option (Mat K)))
    (wanted : Bool) :
    ruleTensor f y.toTensor R.toTensor wanted =
      ((rule f).run y R wanted).map fun answer =>
        (answer.1.toTensor, answer.2.map Mat.toTensor) := by
  rw [ruleTensor, run]
  simp only [Vec.ofTensor?_toTensor]
  cases f y R wanted <;> rfl

/-- **Projections of vectors.** Handed over as tensors, they are answered as vectors are. -/
theorem runGiven_toTensor (P : Projection K) (hsize : R.size = y.size)
    (hheld : (checkShape [y.size, y.size + 1] : Except (Error K) Unit) = .ok ()) (wanted : Bool) :
    P.runGiven (.tensor y.toTensor) (.tensor R.toTensor) wanted =
      (P.run y R wanted).map fun answer =>
        (.tensor answer.1.toTensor, answer.2.map Mat.toTensor) := by
  have hnamed : P.isRule = false →
      (P.namedTensor y.toTensor (.tensor R.toTensor) wanted).map
          (fun answer => (Given.tensor answer.1, answer.2)) =
        (P.run y R wanted).map fun answer =>
          (.tensor answer.1.toTensor, answer.2.map Mat.toTensor) := by
    intro hrule
    rw [run_of_named hrule, namedTensor_toTensor P hsize hheld]
    cases P.value y R with
    | error e => rfl
    | ok γ => cases wanted <;> rfl
  cases P with
  | unspecified => rfl
  | identityOn n => cases wanted <;> rfl
  | rule f =>
    have hy : (Given.tensor y.toTensor).asTensor = .ok y.toTensor := rfl
    have hR : (Given.tensor R.toTensor).asTensor = .ok R.toTensor := rfl
    rw [runGiven, Outcome.bind_of_ok _ hy, Outcome.bind_of_ok _ hR, ruleTensor_toTensor]
    cases (rule f).run y R wanted <;> rfl
  | _ => exact hnamed rfl

end Projection

end ConvexContact
