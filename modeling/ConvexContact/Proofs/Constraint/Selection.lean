import ConvexContact.Proofs.Linear.Coordinates
import ConvexContact.Constraint.Projection

/-!
# Projections that select components

The positive part, the identity and the zero projection keep each component or drop it, so their
impulses satisfy `γ = D·y` with a diagonal `D` of ones and zeros, which is also their Jacobian.
Which components are kept is decided by a comparison with zero, so the lemmas of this module are
about arithmetic that orders every number with zero and does not round (`Arith.IsExact`). Exact
fields have such an arithmetic, and so have the dual numbers over them.

Selection is stated through a reading. On dual numbers it then says two things at once: the impulse
is the component or zero, and its derivative is that of the component or zero.
-/

namespace ConvexContact

/-- Nothing is rounded, and every number is ordered with zero. -/
structure Arith.IsExact (K : Type) [Arith K] : Prop where
  cast_eq : ∀ (f : Format) (a : K), Arith.cast f a = a
  lt_zero : ∀ a : K, Arith.lt a 0 = !Arith.le 0 a
  mayBeLess_zero : ∀ a : K, Arith.mayBeLess a 0 = Arith.lt a 0

/-- In a field the order is total, so what is not at least zero is less. -/
theorem Arith.isExact_of_field (K : Type) [ExactField K] : Arith.IsExact K where
  cast_eq _ _ := rfl
  lt_zero a := by
    by_cases ha : 0 ≤ a
    · rw [Arith.le_eq_true_iff.mpr ha]
      exact decide_eq_false (not_lt.mpr ha)
    · have hle : Arith.le 0 a = false := decide_eq_false ha
      rw [hle, Arith.lt_eq_true_iff.mpr (not_le.mp ha)]
      rfl
  mayBeLess_zero _ := rfl

/-- Dual numbers are compared by their values. -/
theorem Dual.isExact (K : Type) [ExactField K] : Arith.IsExact (Dual K) where
  cast_eq f a := by
    rcases a with ⟨x, - | t⟩ <;> rfl
  lt_zero a := (Arith.isExact_of_field K).lt_zero a.primal
  mayBeLess_zero _ := rfl

namespace Projection

variable {K : Type}

/-- The projections that keep each component or drop it. -/
def Selects : Projection K → Prop
  | nonneg | identity | identityOn _ | zero => True
  | _ => False

instance (P : Projection K) : Decidable P.Selects :=
  match P with
  | nonneg | identity | identityOn _ | zero => isTrue trivial
  | box _ _ | linear _ | timesR | dropLast | withoutJacobian | wideJacobian | unspecified
  | rule _ => isFalse id

variable [Arith K]

/-- Whether a component is kept: by the positive part from zero on, always by the identity, and
never by the zero projection. -/
def keeps (P : Projection K) (y : K) : Bool :=
  match P with
  | nonneg => Arith.le 0 y
  | zero => false
  | _ => true

@[simp] theorem size_componentwise (P : Projection K) (y : Vec K) :
    (P.componentwise y).size = y.size :=
  List.length_map _

/-- An impulse depends on its own component alone. -/
theorem get_componentwise (P : Projection K) {y : Vec K} {i : Nat} (hi : i < y.size) :
    (P.componentwise y).get i = P.component (P.formatOf y.format) (y.get i) := by
  have hi' : i < y.entries.length := hi
  simp [componentwise, Vec.get, List.getD_eq_getElem?_getD, hi']

section Reading

variable {R : Type} [CommRing R] (φ : Reading K R) {P : Projection K}

/-- The positive part is read as the number itself or as zero. -/
theorem map_positivePart (hK : Arith.IsExact K) (y : K) :
    φ (positivePart y) = if Arith.le 0 y then φ y else 0 := by
  have hlt := hK.lt_zero y
  cases hle : Arith.le 0 y with
  | true =>
    rw [hle] at hlt
    rw [positivePart_of_le hle ((hK.mayBeLess_zero y).trans hlt), if_pos rfl]
  | false =>
    rw [hle] at hlt
    rw [positivePart_of_lt hle hlt, φ.alongside', φ.map_zero, if_neg Bool.false_ne_true]

/-- **Selection.** A projection that selects components has impulses, each of them the component or
zero. -/
theorem Selects.exists_run (hP : P.Selects) (hK : Arith.IsExact K) (y R : Vec K) :
    ∃ γ, P.run y R false = .ok (γ, none) ∧ γ.size = y.size ∧
      (y.format.isFloating = true → γ.format = y.format) ∧
      ∀ i, i < y.size → φ (γ.get i) = if P.keeps (y.get i) then φ (y.get i) else 0 := by
  cases P with
  | nonneg =>
    refine ⟨nonneg.componentwise y, rfl, size_componentwise _ y, fun hf => if_pos hf,
      fun i hi => ?_⟩
    rw [get_componentwise _ hi, component, hK.cast_eq, map_positivePart φ hK]
    rfl
  | zero =>
    refine ⟨zero.componentwise y, rfl, size_componentwise _ y, fun hf => if_pos hf,
      fun i hi => ?_⟩
    rw [get_componentwise _ hi, component, φ.map_mulIn, φ.map_zero, mul_zero]
    rfl
  | identity => exact ⟨y, rfl, rfl, fun _ => rfl, fun i _ => rfl⟩
  | identityOn n => exact ⟨y, rfl, rfl, fun _ => rfl, fun i _ => rfl⟩
  | box _ _ | linear _ | timesR | dropLast | withoutJacobian | wideJacobian | unspecified
  | rule _ => exact hP.elim

end Reading

end Projection

end ConvexContact
