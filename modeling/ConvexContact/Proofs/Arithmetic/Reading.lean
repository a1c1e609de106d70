import Mathlib.Algebra.DualNumber
import Mathlib.Algebra.BigOperators.Group.List.Basic
import ConvexContact.Proofs.Arithmetic.Exact
import ConvexContact.Numeric.Dual

/-!
# Readings

Sums, products and inner products are folds that store every partial result in a format, and on dual
numbers they also keep track of what varies. A **reading** forgets both: it sends the numbers to a
commutative ring, and every operation to the operation of the ring. What is computed without
divisions and comparisons can be read off through it once for all kinds of numbers that have one:

* `Reading.exact` — exact numbers are read as they are;
* `Reading.dual` — dual numbers over an exact field are read as `p + ε·t` with `ε² = 0`.

So a formula is shown to be what it should be only once, for any reading. Read exactly, it is a
statement about values; read in dual numbers, its second part is the derivative of that statement,
and nothing has to be differentiated by hand (`fst_sum_map`, `snd_sum_map`).
-/

namespace ConvexContact

/-- A map to a commutative ring under which every operation becomes the ring's. -/
structure Reading (K R : Type) [Arith K] [CommRing R] where
  toFun : K → R
  zero' : toFun 0 = 0
  add' : ∀ a b, toFun (a + b) = toFun a + toFun b
  sub' : ∀ a b, toFun (a - b) = toFun a - toFun b
  neg' : ∀ a, toFun (-a) = -toFun a
  cast' : ∀ f a, toFun (Arith.cast f a) = toFun a
  mulIn' : ∀ f a b, toFun (Arith.mulIn f a b) = toFun a * toFun b
  alongside' : ∀ a b, toFun (Arith.alongside a b) = toFun b

namespace Reading

variable {K R : Type} [Arith K] [CommRing R] (φ : Reading K R)

instance : CoeFun (Reading K R) fun _ => K → R := ⟨toFun⟩

@[simp] theorem map_zero : φ 0 = 0 := φ.zero'

@[simp] theorem map_neg (a : K) : φ (-a) = -φ a := φ.neg' a

@[simp] theorem map_cast (f : Format) (a : K) : φ (Arith.cast f a) = φ a := φ.cast' f a

@[simp] theorem map_mulIn (f : Format) (a b : K) : φ (Arith.mulIn f a b) = φ a * φ b :=
  φ.mulIn' f a b

@[simp] theorem map_addIn (f : Format) (a b : K) : φ (Arith.addIn f a b) = φ a + φ b := by
  rw [Arith.addIn, map_cast, φ.add']

@[simp] theorem map_subIn (f : Format) (a b : K) : φ (Arith.subIn f a b) = φ a - φ b := by
  rw [Arith.subIn, map_cast, φ.sub']

/-- One summand of an inner product. It counts as varying next to its operands, of which a reading
knows nothing. -/
@[simp] theorem map_term (f : Format) (a b : K) : φ (Arith.term f a b) = φ a * φ b := by
  rw [Arith.term, map_mulIn, φ.alongside', φ.alongside']

/-- A stored sum is the sum. -/
theorem map_sum (f : Format) (xs : List K) : φ (Arith.sum f xs) = (xs.map φ).sum := by
  induction xs using List.reverseRecOn with
  | nil => exact φ.map_zero
  | append_singleton xs x ih =>
    rw [Arith.sum_append_singleton, map_addIn, ih, List.map_append, List.sum_append,
      List.map_singleton, List.sum_singleton]

/-- A stored inner product is the inner product. -/
theorem map_dot (f : Format) (xs ys : List K) :
    φ (Arith.dot f xs ys) = (List.zipWith (fun x y => φ x * φ y) xs ys).sum := by
  rw [Arith.dot, map_sum, List.map_zipWith]
  simp only [map_term]

end Reading

/-- The reading that tells nothing apart. Sizes and formats do not depend on what is read, so it
serves where nothing is known of the numbers. -/
def Reading.trivial (K : Type) [Arith K] : Reading K PUnit where
  toFun _ := 0
  zero' := rfl
  add' _ _ := rfl
  sub' _ _ := rfl
  neg' _ := rfl
  cast' _ _ := rfl
  mulIn' _ _ _ := rfl
  alongside' _ _ := rfl

/-! ## Exact numbers -/

section Exact

variable {K : Type} [ExactField K]

/-- Exact numbers are read as they are. -/
def Reading.exact : Reading K K where
  toFun a := a
  zero' := rfl
  add' _ _ := rfl
  sub' _ _ := rfl
  neg' _ := rfl
  cast' _ _ := rfl
  mulIn' _ _ _ := rfl
  alongside' _ _ := rfl

@[simp] theorem Reading.exact_apply (a : K) : Reading.exact a = a := rfl

end Exact

/-! ## Dual numbers -/

namespace Dual

variable {K : Type} [ExactField K]

/-- A dual number as an element of the ring of dual numbers. -/
def toRing (x : Dual K) : DualNumber K := (x.primal, x.tangent)

@[simp] theorem fst_toRing (x : Dual K) : x.toRing.fst = x.primal := rfl

@[simp] theorem snd_toRing (x : Dual K) : x.toRing.snd = x.tangent := rfl

/-- The tangent of a combination is the sum of the parts of the operands. -/
theorem getD_sumParts (a b : Option K) :
    (sumParts (· + ·) a b).getD 0 = a.getD 0 + b.getD 0 := by
  rcases a with - | a <;> rcases b with - | b <;> simp [sumParts]

/-- What does not vary has the derivative zero, so that derivatives can be added without looking at
which operands vary. -/
theorem tangent_add (a b : Dual K) : (a + b).tangent = a.tangent + b.tangent :=
  getD_sumParts _ _

theorem tangent_neg (a : Dual K) : (-a).tangent = -a.tangent := by
  rcases a with ⟨p, - | t⟩ <;> simp [tangent]

/-- A difference keeps apart what varies in the same way as a sum of the first and the negative
second. -/
theorem tangent_sub (a b : Dual K) : (a - b).tangent = a.tangent - b.tangent := by
  rw [sub_eq_add_neg, ← tangent_neg b]
  exact getD_sumParts _ _

/-- The product rule, for operands of which one or both vary. -/
theorem tangent_mulIn (f : Format) (a b : Dual K) :
    (Arith.mulIn f a b).tangent = a.primal * b.tangent + a.tangent * b.primal := by
  have hparts : (Arith.mulIn f a b).tangent =
      (a.tangent?.map (· * b.primal)).getD 0 + (b.tangent?.map (a.primal * ·)).getD 0 :=
    getD_sumParts _ _
  rw [hparts]
  rcases a with ⟨p, - | s⟩ <;> rcases b with ⟨q, - | t⟩ <;> simp [tangent, add_comm]

theorem tangent_cast (f : Format) (a : Dual K) : (Arith.cast f a).tangent = a.tangent := by
  rcases a with ⟨p, - | t⟩ <;> rfl

/-- A number that only stands next to a varying one counts as varying, with the derivative zero. -/
theorem tangent_alongside (a b : Dual K) : (Arith.alongside a b).tangent = b.tangent := by
  rcases a with ⟨p, - | s⟩ <;> rcases b with ⟨q, - | t⟩ <;> rfl

theorem tangent_half : (Arith.half : Dual K).tangent = 0 := rfl

end Dual

/-- Dual numbers over an exact field are read as elements of the ring of dual numbers. -/
def Reading.dual {K : Type} [ExactField K] : Reading (Dual K) (DualNumber K) where
  toFun := Dual.toRing
  zero' := rfl
  add' a b := TrivSqZeroExt.ext rfl (Dual.tangent_add a b)
  sub' a b := TrivSqZeroExt.ext rfl (Dual.tangent_sub a b)
  neg' a := TrivSqZeroExt.ext rfl (Dual.tangent_neg a)
  cast' f a := TrivSqZeroExt.ext rfl (Dual.tangent_cast f a)
  mulIn' f a b := by
    refine TrivSqZeroExt.ext rfl ?_
    rw [Dual.snd_toRing, Dual.tangent_mulIn, TrivSqZeroExt.snd_mul]
    simp [mul_comm]
  alongside' a b := TrivSqZeroExt.ext rfl (Dual.tangent_alongside a b)

section Parts

variable {K α : Type} [ExactField K]

/-- The value of a sum is the sum of the values. -/
theorem fst_sum_map (us : List α) (F : α → DualNumber K) :
    (us.map F).sum.fst = (us.map fun u => (F u).fst).sum := by
  have h := map_list_sum (TrivSqZeroExt.fstHom K K K) (us.map F)
  rwa [List.map_map] at h

/-- The derivative of a sum is the sum of the derivatives. -/
theorem snd_sum_map (us : List α) (F : α → DualNumber K) :
    (us.map F).sum.snd = (us.map fun u => (F u).snd).sum := by
  have h := map_list_sum (TrivSqZeroExt.sndHom K K) (us.map F)
  rwa [List.map_map] at h

end Parts

end ConvexContact
