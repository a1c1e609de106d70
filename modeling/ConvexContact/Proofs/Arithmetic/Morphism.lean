import Mathlib.Data.List.Induction
import Mathlib.Tactic.DeriveTraversable
import ConvexContact.Error
import ConvexContact.Numeric.Dual
import ConvexContact.Proofs.Outcome

/-!
# Morphisms of arithmetic

A map of numbers is a **morphism** when it keeps every operation and every test (`Arith.Hom`).
Whatever is computed from numbers can be computed before or after such a map, branches included, as
the definitions of the library only use what the map keeps.

Dual numbers are sent to their values. That is a morphism when plain numbers count nothing as
varying (`Dual.hom_primal`), as machine numbers and exact ones do.

Outcomes are carried along (`Outcome.carry`): an answer to its image, and a cause to the same cause
with the images of the values that describe it. The lemmas on `carry` follow the ways in which the
library puts computations together, one for each: in sequence (`carry_bind`), for every entry of a
list (`carry_mapM` and its cases), and along a list (`carry_foldlM`). A computation is carried over
by following its definition with these lemmas.
-/

namespace ConvexContact

variable {L K α β γ δ : Type}

/-! ## Numbers -/

/-- A map that keeps every operation and every test. -/
structure Arith.Hom [Arith L] [Arith K] (φ : L → K) : Prop where
  zero : φ 0 = 0
  one : φ 1 = 1
  add : ∀ a b, φ (a + b) = φ a + φ b
  sub : ∀ a b, φ (a - b) = φ a - φ b
  neg : ∀ a, φ (-a) = -φ a
  mul : ∀ a b, φ (a * b) = φ a * φ b
  div : ∀ a b, φ (a / b) = φ a / φ b
  natCast : ∀ n : Nat, φ (n : L) = (n : K)
  sqrt : ∀ a, φ (Arith.sqrt a) = Arith.sqrt (φ a)
  lt : ∀ a b, Arith.lt (φ a) (φ b) = Arith.lt a b
  le : ∀ a b, Arith.le (φ a) (φ b) = Arith.le a b
  mayBeLess : ∀ a b, Arith.mayBeLess (φ a) (φ b) = Arith.mayBeLess a b
  cast : ∀ f a, φ (Arith.cast f a) = Arith.cast f (φ a)
  mulIn : ∀ f a b, φ (Arith.mulIn f a b) = Arith.mulIn f (φ a) (φ b)
  fits : ∀ f a, Arith.fits f (φ a) = Arith.fits f a
  alongside : ∀ a b, φ (Arith.alongside a b) = Arith.alongside (φ a) (φ b)

/-- The value of a dual number, where plain numbers count nothing as varying. -/
theorem Dual.hom_primal [Arith K] (hplain : ∀ a b : K, Arith.alongside a b = b) :
    Arith.Hom (Dual.primal : Dual K → K) where
  zero := rfl
  one := rfl
  add _ _ := rfl
  sub _ _ := rfl
  neg _ := rfl
  mul _ _ := rfl
  div _ _ := rfl
  natCast _ := rfl
  sqrt _ := rfl
  lt _ _ := rfl
  le _ _ := rfl
  mayBeLess _ _ := rfl
  cast _ _ := rfl
  mulIn _ _ _ := rfl
  fits _ _ := rfl
  alongside a b := (hplain a.primal b.primal).symm

namespace Arith.Hom

variable [Arith L] [Arith K] {φ : L → K} (h : Hom φ)
include h

theorem half : φ Arith.half = Arith.half := by
  rw [Arith.half, h.div, h.one, h.natCast]
  rfl

/-- What has no value is a quotient of zeros, which a morphism keeps like any other. -/
theorem undefined : φ Arith.undefined = Arith.undefined := by
  rw [Arith.undefined, h.div, h.zero]
  rfl

theorem eq (a b : L) : Arith.eq (φ a) (φ b) = Arith.eq a b := by
  rw [Arith.eq, h.le, h.le]
  rfl

theorem abs (a : L) : φ (Arith.abs a) = Arith.abs (φ a) := by
  rw [Arith.abs, Arith.abs, apply_ite φ, h.neg, ← h.zero, h.lt]

theorem larger (a b : L) : φ (Arith.larger a b) = Arith.larger (φ a) (φ b) := by
  rw [Arith.larger, Arith.larger, apply_ite φ, apply_ite φ, h.add, h.lt, h.le]

theorem addIn (f : Format) (a b : L) : φ (Arith.addIn f a b) = Arith.addIn f (φ a) (φ b) := by
  rw [Arith.addIn, h.cast, h.add]
  rfl

theorem subIn (f : Format) (a b : L) : φ (Arith.subIn f a b) = Arith.subIn f (φ a) (φ b) := by
  rw [Arith.subIn, h.cast, h.sub]
  rfl

theorem term (f : Format) (a b : L) : φ (Arith.term f a b) = Arith.term f (φ a) (φ b) := by
  rw [Arith.term, h.mulIn, h.alongside, h.alongside]
  rfl

/-- A sum is a fold from the front, so the induction is on the list from its end. -/
theorem sum (f : Format) (xs : List L) : φ (Arith.sum f xs) = Arith.sum f (xs.map φ) := by
  induction xs using List.reverseRecOn with
  | nil => exact h.zero
  | append_singleton xs x ih =>
    rw [Arith.sum_append_singleton, h.addIn, ih, List.map_append, List.map_singleton,
      Arith.sum_append_singleton]

theorem dot (f : Format) (xs ys : List L) :
    φ (Arith.dot f xs ys) = Arith.dot f (xs.map φ) (ys.map φ) := by
  rw [Arith.dot, Arith.dot, h.sum, List.map_zipWith, List.zipWith_map]
  simp only [h.term]

/-- The length of a vector. Of a single entry it is the absolute value, and only from two entries on
a root is taken. -/
theorem norm (f : Format) (xs : List L) : φ (Arith.norm f xs) = Arith.norm f (xs.map φ) := by
  match xs with
  | [] =>
    simp only [Arith.norm, List.map_nil, h.cast, h.sqrt, h.dot]
  | [x] => simp only [Arith.norm, List.map_cons, List.map_nil, h.cast, h.abs]
  | x :: y :: xs => simp only [Arith.norm, List.map_cons, h.cast, h.sqrt, h.dot]

/-- Behind the end of a list stands zero, whose image is zero. -/
theorem getD (xs : List L) (i : Nat) : (xs.map φ).getD i 0 = φ (xs.getD i 0) := by
  rw [List.getD_eq_getElem?_getD, List.getD_eq_getElem?_getD, List.getElem?_map]
  cases xs[i]? with
  | none => exact h.zero.symm
  | some x => rfl

end Arith.Hom

/-! ## Outcomes -/

instance : Functor Vec where
  map := Vec.map

deriving instance Functor for Scalar

deriving instance Functor for Error

namespace Outcome

variable {φ : L → K}

/-- The outcome with the images of the answer and of the values that describe a cause. -/
def carry (φ : L → K) (f : α → β) : Except (Error L) α → Except (Error K) β
  | .ok a => .ok (f a)
  | .error e => .error (e.map φ)

@[simp] theorem carry_ok (f : α → β) (a : α) : carry φ f (.ok a) = .ok (f a) := rfl

@[simp] theorem carry_error (f : α → β) (e : Error L) : carry φ f (.error e) = .error (e.map φ) :=
  rfl

/-- An outcome is carried to a success when it is one. -/
@[simp] theorem isOk_carry (f : α → β) (x : Except (Error L) α) : (carry φ f x).isOk = x.isOk := by
  cases x <;> rfl

/-- Two computations in sequence, when the second is carried over for each answer of the first. This
is the lemma that all of the others rest on. -/
theorem carry_bind {x : Except (Error L) α} {k : α → Except (Error L) γ} {f : α → β} {g : γ → δ}
    {k' : β → Except (Error K) δ} (h : ∀ a, carry φ g (k a) = k' (f a)) :
    carry φ g (x >>= k) = carry φ f x >>= k' := by
  cases x with
  | error e => rfl
  | ok a => exact h a

/-- A computation whose answer is put in another form. -/
theorem carry_map {x : Except (Error L) α} {k : α → γ} {f : α → β} {g : γ → δ} {k' : β → δ}
    (h : ∀ a, g (k a) = k' (f a)) : carry φ g (x.map k) = (carry φ f x).map k' := by
  cases x with
  | error e => rfl
  | ok a => exact congrArg Except.ok (h a)

/-- Steps for the entries of two lists, each of which is carried to the other. -/
theorem carry_mapM {F : α → Except (Error L) γ} {G : β → Except (Error K) δ} {f : γ → δ}
    {xs : List α} {ys : List β} (h : List.Forall₂ (fun x y => carry φ f (F x) = G y) xs ys) :
    carry φ (List.map f) (xs.mapM F) = ys.mapM G := by
  induction h with
  | nil => rfl
  | cons hxy _ ih =>
    rw [List.mapM_cons, List.mapM_cons, ← hxy, ← ih]
    exact carry_bind fun a => carry_bind fun as => rfl

/-- Steps for the entries of a list, each of which is carried to the step for its image. -/
theorem carry_mapM_map {F : α → Except (Error L) γ} {G : β → Except (Error K) δ} {f : α → β}
    {g : γ → δ} (h : ∀ x, carry φ g (F x) = G (f x)) (xs : List α) :
    carry φ (List.map g) (xs.mapM F) = (xs.map f).mapM G :=
  carry_mapM (List.forall₂_map_right_iff.mpr (List.forall₂_same.mpr fun x _ => h x))

/-- Steps for the entries of a list and their places. -/
theorem carry_mapM_zipIdx {F : α × Nat → Except (Error L) γ} {G : β × Nat → Except (Error K) δ}
    {f : α → β} {g : γ → δ} (h : ∀ x i, carry φ g (F (x, i)) = G (f x, i)) (xs : List α) :
    carry φ (List.map g) (xs.zipIdx.mapM F) = (xs.map f).zipIdx.mapM G := by
  rw [List.zipIdx_map]
  exact carry_mapM_map (fun p => h p.1 p.2) xs.zipIdx

/-- Steps along two lists, each of which is carried to the other. -/
theorem carry_foldlM {F : γ → α → Except (Error L) γ} {G : δ → β → Except (Error K) δ} {f : γ → δ}
    {xs : List α} {ys : List β}
    (h : List.Forall₂ (fun x y => ∀ c, carry φ f (F c x) = G (f c) y) xs ys) (c : γ) :
    carry φ f (xs.foldlM F c) = ys.foldlM G (f c) := by
  induction h generalizing c with
  | nil => rfl
  | cons hxy _ ih =>
    rw [List.foldlM_cons, List.foldlM_cons, ← hxy]
    exact carry_bind ih

end Outcome

end ConvexContact
