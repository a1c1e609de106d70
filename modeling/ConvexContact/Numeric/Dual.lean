import ConvexContact.Numeric.Arith

/-!
# Dual numbers

A dual number `p + ε·t` carries a value and a derivative. Its arithmetic is the chain rule, and its
comparisons look at the value alone, so a program run on dual numbers takes the branches of the
plain run and yields its value together with a directional derivative.

A number that does not vary has no tangent at all, which is not the same as a tangent of zero: it
contributes no summand to the chain rule, not even one that multiplies zero by an infinite value.
-/

namespace ConvexContact

/-- A value with a tangent. -/
structure Dual (K : Type) where
  /-- the value -/
  primal : K
  /-- the derivative that travels with it, unless the number does not vary -/
  tangent? : Option K

namespace Dual

variable {K : Type} [Arith K]

/-- A number that does not vary. -/
def const (x : K) : Dual K := ⟨x, none⟩

/-- A number that varies with a given derivative. -/
def varying (x t : K) : Dual K := ⟨x, some t⟩

/-- The derivative, which is zero for a number that does not vary. -/
def tangent (x : Dual K) : K := x.tangent?.getD 0

/-- The sum of the parts that two operands contribute to a tangent. -/
def sumParts (add : K → K → K) : Option K → Option K → Option K
  | some s, some t => some (add s t)
  | some s, none => some s
  | none, t => t

instance : Arith (Dual K) where
  zero := const 0
  one := const 1
  add a b := ⟨a.primal + b.primal, sumParts (· + ·) a.tangent? b.tangent?⟩
  sub a b := ⟨a.primal - b.primal, sumParts (· + ·) a.tangent? (b.tangent?.map (-·))⟩
  neg a := ⟨-a.primal, a.tangent?.map (-·)⟩
  mul a b :=
    ⟨a.primal * b.primal,
      sumParts (· + ·) (a.tangent?.map (· * b.primal)) (b.tangent?.map (a.primal * ·))⟩
  div a b :=
    ⟨a.primal / b.primal,
      sumParts (· + ·) (a.tangent?.map (· / b.primal))
        (b.tangent?.map fun t => -(a.primal / b.primal * t) / b.primal)⟩
  natCast n := const (n : K)
  sqrt a :=
    ⟨Arith.sqrt a.primal, a.tangent?.map (· / (((2 : Nat) : K) * Arith.sqrt a.primal))⟩
  lt a b := Arith.lt a.primal b.primal
  le a b := Arith.le a.primal b.primal
  mayBeLess a b := Arith.mayBeLess a.primal b.primal
  cast f a := ⟨Arith.cast f a.primal, a.tangent?.map (Arith.cast f)⟩
  mulIn f a b :=
    ⟨Arith.mulIn f a.primal b.primal,
      sumParts (Arith.addIn f) (a.tangent?.map (Arith.mulIn f · b.primal))
        (b.tangent?.map (Arith.mulIn f a.primal ·))⟩
  fits f a := Arith.fits f a.primal
  alongside a b := ⟨b.primal, b.tangent?.or (a.tangent?.map fun _ => 0)⟩

omit [Arith K] in
@[simp] theorem primal_const (x : K) : (const x).primal = x := rfl

omit [Arith K] in
@[simp] theorem tangent?_const (x : K) : (const x).tangent? = none := rfl

@[simp] theorem tangent_const (x : K) : (const x).tangent = 0 := rfl

omit [Arith K] in
@[simp] theorem primal_varying (x t : K) : (varying x t).primal = x := rfl

@[simp] theorem tangent_varying (x t : K) : (varying x t).tangent = t := rfl

@[simp] theorem primal_zero : (0 : Dual K).primal = 0 := rfl

@[simp] theorem primal_one : (1 : Dual K).primal = 1 := rfl

@[simp] theorem primal_add (a b : Dual K) : (a + b).primal = a.primal + b.primal := rfl

@[simp] theorem primal_sub (a b : Dual K) : (a - b).primal = a.primal - b.primal := rfl

@[simp] theorem primal_neg (a : Dual K) : (-a).primal = -a.primal := rfl

@[simp] theorem primal_mul (a b : Dual K) : (a * b).primal = a.primal * b.primal := rfl

@[simp] theorem primal_div (a b : Dual K) : (a / b).primal = a.primal / b.primal := rfl

@[simp] theorem primal_natCast (n : Nat) : ((n : Nat) : Dual K).primal = (n : K) := rfl

@[simp] theorem primal_sqrt (a : Dual K) : (Arith.sqrt a).primal = Arith.sqrt a.primal := rfl

@[simp] theorem primal_cast (f : Format) (a : Dual K) :
    (Arith.cast f a).primal = Arith.cast f a.primal := rfl

@[simp] theorem primal_mulIn (f : Format) (a b : Dual K) :
    (Arith.mulIn f a b).primal = Arith.mulIn f a.primal b.primal := rfl

@[simp] theorem primal_alongside (a b : Dual K) : (Arith.alongside a b).primal = b.primal := rfl

@[simp] theorem lt_eq (a b : Dual K) : Arith.lt a b = Arith.lt a.primal b.primal := rfl

@[simp] theorem le_eq (a b : Dual K) : Arith.le a b = Arith.le a.primal b.primal := rfl

@[simp] theorem mayBeLess_eq (a b : Dual K) :
    Arith.mayBeLess a b = Arith.mayBeLess a.primal b.primal := rfl

@[simp] theorem fits_eq (f : Format) (a : Dual K) : Arith.fits f a = Arith.fits f a.primal := rfl

@[simp] theorem tangent?_add (a b : Dual K) :
    (a + b).tangent? = sumParts (· + ·) a.tangent? b.tangent? := rfl

@[simp] theorem tangent?_sub (a b : Dual K) :
    (a - b).tangent? = sumParts (· + ·) a.tangent? (b.tangent?.map (-·)) := rfl

@[simp] theorem tangent?_neg (a : Dual K) : (-a).tangent? = a.tangent?.map (-·) := rfl

@[simp] theorem tangent?_mul (a b : Dual K) :
    (a * b).tangent? =
      sumParts (· + ·) (a.tangent?.map (· * b.primal)) (b.tangent?.map (a.primal * ·)) := rfl

/-- The product rule. -/
theorem tangent_mul_varying (x s y t : K) :
    (varying x s * varying y t).tangent = s * y + x * t := rfl

/-- A factor that does not vary only scales the derivative. -/
theorem tangent_const_mul_varying (c x t : K) :
    (const c * varying x t).tangent = c * t := rfl

end Dual

end ConvexContact
