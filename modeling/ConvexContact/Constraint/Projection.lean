import ConvexContact.Linear.Mat

/-!
# Projections

The impulses of a constraint are what its projection makes of the unprojected ones,
`γ = P(y)`. A projection answers with `γ` and, when asked, with its Jacobian `dP/dy`.

* `Projection.value` and `Projection.jacobian` are the rules with a name, componentwise ones first;
* `Projection.rule` is a projection given as a function, whose answer may depend on whether the
  Jacobian was asked for;
* `Projection.run` is what the rest of the library calls.
-/

namespace ConvexContact

/-- How unprojected impulses become feasible ones. -/
inductive Projection (K : Type) where
  /-- the positive part of each component -/
  | nonneg
  /-- impulses as they are -/
  | identity
  /-- impulses as they are, for a constraint of `n` equations -/
  | identityOn (n : Nat)
  /-- no impulses -/
  | zero
  /-- each component brought between two bounds -/
  | box (lo hi : K)
  /-- a linear map -/
  | linear (M : Mat K)
  /-- each component times its regularization -/
  | timesR
  /-- impulses without the last component -/
  | dropLast
  /-- impulses as they are, and never a Jacobian -/
  | withoutJacobian
  /-- impulses as they are, with a Jacobian that has one column too many -/
  | wideJacobian
  /-- no rule -/
  | unspecified
  /-- a function of `y`, `R` and whether the Jacobian is asked for; no answer means no rule -/
  | rule (f : Vec K → Vec K → Bool → Option (Vec K × Option (Mat K)))

namespace Projection

variable {K : Type} [Arith K]

/-- The positive part of a number: the number itself from zero on, and a zero that does not move for
what lies below. What is unordered with zero has no positive part. -/
def positivePart (y : K) : K :=
  if Arith.le 0 y then
    if Arith.mayBeLess y 0 then Arith.alongside y 0 else y
  else if Arith.lt y 0 then Arith.alongside y 0
  else Arith.alongside y Arith.undefined

/-- The bound that a number outside two bounds is brought to; when they cross, it is the upper one.
What is unordered with one of the three has no bound. -/
def nearestBound (lo hi y : K) : K :=
  if Arith.lt hi lo then (if Arith.eq y y then hi else Arith.undefined)
  else if Arith.lt y lo then (if Arith.le lo hi then lo else Arith.undefined)
  else if Arith.lt hi y then (if Arith.le lo y then hi else Arith.undefined)
  else Arith.undefined

/-- A number brought between two bounds, which do not move. -/
def clamp (lo hi y : K) : K :=
  if Arith.le lo y && Arith.le y hi then
    if Arith.mayBeLess y lo || Arith.mayBeLess hi y then
      Arith.alongside y (if Arith.mayBeLess y lo then lo else hi)
    else y
  else Arith.alongside y (nearestBound lo hi y)

/-- One or zero. -/
def indicator (b : Bool) : K := if b then 1 else 0

/-- The format of the impulses under a projection that goes component by component: bounds and
multipliers are fractions. -/
def formatOf (P : Projection K) (f : Format) : Format :=
  match P with
  | nonneg | box _ _ | zero => f.real
  | _ => f

/-- One component of the impulses under a projection that goes component by component, in format
`f`. -/
def component (P : Projection K) (f : Format) (y : K) : K :=
  match P with
  | nonneg => positivePart (Arith.cast f y)
  | box lo hi => clamp (Arith.cast f lo) (Arith.cast f hi) (Arith.cast f y)
  | zero => Arith.mulIn f y 0
  | _ => y

/-- Whether a component moves with its impulse, for a projection that goes component by
component. -/
def moves (P : Projection K) (f : Format) (y : K) : Bool :=
  match P with
  | nonneg => Arith.le 0 y
  | box lo hi =>
    let y := Arith.cast f y
    Arith.le (Arith.cast f lo) y && Arith.le y (Arith.cast f hi)
  | _ => false

/-- The impulses under a projection that goes component by component. -/
def componentwise (P : Projection K) (y : Vec K) : Vec K :=
  let f := P.formatOf y.format
  ⟨f, y.entries.map (P.component f)⟩

/-- The impulses under a named projection. -/
def value (P : Projection K) (y R : Vec K) : Except (Error K) (Vec K) :=
  match P with
  | nonneg | zero | box _ _ => .ok (P.componentwise y)
  | identity | identityOn _ | withoutJacobian | wideJacobian => .ok y
  | linear M => (M.cast y.format).mulVec? y
  | timesR =>
    match y.mul? R with
    | some γ => .ok γ
    | none => .error .shapeMismatch
  | dropLast => .ok ⟨y.format, y.entries.dropLast⟩
  | unspecified | rule _ => .error .unspecified

/-- The Jacobian of a named projection, if it has one. -/
def jacobian (P : Projection K) (y R : Vec K) : Option (Mat K) :=
  match P with
  | nonneg | box _ _ =>
    some (Mat.diag (y.map fun x => indicator (P.moves (P.formatOf y.format) x)))
  | identity | dropLast => some (Mat.identity y.format y.size)
  | identityOn n => some (Mat.identity y.format n)
  | zero => some (Mat.zeros y.format y.size y.size)
  | linear M => some (M.cast y.format)
  | timesR => some (Mat.diag R)
  | wideJacobian => some (Mat.zeros y.format y.size (y.size + 1))
  | withoutJacobian | unspecified | rule _ => none

/-- The impulses and, when asked for, the Jacobian. -/
def run (P : Projection K) (y R : Vec K) (wanted : Bool) :
    Except (Error K) (Vec K × Option (Mat K)) :=
  match P with
  | rule f =>
    match f y R wanted with
    | some answer => .ok answer
    | none => .error .unspecified
  | P => (P.value y R).map fun γ => (γ, if wanted then P.jacobian y R else none)

/-- Whether a projection is given as a function. -/
def isRule : Projection K → Bool
  | rule _ => true
  | _ => false

/-- A named projection answers with its value, and with its Jacobian when asked. -/
theorem run_of_named {P : Projection K} (h : P.isRule = false) (y R : Vec K) (wanted : Bool) :
    P.run y R wanted =
      (P.value y R).map fun γ => (γ, if wanted then P.jacobian y R else none) := by
  cases P with
  | rule f => cases h
  | _ => rfl

theorem positivePart_of_le {y : K} (h : Arith.le 0 y = true) (hs : Arith.mayBeLess y 0 = false) :
    positivePart y = y := by
  simp [positivePart, h, hs]

theorem positivePart_of_lt {y : K} (h : Arith.le 0 y = false) (hlt : Arith.lt y 0 = true) :
    positivePart y = Arith.alongside y 0 := by
  simp [positivePart, h, hlt]

theorem clamp_of_le {lo hi y : K} (hlo : Arith.le lo y = true) (hhi : Arith.le y hi = true)
    (hslo : Arith.mayBeLess y lo = false) (hshi : Arith.mayBeLess hi y = false) :
    clamp lo hi y = y := by
  simp [clamp, hlo, hhi, hslo, hshi]

end Projection

end ConvexContact
