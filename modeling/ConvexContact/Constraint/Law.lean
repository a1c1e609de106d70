import ConvexContact.Error

/-!
# Constraint laws

Besides its Jacobians a constraint has a law: the bias `v̂` and the diagonal regularization `R`,
both computed from the constraint function `g`, the time step and the estimate `w` of the
constraint's diagonal in the Delassus operator. `Law` holds the two as functions, so a family of
constraints is anything that supplies them. `Term` is a ready-made side of a law, constant or
affine.
-/

namespace ConvexContact

/-- One side of a law: a vector from the constraint function, the time step and the estimate. -/
abbrev LawSide (K : Type) := Vec K → K → Tensor K → Except (Error K) (Given K)

/-- The bias and the diagonal regularization of a constraint. -/
structure Law (K : Type) where
  bias : LawSide K
  regularization : LawSide K

namespace Law

/-- The law of a constraint that has none of its own. -/
def unspecified {K : Type} : Law K where
  bias := fun _ _ _ => .error .unspecified
  regularization := fun _ _ _ => .error .unspecified

end Law

/-- A side of a law written down as data. -/
inductive Term (K : Type) where
  /-- always the same vector -/
  | fixed (value : Given K)
  /-- `((c + a·w) + b·δt) + e·g`, each summand but the first optional -/
  | affine (c : Tensor K) (a b e : Option (Tensor K))

namespace Term

variable {K : Type} [Arith K]

/-- Combines two tensors, which must be of fitting shapes. -/
def join (op : Format → K → K → K) (a b : Tensor K) : Except (Error K) (Tensor K) :=
  match Tensor.combine? op a b with
  | some t => .ok t
  | none => .error .shapeMismatch

/-- Adds a summand, if there is one. -/
def plus (t : Tensor K) (summand : Option (Except (Error K) (Tensor K))) :
    Except (Error K) (Tensor K) :=
  match summand with
  | none => .ok t
  | some s => do join Arith.addIn t (← s)

/-- The side of a law that a term describes. -/
def side : Term K → LawSide K
  | fixed value => fun _ _ _ => .ok value
  | affine c a b e => fun g step w => do
    let t ← plus c (a.map fun a => join Arith.mulIn a w)
    let t ← plus t (b.map fun b => .ok (b.scale step))
    let t ← plus t (e.map fun e => join Arith.mulIn e g.toTensor)
    return .tensor t

@[simp] theorem side_fixed (value : Given K) (g : Vec K) (step : K) (w : Tensor K) :
    (fixed value).side g step w = .ok value := rfl

end Term

end ConvexContact
