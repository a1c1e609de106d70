import ConvexContact.Constraint.Projection

/-!
# Projections of tensors

A projection is meant for a vector of unprojected impulses, but its rule makes sense for tensors of
other shapes. Rules that go component by component keep the shape, a linear map acts on the columns
of a matrix and of each matrix in a stack, and a mask becomes a Jacobian the way a vector becomes a
diagonal matrix; the mask of a matrix becomes the vector of its diagonal instead.

On vectors these are the rules of `Projection.run` (`Projection.runGiven_toTensor`).
-/

namespace ConvexContact

variable {K : Type}

/-- Whether a tensor of a given shape can become a diagonal, or be read along it. -/
def checkDiagonal (shape : List Nat) : Except (Error K) Unit :=
  if shape.length = 1 ∨ shape.length = 2 then .ok () else .error .shapeMismatch

/-- A vector as the diagonal of a matrix, and of a matrix its diagonal. -/
def Tensor.diagonalForm [Zero K] (t : Tensor K) : Except (Error K) (Tensor K) :=
  match Vec.ofTensor? t, Mat.ofTensor? t with
  | some v, _ => .ok (Mat.diag v).toTensor
  | none, some A => .ok A.diagonal.toTensor
  | none, none => .error .shapeMismatch

namespace Projection

variable [Arith K]

/-- How many entries a tensor has along its first axis, which it has to have. -/
def extent (y : Tensor K) : Except (Error K) Nat :=
  match y.shape with
  | [] => .error .outOfPosition
  | n :: _ => .ok n

/-- The product of a matrix with each matrix of a stack, whose last two axes are those of the
matrices. -/
def stackedProduct (M : Mat K) (y : Tensor K) : Except (Error K) (Tensor K) :=
  match y.shape.reverse with
  | width :: height :: stack => do
    Mat.checkProduct M.format y.format M.cols height
      (M.rows * M.cols * width * Shape.size stack)
    let stack := stack.reverse
    return Tensor.ofFn y.format (stack ++ [M.rows, width]) fun index =>
      let place := index.take stack.length
      let i := index.getD stack.length 0
      let j := index.getD (stack.length + 1) 0
      let column := (List.range height).map fun k => y.get (place ++ [k, j])
      Arith.dot y.format (M.entries.getD i []) column
  | _ => .error .shapeMismatch

/-- The product of a matrix with a vector, a matrix or a stack of matrices. -/
def linearTensor (M : Mat K) (y : Tensor K) : Except (Error K) (Tensor K) :=
  let M := M.cast y.format
  match Vec.ofTensor? y, Mat.ofTensor? y with
  | some v, _ => (M.mulVec? v).map Vec.toTensor
  | none, some A => (M.product? A).map Mat.toTensor
  | none, none => stackedProduct M y

/-- The impulses that a named projection makes of a tensor. -/
def valueTensor (P : Projection K) (y : Tensor K) (R : Given K) : Except (Error K) (Tensor K) :=
  match P with
  | nonneg | zero | box _ _ =>
    let f := P.formatOf y.format
    .ok { y.map (P.component f) with format := f }
  | identity | identityOn _ | withoutJacobian | wideJacobian => .ok y
  | linear M => linearTensor M y
  | timesR => do
    match Tensor.combine? Arith.mulIn y (← R.asOperand) with
    | some γ => return γ
    | none => .error .shapeMismatch
  | dropLast => .ok (Tensor.ofSlabs y.format (y.shape.drop 1) y.slabs.dropLast)
  | unspecified | rule _ => .error .unspecified

/-- Whether a named projection has the Jacobian of its rule at a tensor of `n` rows. -/
def checkJacobian (P : Projection K) (n : Nat) (y : Tensor K) (R : Given K) :
    Except (Error K) Unit :=
  match P with
  | nonneg | box _ _ => checkDiagonal y.shape
  | timesR => do checkDiagonal (← R.asOperand).shape
  | identity | dropLast | zero => checkShape [n, n]
  | wideJacobian => checkShape [n, n + 1]
  | identityOn _ | linear _ | withoutJacobian | unspecified | rule _ => .ok ()

/-- The Jacobian that a named projection answers with for a tensor of `n` rows, if it has one. -/
def jacobianTensor (P : Projection K) (n : Nat) (y : Tensor K) (R : Given K) :
    Except (Error K) (Option (Tensor K)) :=
  match P with
  | nonneg | box _ _ =>
    some <$> (y.map fun x => indicator (P.moves (P.formatOf y.format) x)).diagonalForm
  | identity | dropLast => .ok (some (Mat.identity y.format n).toTensor)
  | identityOn n => .ok (some (Mat.identity y.format n).toTensor)
  | zero => .ok (some (Mat.zeros y.format n n).toTensor)
  | linear M => .ok (some (M.cast y.format).toTensor)
  | timesR => do some <$> (← R.asOperand).diagonalForm
  | wideJacobian => .ok (some (Mat.zeros y.format n (n + 1)).toTensor)
  | withoutJacobian | unspecified | rule _ => .ok none

/-- The impulses and, when asked for, the Jacobian of a projection given as a function, which takes
vectors only. -/
def ruleTensor (f : Vec K → Vec K → Bool → Option (Vec K × Option (Mat K))) (y R : Tensor K)
    (wanted : Bool) : Except (Error K) (Tensor K × Option (Tensor K)) :=
  match Vec.ofTensor? y, Vec.ofTensor? R with
  | some y, some R =>
    match f y R wanted with
    | some (γ, D) => .ok (γ.toTensor, D.map Mat.toTensor)
    | none => .error .unspecified
  | _, _ => .error .shapeMismatch

/-- The impulses and, when asked for, the Jacobian of a projection with a name. That there is a
Jacobian is checked even if nobody asks for it. -/
def namedTensor (P : Projection K) (y : Tensor K) (R : Given K) (wanted : Bool) :
    Except (Error K) (Tensor K × Option (Tensor K)) := do
  let n ← extent y
  let γ ← P.valueTensor y R
  P.checkJacobian n y R
  let D ← if wanted then P.jacobianTensor n y R else pure none
  return (γ, D)

/-- The impulses and, when asked for, the Jacobian for what a caller hands over. The projection of a
fixed number of equations answers with whatever it is given. -/
def runGiven (P : Projection K) (y R : Given K) (wanted : Bool) :
    Except (Error K) (Given K × Option (Tensor K)) :=
  match P with
  | unspecified => .error .unspecified
  | identityOn n => do
    let D ←
      if wanted then do
        let y ← y.asTensor
        pure (some (Mat.identity y.format n).toTensor)
      else pure none
    return (y, D)
  | rule f => do
    let (γ, D) ← ruleTensor f (← y.asTensor) (← R.asTensor) wanted
    return (.tensor γ, D)
  | P => do
    let (γ, D) ← P.namedTensor (← y.asTensor) R wanted
    return (.tensor γ, D)

end Projection

end ConvexContact
