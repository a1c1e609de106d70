import ConvexContact.Model.Basic

/-!
# Formulas of a model

What each derived quantity is computed from, apart from any memory of earlier results: the two terms
of the cost, the dense Hessian, and products with the Hessian that never form it.
-/

namespace ConvexContact.Model

variable {K : Type} [Arith K]

/-- The momentum term `½d·p` of the cost, with `d = v - v*` and `p` the momentum gain. -/
def momentumCostOf (d gain : Vec K) : Scalar K := (d.dot gain).half

/-- The regularizer term `½γᵀRγ` of the cost. -/
def regularizerCostOf (m : Model K) (γ : Vec K) : Scalar K := ((γ.mul m.stack.R).dot γ).half

/-- The gradient `p - Jᵀ·γ`, with `p` the momentum gain. -/
def gradientOf (m : Model K) (gain γ : Vec K) : Except (Error K) (Vec K) := do
  gain.difference (← m.stack.J.transposeMultiply γ)

/-! ## The dense Hessian -/

/-- What the constraint at place `i` with block `G` adds to the Hessian in block row `b` and block
column `a`, if it couples both cliques. -/
def hessianTerm (m : Model K) (b a i : Nat) (G : Mat K) : Except (Error K) (Option (Mat K)) :=
  match m.stack.J.block? i b, m.stack.J.block? i a with
  | some Jb, some Ja => do
    let GJ ← G.product? Ja
    some <$> Jb.transpose.product? GJ
  | _, _ => .ok none

/-- The block of the Hessian in block row `b` and block column `a`: the dynamics matrix on the
diagonal, and what the constraints add to it. -/
def hessianBlock (m : Model K) (G : List (Mat K)) (b a : Nat) :
    Except (Error K) (Option (Mat K)) := do
  let terms ← G.zipIdx.mapM fun (Gi, i) => m.hessianTerm b a i Gi
  let start := if b = a then m.dynamics[b]? else none
  return (start.toList ++ terms.filterMap id).foldl
    (fun sum term => some (match sum with | none => term | some s => s.add term)) none

/-- The format of blocks of the Hessian to which nothing is added. -/
def hessianFormat (m : Model K) (G : List (Mat K)) : Format :=
  match G with
  | [] => m.format
  | Gi :: _ => Gi.format

/-- The dense Hessian `A + Jᵀ·G·J`. -/
def hessianOf (m : Model K) (G : List (Mat K)) : Except (Error K) (Mat K) := do
  let f := m.hessianFormat G
  let cells ← m.sizes.zipIdx.mapM fun (height, b) =>
    m.sizes.zipIdx.mapM fun (width, a) => do
      return (← m.hessianBlock G b a).getD (Mat.zeros f height width)
  return Mat.ofBlocks (Mat.joinFormats f cells.flatten) m.sizes m.sizes cells

/-! ## Products with the Hessian -/

/-- The products of the blocks `G` with their parts of constraint velocities, joined end to end. -/
def multiplyMembers (m : Model K) (G : List (Mat K)) (vc : Vec K) : Except (Error K) (Vec K) := do
  let pieces ← G.zipIdx.mapM fun (Gi, i) => Gi.mulVec? (vc.block m.stack.J.heights i)
  return Vec.concat vc.format pieces

/-- The product of `A + Jᵀ·G·J` with a vector, without forming the matrix. -/
def multiplyHessianOf (m : Model K) (G : List (Mat K)) (w : Vec K) : Except (Error K) (Vec K) := do
  let Jw ← m.stack.J.multiply w
  let back ←
    if G.isEmpty then .ok (Vec.zeros w.format w.size)
    else do m.stack.J.transposeMultiply (← m.multiplyMembers G Jw)
  return (← m.multiplyDynamics w).add back

/-- The product of `A + Jᵀ·G·J` with a tensor, which has to be a vector. -/
def multiplyHessianTensor (m : Model K) (G : List (Mat K)) (w : Tensor K) :
    Except (Error K) (Vec K) :=
  match Vec.ofTensor? w with
  | some w => m.multiplyHessianOf G w
  | none => .error (.operandShape m.stack.J.cols w.shape)

end ConvexContact.Model
