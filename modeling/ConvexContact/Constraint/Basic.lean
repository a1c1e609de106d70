import ConvexContact.Constraint.Law
import ConvexContact.Constraint.TensorProjection

/-!
# Constraints

A constraint couples one or two cliques. It holds the value `g` of its constraint function, for each
clique it couples a block of its Jacobian, its law and its projection.

`Constraint.build?` checks what it is given from first to last: the constraint function, the first
clique and its Jacobian, then the second. `Constraint.bias` and `Constraint.regularization` check
what the law answers.
-/

namespace ConvexContact

/-- A clique with the block of a Jacobian that belongs to it. -/
structure CliqueBlock (K : Type) where
  clique : Nat
  jacobian : Mat K

/-- A constraint on one or two cliques. -/
structure Constraint (K : Type) where
  /-- the value of the constraint function -/
  g : Vec K
  first : CliqueBlock K
  second : Option (CliqueBlock K)
  law : Law K
  projection : Projection K

namespace Constraint

variable {K : Type}

/-- How many equations a constraint has. -/
def equations (c : Constraint K) : Nat := c.g.size

/-- The cliques with their blocks, in the order in which they were named. -/
def blocks (c : Constraint K) : List (CliqueBlock K) := c.first :: c.second.toList

/-- The cliques a constraint couples, in the order in which they were named. -/
def cliques (c : Constraint K) : List Nat := c.blocks.map (·.clique)

/-- The Jacobian blocks, in the order of the cliques. -/
def jacobians (c : Constraint K) : List (Mat K) := c.blocks.map (·.jacobian)

/-- The second clique and its block, which not every constraint has. -/
def secondBlock (c : Constraint K) : Except (Error K) (CliqueBlock K) :=
  match c.second with
  | some b => .ok b
  | none => .error .singleClique

theorem length_jacobians (c : Constraint K) : c.jacobians.length = c.cliques.length := by
  simp [jacobians, cliques]

/-! ## Construction -/

section Construction

variable [Arith K]

/-- A vector handed over for a given role. -/
def readVector (role : VectorRole) (t : Tensor K) : Except (Error K) (Vec K) :=
  match Vec.ofTensor? t with
  | some v => .ok v
  | none => .error (.vectorRank role t.shape)

/-- A Jacobian of a given height, stored in the format of the constraint function. -/
def readJacobian (f : Format) (height : Nat) (J : Given K) : Except (Error K) (Mat K) := do
  let t ← J.stored f
  match t.shape with
  | [rows, cols] =>
    if rows ≠ height then .error (.jacobianHeight height rows)
    else return Mat.ofEntries t.format rows cols t.data
  | shape => .error (.jacobianRank shape)

/-- The constraint function, which needs at least one equation. -/
def readFunction (g : Given K) : Except (Error K) (Vec K) := do
  let g ← readVector .constraintFunction g.toTensor
  if g.size = 0 then .error .noEquations else return g

/-- A clique index, which counts from zero. -/
def readClique (clique : Int) : Except (Error K) Nat :=
  if clique < 0 then .error (.negativeClique clique) else .ok clique.toNat

/-- The second clique, which comes with its Jacobian and differs from the first. -/
def readSecond (g : Vec K) (first : Nat) (clique : Option Int) (J : Option (Given K)) :
    Except (Error K) (Option (CliqueBlock K)) :=
  match clique, J with
  | none, none => .ok none
  | some clique, some J => do
    let second ← readClique clique
    if second = first then .error (.selfCoupling first)
    else
      let jacobian ← readJacobian g.format g.size J
      return some ⟨second, jacobian⟩
  | _, _ => .error .secondIncomplete

/-- A constraint from what a caller hands over. -/
def build? (law : Law K) (projection : Projection K) (g : Given K) (first : Int) (J₁ : Given K)
    (second : Option Int) (J₂ : Option (Given K)) : Except (Error K) (Constraint K) := do
  let g ← readFunction g
  let first ← readClique first
  let J₁ ← readJacobian g.format g.size J₁
  let second ← readSecond g first second J₂
  return ⟨g, ⟨first, J₁⟩, second, law, projection⟩

/-- Stores the block of a clique in a format. -/
def castBlock (f : Format) (b : CliqueBlock K) : CliqueBlock K :=
  { b with jacobian := b.jacobian.cast f }

/-- Stores the constraint function and the Jacobians in a format. -/
def cast (f : Format) (c : Constraint K) : Constraint K :=
  { c with
    g := c.g.cast f
    first := castBlock f c.first
    second := c.second.map (castBlock f) }

/-! ## Law and projection -/

/-- What a side of the law answers, as a vector with one entry per equation in the format of the
constraint. -/
def checkSide (c : Constraint K) (role : VectorRole) (answer : Given K) :
    Except (Error K) (Vec K) := do
  let v ← readVector role (← answer.stored c.g.format)
  if v.size ≠ c.equations then .error (.vectorLength role c.equations v.size) else return v

/-- The bias `v̂`. -/
def bias (c : Constraint K) (step : K) (w : Tensor K) : Except (Error K) (Vec K) := do
  checkSide c .bias (← c.law.bias c.g step w)

/-- The diagonal of the regularization `R`, each entry of which must be positive. -/
def regularization (c : Constraint K) (step : K) (w : Tensor K) : Except (Error K) (Vec K) := do
  let R ← checkSide c .regularization (← c.law.regularization c.g step w)
  if R.entries.all (Arith.lt 0) then return R else .error (.regularizationSign R)

/-- The impulses the constraint makes of `y`, and its Jacobian when asked for. -/
def project (c : Constraint K) (y R : Vec K) (wanted : Bool) :
    Except (Error K) (Vec K × Option (Mat K)) :=
  c.projection.run y R wanted

/-- The impulses the constraint makes of what a caller hands over, and its Jacobian when asked
for. -/
def projectGiven (c : Constraint K) (y R : Given K) (wanted : Bool) :
    Except (Error K) (Given K × Option (Tensor K)) :=
  c.projection.runGiven y R wanted

@[simp] theorem equations_cast (f : Format) (c : Constraint K) :
    (c.cast f).equations = c.equations := by
  simp [cast, equations]

@[simp] theorem cliques_cast (f : Format) (c : Constraint K) : (c.cast f).cliques = c.cliques := by
  cases h : c.second <;> simp [cast, cliques, blocks, castBlock, h]

end Construction

end Constraint

end ConvexContact
