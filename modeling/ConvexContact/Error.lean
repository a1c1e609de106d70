import ConvexContact.Linear.Vec

/-!
# Errors

Every way in which an operation of the library can fail, as a cause with the values that describe
it. `Error.kind` sorts the causes by what a caller can do about them; the wording is a function of
the cause and lives in `ConvexContact.Error.Message`.
-/

namespace ConvexContact

/-- What sort of failure a cause is. -/
inductive ErrorKind where
  /-- an argument has an unusable value -/
  | value
  /-- the operation cannot run on these operands, or not yet -/
  | state
  /-- a position lies outside a list -/
  | position
  /-- an argument is of the wrong sort -/
  | sort
  /-- a division of plain numbers by zero -/
  | zeroDivision
  /-- the operation is left open, or not defined for numbers of this format -/
  | unspecified
  /-- the argument has no such part -/
  | part
  /-- a number has no counterpart in the needed range -/
  | overflow
  /-- no memory holds the result -/
  | memory
  deriving DecidableEq, Repr

/-- The vectors that a constraint answers for. -/
inductive VectorRole where
  | constraintFunction
  | bias
  | regularization
  deriving DecidableEq, Repr

/-- Why an operation failed. -/
inductive Error (K : Type) where
  -- positions and operands
  | outOfPosition
  | formatMismatch
  | shapeMismatch
  | notFloating
  | notNumeric
  | divisionByZero
  | unsized
  | notATensor
  | notATable
  -- numbers and formats
  /-- something else than a number where a number is needed -/
  | notANumber
  /-- a fraction outside the range of the format it is to be stored in -/
  | outOfFormat
  /-- a whole number of more than 64 bits that is to be stored -/
  | wideEntry
  /-- a whole number of more than 64 bits as the factor of a tensor, or one beyond all fractions -/
  | wideFactor
  /-- an axis of more than 64 bits -/
  | hugeAxis
  /-- more entries than a tensor can have -/
  | hugeTensor
  /-- a tangent on a number that is no fraction -/
  | tangentFormat
  /-- tangents asked of something else than a tensor -/
  | noTangent
  -- partial permutations
  | notABijection (count : Nat) (entry : Int) (position : Nat)
  | negativeDomain (size : Int)
  /-- a domain of more indices than 63 bits count -/
  | uncountableDomain
  /-- a domain whose table no memory holds -/
  | hugeDomain
  | indexRange (index : Int) (size : Nat)
  | notParticipating (index : Int)
  | permutedRange (index : Int) (size : Nat)
  | fullLength (expected actual : Nat)
  | permutedLength (expected actual : Nat)
  -- coupling of cliques
  | negativeCliqueCount (count : Int)
  | cliqueArity (arity : Nat)
  | cliqueRange (clique : Int) (count : Nat)
  | missingClique
  | equationCount (count : Int)
  -- block grids
  | negativeBlockSize
  | blockRange (row col : Int) (rows cols : Nat)
  | blockShape (row col : Int) (height width : Nat) (shape : List Nat)
  | blockPresent (row col : Int)
  | operandShape (expected : Nat) (shape : List Nat)
  -- constraints
  | vectorRank (role : VectorRole) (shape : List Nat)
  | vectorLength (role : VectorRole) (expected actual : Nat)
  | noEquations
  | negativeClique (clique : Int)
  | jacobianRank (shape : List Nat)
  | jacobianHeight (expected actual : Nat)
  | secondIncomplete
  | selfCoupling (clique : Int)
  | singleClique
  | regularizationSign (R : Vec K)
  | unspecified
  | stiffness (value : Scalar K)
  | dissipation (value : Scalar K)
  -- stacked constraints
  | estimateCount (expected actual : Nat)
  | constraintVelocityShape (expected : Nat) (shape : List Nat)
  | impulseShape (expected : Nat) (shape : List Nat)
  | projectionShape (constraint : Nat) (shape : List Nat) (expected : Nat)
  | projectionJacobian (constraint expected : Nat)
  -- problems
  | timeStep (value : Scalar K)
  | freeVelocityRank (shape : List Nat)
  | freeVelocityLength (expected actual : Nat)
  | dynamicsShape (clique : Nat) (shape : List Nat)
  | unknownClique (clique count : Nat)
  | jacobianWidth (clique actual expected : Nat)
  -- states and models
  | velocitiesNotATensor (format : Format) (rank : Nat)
  | velocityShape (expected : Int) (shape : List Nat)
  | velocitiesMissing
  | velocitiesUnset
  | stateSize (actual : Int) (expected : Nat)
  | productShape (expected : Nat) (shape : List Nat)
  | asymmetric (clique : Nat)
  | indefinite (clique : Nat)
  | unknownQuantity (index : Int)
  -- systems
  | springShapes (q v : List Nat)
  | gravityAxis (axis : Int)
  /-- an axis that is no whole number, outside the range of axes -/
  | gravityFraction (axis : K)
  | sampleSize
  -- line searches
  | negativeSampleCount

namespace Error

/-- The sort of failure a cause is. -/
def kind {K : Type} : Error K → ErrorKind
  | outOfPosition => .position
  | formatMismatch | shapeMismatch | outOfFormat | hugeTensor | negativeSampleCount => .state
  | velocitiesMissing | velocitiesUnset => .state
  | divisionByZero => .zeroDivision
  | unsized | notANumber | noTangent | missingClique | hugeAxis => .sort
  | notATensor | notATable => .part
  | unspecified | notFloating | notNumeric => .unspecified
  | wideFactor | uncountableDomain => .overflow
  | hugeDomain => .memory
  | _ => .value

end Error

end ConvexContact
