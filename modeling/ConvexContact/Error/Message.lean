import ConvexContact.Decimal.Layout
import ConvexContact.Error
import ConvexContact.Numeric.Number

/-!
# Texts of errors

`Error.message` words every cause that has a wording of its own. A cause without one is fully told
by its `Error.kind`. Numbers are written by a function the caller supplies, so the same wording
serves every kind of number; `Number.text` is the one for stored numbers.
-/

namespace ConvexContact

/-- The text of an entry stored in a format. -/
def Number.text : Format → Number → String
  | .boolean, x => if x.isZero then "False" else "True"
  | .integer, x => toString x.toInteger
  | .single, x | .double, x => Layout.plain.text x.toFloat

/-- What a vector of a given role is called. -/
def VectorRole.text : VectorRole → String
  | constraintFunction => "Constraint function"
  | bias => "Bias term"
  | regularization => "Regularization"

/-- A list in brackets. -/
def bracketed (items : List String) : String := "[" ++ ", ".intercalate items ++ "]"

namespace Error

/-- The text for an argument of the wrong size or rank. -/
def expectedVector (what : String) (expected : String) (separator : String) (shape : List Nat) :
    String :=
  "Expected " ++ what ++ " of size " ++ expected ++ ", got " ++ separator ++ Shape.text shape

/-- What nested numbers are called: a list, or at rank zero the kind of the one number. -/
def plainClass (format : Format) : Nat → String
  | 0 =>
    match format with
    | .boolean => "bool"
    | .integer => "int"
    | .single | .double => "float"
  | _ => "list"

/-- The wording of a cause, if it has one. -/
def message {K : Type} (text : Format → K → String) : Error K → Option String
  | outOfPosition | formatMismatch | shapeMismatch | notFloating | notNumeric => none
  | divisionByZero | unsized | notATensor | notATable | unspecified | notANumber => none
  | outOfFormat | wideEntry | wideFactor | hugeAxis | hugeTensor | tangentFormat => none
  | noTangent | uncountableDomain | hugeDomain | missingClique | unknownQuantity _ => none
  | sampleSize | negativeSampleCount => none
  | notABijection count entry position =>
    some s!"Permuted indices must be unique and in [0, {count}), got {entry} at index {position}"
  | negativeDomain size => some s!"domain_size must be non-negative, got {size}"
  | indexRange index size => some s!"Index {index} out of range [0, {size})"
  | notParticipating index => some s!"Index {index} does not participate in the permutation"
  | permutedRange index size => some s!"Permuted index {index} out of range [0, {size})"
  | fullLength expected actual =>
    some s!"Expected {expected} entries in the full domain, got {actual}"
  | permutedLength expected actual =>
    some s!"Expected {expected} entries in the permuted domain, got {actual}"
  | negativeCliqueCount count => some s!"num_cliques must be non-negative, got {count}"
  | cliqueArity arity => some s!"A constraint couples one or two cliques, got {arity}"
  | cliqueRange clique count => some s!"Clique index {clique} out of range [0, {count})"
  | equationCount count => some s!"num_equations must be positive, got {count}"
  | negativeBlockSize => some "Block sizes must be non-negative"
  | blockRange row col rows cols =>
    some s!"Block ({row}, {col}) out of range for a {rows}x{cols} grid"
  | blockShape row col height width shape =>
    some (s!"Block ({row}, {col}) must have shape " ++ Shape.text [height, width] ++ ", got " ++
      Shape.text shape)
  | blockPresent row col => some s!"Block ({row}, {col}) already added"
  | operandShape expected shape =>
    some (expectedVector "a vector" (toString expected) "shape " shape)
  | vectorRank role shape => some (role.text ++ " must be rank-1, got shape=" ++ Shape.text shape)
  | vectorLength role expected actual =>
    some (role.text ++ s!" has wrong length: expected {expected}, got {actual}")
  | noEquations => some "Constraint must have at least one equation"
  | negativeClique clique => some s!"Clique index must be non-negative, got {clique}"
  | jacobianRank shape =>
    some ("Constraint Jacobian must be rank-2, got shape=" ++ Shape.text shape)
  | jacobianHeight expected actual =>
    some s!"Constraint Jacobian has wrong height: expected {expected}, got {actual}"
  | secondIncomplete => some "The second clique and its Jacobian must be given together"
  | selfCoupling clique => some s!"A constraint cannot couple clique {clique} with itself"
  | singleClique => some "This constraint only couples one clique"
  | regularizationSign R =>
    some ("Regularization must be strictly positive, got " ++
      bracketed (R.entries.map (text R.format)))
  | stiffness value => some ("stiffness must be positive, got " ++ text value.format value.value)
  | dissipation value =>
    some ("dissipation_time_scale must be non-negative, got " ++ text value.format value.value)
  | estimateCount expected actual =>
    some s!"Expected one Delassus estimate per constraint ({expected}), got {actual}"
  | constraintVelocityShape expected shape =>
    some (expectedVector "constraint velocities" (toString expected) "" shape)
  | impulseShape expected shape => some (expectedVector "impulses" (toString expected) "" shape)
  | projectionShape constraint shape expected =>
    some (s!"Projection of constraint {constraint} returned shape " ++ Shape.text shape ++
      ", expected " ++ Shape.text [expected])
  | projectionJacobian constraint expected =>
    some s!"Projection of constraint {constraint} must return a {expected}x{expected} Jacobian"
  | timeStep value => some ("time_step must be positive, got " ++ text value.format value.value)
  | freeVelocityRank shape => some ("v_star must be rank-1, got shape=" ++ Shape.text shape)
  | freeVelocityLength expected actual =>
    some s!"v_star has wrong length: expected {expected}, got {actual}"
  | dynamicsShape clique shape =>
    some (s!"Dynamics matrix of clique {clique} must be square, got shape=" ++ Shape.text shape)
  | unknownClique clique count =>
    some s!"Constraint references clique {clique}, but the problem has {count}"
  | jacobianWidth clique actual expected =>
    some s!"Jacobian for clique {clique} has {actual} columns, expected the clique size {expected}"
  | velocitiesNotATensor format rank =>
    some ("Velocities must be a tensor, got <class '" ++ plainClass format rank ++ "'>")
  | velocityShape expected shape =>
    some (expectedVector "velocities" (toString expected) "shape=" shape)
  | velocitiesMissing => some "Velocities must be set before the model state can be evaluated"
  | velocitiesUnset =>
    some "Velocities must be set with set_velocities() before evaluating the model"
  | stateSize actual expected =>
    some s!"State has {actual} velocities but the model has {expected}"
  | productShape expected shape =>
    some (expectedVector "a vector" (toString expected) "shape=" shape)
  | asymmetric clique => some s!"Dynamics matrix of clique {clique} is not symmetric"
  | indefinite clique => some s!"Dynamics matrix of clique {clique} is not positive definite"
  | springShapes q v =>
    some ("Expected q and v of shape (6,), got " ++ Shape.text q ++ " and " ++ Shape.text v)
  | gravityAxis axis => some s!"gravity_axis must be 0, 1 or 2, got {axis}"
  | gravityFraction axis => some ("gravity_axis must be 0, 1 or 2, got " ++ text .double axis)

end Error

end ConvexContact
