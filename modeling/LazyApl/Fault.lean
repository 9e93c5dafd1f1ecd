import LazyApl.Chance.Draw
import LazyApl.Value
/-!
# What can go wrong

Every failure is a cause: a constructor with the data its message shows. Causes are grouped by
the class of error they belong to; length errors carry the shapes in conflict. Failures of plain
arithmetic, of drawing random numbers and of reading past the end of a list have no message of
their own.
-/

namespace LazyApl

/-- Why two extents or shapes do not go together. -/
inductive LengthCause
  /-- An argument that should be one integer has another number of items. -/
  | notSingle (role : String)
  /-- A list of counts comes with a list of axes of another length. -/
  | countPerAxis
  /-- A transpose names more or fewer axes than there are. -/
  | itemPerAxis
  /-- The amounts of a rotation do not have the shape of the other axes. -/
  | rotationAmounts
  /-- There is no operand to join. -/
  | nothingToJoin
  /-- Arrays to be stacked along a new axis differ in shape. -/
  | laminated
  /-- Arrays to be joined differ away from the join axis. -/
  | offJoinAxis
  /-- A replication has more counts than the axis has cells. -/
  | countsBeyondCells
  /-- A partition does not have one key per cell. -/
  | keyPerCell
  /-- A partitioned enclose does not have one count per cell. -/
  | countPerCell
  /-- A mask differs in shape from the array it masks. -/
  | maskShape
  /-- Values to be stored do not fit the cells they go to. -/
  | unfitValues
  /-- The operands of a scalar function differ in shape. -/
  | operandShapes
  /-- Radices and digits do not run along axes of one length. -/
  | radicesAndDigits
  /-- A matrix has more columns than rows. -/
  | moreColumns
  /-- The sides of a matrix division have different numbers of rows. -/
  | matrixSides
  deriving DecidableEq, Repr

/-- Why a number of axes is not accepted. -/
inductive RankCause
  | notVector
  | invalidAxis (axis : String)
  | shapeArgument
  | leftScalarOrVector
  | leftVector
  | countsBeyondAxes
  | joinedRanks
  | partitionKeys
  | partitionOfScalar
  | indexCount (given rank : Nat)
  | pickStep (step given rank : Nat)
  | operandRanks
  | countArgument
  | gradeOfScalar
  | matrixRank
  | scalarOrVector (role : String)
  | membership
  | pattern
  | searched
  | mixedCoordinates
  deriving DecidableEq, Repr

/-- Why a value is not accepted. -/
inductive DomainCause
  | notSimple (role : String)
  | notInteger (role : String)
  | notScalars
  | origin (given : String)
  | tolerance
  | negativeShape
  | uncoveredAxes
  | repeatedAxis
  | negativeKeys
  | negativeCounts
  | notBooleanMask
  | notBooleanArray
  | notBoolean
  | notNumbers
  | notSimpleNumbers
  | notCounts
  | keyedGrade
  | negativeRadix
  | singular
  | unrollable (die : String)
  | undealable (count deck : Int)
  | negativeArgument (role : String)
  | belowOrigin
  | divisionByZero
  | unrounded
  | notIntegers
  | unordered
  deriving DecidableEq, Repr

/-- Why a cell cannot be reached. -/
inductive IndexCause
  | outOfRange (index axis : Scalar)
  | pickTooDeep (step : Nat)
  | pickOutOfRange (step : Nat)
  deriving DecidableEq, Repr

/-- Why the vocabulary has no such function. -/
inductive MissingCause
  | glyph (name : String)
  | form (name : String) (dyadic : Bool)
  deriving DecidableEq, Repr

/-- A failure, by its class. -/
inductive Fault
  | length (cause : LengthCause) (shapes : List (List Number))
  | rank (cause : RankCause)
  | domain (cause : DomainCause)
  | index (cause : IndexCause)
  | missing (cause : MissingCause)
  /-- An operation is not defined on operands of these types. -/
  | operandType
  /-- A value of the right type that the operation has no answer for. -/
  | badValue
  /-- A number too large for its representation. -/
  | overflow
  /-- A list or a text too long to be held. -/
  | noRoom
  | zeroDivision
  /-- A position past the end of a list. -/
  | offEnd
  /-- The script of random draws has run out. -/
  | exhausted
  /-- A value that is defined by itself. -/
  | endless
  /-- A numerical method that does not settle, because a number is not finite. -/
  | unsettled
  /-- A question that this kind of array has no answer to. -/
  | noSuchField
  /-- A name that stands for nothing. -/
  | unnamed
  /-- The content of a random array has not been drawn yet. -/
  | undrawn (label : Label) (source : SourceRef) (draw : Draw)
  deriving DecidableEq, Repr

namespace LengthCause

def bare : String := "LENGTH ERROR"

/-- The wording of a length error, without the shapes. -/
def message : LengthCause → String
  | notSingle role => "LENGTH ERROR: " ++ role ++ " must be a single integer"
  | countPerAxis => "LENGTH ERROR: one count is needed per axis"
  | itemPerAxis => "LENGTH ERROR: left argument must have one item per axis"
  | rotationAmounts => "LENGTH ERROR: rotation amounts must match the other axes"
  | nothingToJoin => "LENGTH ERROR: nothing to catenate"
  | laminated => "LENGTH ERROR: laminated arrays must have the same shape"
  | offJoinAxis => "LENGTH ERROR: catenated arrays must agree off the join axis"
  | countsBeyondCells => "LENGTH ERROR: more counts than cells"
  | keyPerCell => "LENGTH ERROR: one key is needed per cell"
  | countPerCell => "LENGTH ERROR: one count is needed per cell"
  | maskShape => "LENGTH ERROR: mask must have the shape of the array"
  | unfitValues => "LENGTH ERROR: values do not fit the selection"
  | operandShapes => "LENGTH ERROR: Mismatched left and right argument shapes"
  | radicesAndDigits => "LENGTH ERROR: radices and digits do not conform"
  | moreColumns => "LENGTH ERROR: more columns than rows"
  | matrixSides => "LENGTH ERROR: ⌹ arguments do not conform"

end LengthCause

namespace RankCause

/-- The wording of a rank error. -/
def message : RankCause → String
  | notVector => "RANK ERROR: expected a vector"
  | invalidAxis axis => "RANK ERROR: invalid axis " ++ axis
  | shapeArgument => "RANK ERROR: shape must be a scalar or a vector"
  | leftScalarOrVector => "RANK ERROR: left argument must be a scalar or a vector"
  | leftVector => "RANK ERROR: left argument must be a vector"
  | countsBeyondAxes => "RANK ERROR: more counts than axes"
  | joinedRanks => "RANK ERROR: catenated arrays differ in rank by more than one"
  | partitionKeys => "RANK ERROR: partition keys must be a vector"
  | partitionOfScalar => "RANK ERROR: cannot partition a scalar"
  | indexCount given rank =>
    "RANK ERROR: " ++ toString given ++ " indices for an array of rank " ++ toString rank
  | pickStep step given rank =>
    "RANK ERROR: step " ++ toString step ++ " of the pick path has " ++ toString given ++
      " coordinates for rank " ++ toString rank
  | operandRanks => "RANK ERROR: Mismatched left and right argument ranks"
  | countArgument => "RANK ERROR: ⍳ takes a scalar or a vector"
  | gradeOfScalar => "RANK ERROR: cannot grade a scalar"
  | matrixRank => "RANK ERROR: ⌹ takes arrays of rank 2 or less"
  | scalarOrVector role => "RANK ERROR: " ++ role ++ " must be a scalar or a vector"
  | membership => "RANK ERROR: ∊ takes scalars or vectors"
  | pattern => "RANK ERROR: ⍷ takes scalars or vectors"
  | searched => "RANK ERROR: left argument of ⍳ must be a vector"
  | mixedCoordinates => "RANK ERROR: coordinate vectors of different lengths"

end RankCause

namespace DomainCause

/-- The wording of a domain error. -/
def message : DomainCause → String
  | notSimple role => "DOMAIN ERROR: " ++ role ++ " must be simple"
  | notInteger role => "DOMAIN ERROR: " ++ role ++ " must be integer"
  | notScalars => "DOMAIN ERROR: expected simple scalars"
  | origin given => "DOMAIN ERROR: index origin must be 0 or 1, not " ++ given
  | tolerance => "DOMAIN ERROR: comparison tolerance must be non-negative"
  | negativeShape => "DOMAIN ERROR: shape must be non-negative"
  | uncoveredAxes => "DOMAIN ERROR: left argument must cover each result axis"
  | repeatedAxis => "DOMAIN ERROR: repeated axis"
  | negativeKeys => "DOMAIN ERROR: partition keys must be non-negative"
  | negativeCounts => "DOMAIN ERROR: partition counts must be non-negative"
  | notBooleanMask => "DOMAIN ERROR: expected Boolean mask"
  | notBooleanArray => "DOMAIN ERROR: expected Boolean array"
  | notBoolean => "DOMAIN ERROR: expected Boolean"
  | notNumbers => "DOMAIN ERROR: expected numbers"
  | notSimpleNumbers => "DOMAIN ERROR: expected simple numbers"
  | notCounts => "DOMAIN ERROR: ⍳ takes non-negative integers"
  | keyedGrade => "DOMAIN ERROR: keyed grade takes characters"
  | negativeRadix => "DOMAIN ERROR: radices must be non-negative"
  | singular => "DOMAIN ERROR: singular matrix"
  | unrollable die => "DOMAIN ERROR: cannot roll " ++ die
  | undealable count deck =>
    "DOMAIN ERROR: cannot deal " ++ toString count ++ " from " ++ toString deck
  | negativeArgument role => "DOMAIN ERROR: " ++ role ++ " must be non-negative"
  | belowOrigin => "DOMAIN ERROR: indices must not be below the index origin"
  | divisionByZero => "DOMAIN ERROR: divide by zero"
  | unrounded => "DOMAIN ERROR"
  | notIntegers => "DOMAIN ERROR: expected integers"
  | unordered => "DOMAIN ERROR: can only order real numbers"

end DomainCause

namespace IndexCause

def message : IndexCause → String
  | outOfRange index axis =>
    "INDEX ERROR: " ++ index.display ++ " out of range for axis " ++ axis.display
  | pickTooDeep step =>
    "INDEX ERROR: pick path goes deeper than the array (step " ++ toString step ++ ")"
  | pickOutOfRange step =>
    "INDEX ERROR: pick path step " ++ toString step ++ " is out of range"

end IndexCause

namespace MissingCause

def message : MissingCause → String
  | glyph name => "NYI ERROR: no such primitive: '" ++ name ++ "'"
  | form name dyadic =>
    "NYI ERROR: function '" ++ name ++ "' has no " ++ (if dyadic then "dyadic" else "monadic") ++
      " form"

end MissingCause

namespace Fault

/-- Extents as they stand in a message: in parentheses, with a comma after a lone one. -/
def shapeText : List Number → String
  | [n] => "(" ++ n.written ++ ",)"
  | s => "(" ++ ", ".intercalate (s.map Number.written) ++ ")"

/-- A message followed by the shapes in conflict, if any. -/
def withShapes (text : String) : List (List Number) → String
  | [] => text
  | shapes => text ++ " " ++ " vs ".intercalate (shapes.map shapeText)

/-- The message of a failure, for those classes that have one. -/
def message? : Fault → Option String
  | length cause shapes => some (withShapes cause.message shapes)
  | rank cause => some cause.message
  | domain cause => some cause.message
  | index cause => some cause.message
  | missing cause => some cause.message
  | _ => none

end Fault

end LazyApl
