import LazyApl.Primitive.Radix
import LazyApl.Text.Numeral
/-!
# Matrix division

The inverse of a matrix and the solution of linear equations, in the least-squares sense when there
are more rows than columns. A vector is a matrix of one column.
-/

namespace LazyApl
namespace Item

/-- An entry of a matrix as a complex double. Nothing is no number, and a text inside a list is read
as a numeral. Only a matrix of complex numbers has complex entries. -/
def entry (isComplex : Bool) : Item → Except Fault ComplexDouble
  | scalar .nothing => .ok (.ofReal Double.nan)
  | scalar (.text s) =>
    match Numeral.double? s with
    | some x => .ok (.ofReal x)
    | none => .error .badValue
  | x => do
    match ← x.number with
    | .int n => return .ofReal (← Number.double n)
    | .real x => return .ofReal x
    | .complex z => if isComplex then return z else .error .operandType

mutual

/-- The extents of lists within lists, if all lists of one level have one length. -/
def extents? : Item → Option (List Nat)
  | list xs => (extentsAll? xs).map fun s => xs.length :: s.getD []
  | _ => some []

/-- The extents that all items of a list have in common; an empty list leaves them open. -/
def extentsAll? : List Item → Option (Option (List Nat))
  | [] => some none
  | x :: xs => do
    let own ← extents? x
    match ← extentsAll? xs with
    | none => some (some own)
    | some others => if own = others then some (some own) else none

end

mutual

def leaves : Item → List Item
  | list xs => leavesAll xs
  | x => [x]

def leavesAll : List Item → List Item
  | [] => []
  | x :: xs => leaves x ++ leavesAll xs

end

/-- The extents of a matrix of so many entries. One negative extent is worked out from the other. -/
def fitted (rows columns : Int) (entries : Nat) : Except Fault (Nat × Nat) :=
  let (rows, columns) :=
    if rows < 0 ∧ 0 < columns then ((entries : Int) / columns, columns)
    else if columns < 0 ∧ 0 < rows then (rows, (entries : Int) / rows)
    else (rows, columns)
  if 0 ≤ rows ∧ 0 ≤ columns ∧ (entries : Int) = rows * columns then
    .ok (rows.toNat, columns.toNat)
  else .error .badValue

/-- An array of two axes or fewer as a matrix, and whether it holds complex numbers. Lists in its
cells are laid out, as long as they fill the matrix. -/
def matrix (x : View Item) : Except Fault (DoubleMatrix × Bool) := do
  let cells ← (view x).numbers
  let (rows, columns) := match ← (← x.shape).shape with
    | [m, n] => (m, n)
    | s => (Shape.size s, 1)
  let isComplex := cells.any isComplexNumber
  if (extentsAll? cells).isNone then .error .badValue
  else
    let entries ← (leavesAll cells).mapM (entry isComplex)
    let (rows, columns) ← fitted rows columns entries.length
    let byRows := (List.range rows).map fun i => (entries.drop (i * columns)).take columns
    return (⟨rows, columns, byRows⟩, isComplex)
where
  isComplexNumber : Item → Bool
    | scalar (.complex _) => true
    | _ => false

/-- The cells of a solution, without imaginary parts if all arguments are real. -/
def solutionCells (isComplex : Bool) (rows : List (List ComplexDouble)) : List Item :=
  rows.flatten.map fun z => if isComplex then scalar (.complex z) else real z.re

variable [Platform]

def checkFullRank (a : DoubleMatrix) : Except Fault Unit := do
  if (← Platform.algebra.rank a) < a.columns then .error (.domain .singular)

/-- A matrix for which linear algebra has no answer counts as singular. -/
def solved {α : Type} : Except Fault α → Except Fault α
  | .error .unsettled => .error (.domain .singular)
  | result => result

/-- The inverse of a square matrix, and the pseudo-inverse of another one. -/
def pseudoInverse (a : DoubleMatrix) : Except Fault (List (List ComplexDouble)) := do
  checkFullRank a
  solved (if a.rows = a.columns then Platform.algebra.inverse a
    else Platform.algebra.pseudoInverse a)

/-- The inverse, or the pseudo-inverse of a matrix with more rows than columns. -/
def inverse (base : Item) : View Item :=
  let v := base.based
  let shape : Lazy Extents := .delay fun _ => do
    match ← v.shape with
    | [m, n] => if ← m.lt n then .error (.length .moreColumns [[m, n]]) else return [n, m]
    | s => if 2 < s.length then .error (.rank .matrixRank) else return s
  View.whole "MatrixInverse"
    (.delay fun _ => do
      if (← (← shape.get).size).isZero then return []
      else if (← v.rank) = 0 then
        match ← (view v).numbers with
        | x :: _ => if x.isZero then .error (.domain .singular) else return [← (int 1).div x]
        | [] => return []
      else
        let (a, isComplex) ← matrix v
        return solutionCells isComplex (← pseudoInverse a))
    shape
    (.delay fun _ => do
      if base matches scalar .nothing then .error .noSuchField
      else if (← v.etype).kind = .complex then return EType.complex
      else return EType.float)
    (Lazy.pure (int 0)) [("base", Lazy.pure v.shown)]

/-- The solution of linear equations with the left as right-hand sides. -/
def matrixDivide (left right : Item) : View Item :=
  let x := left.lift
  let y := right.lift
  let shape : Lazy Extents := .delay fun _ => do
    let s ← x.shape
    if 2 < s.length then .error (.rank .matrixRank)
    else
      let t ← y.shape
      if 2 < t.length then .error (.rank .matrixRank)
      else
        match t with
        | [] => return s
        | rows :: columns =>
          if !(s.headD 1).eq rows then .error (.length .matrixSides [s, t])
          else if ← columns.anyM (rows.lt ·) then .error (.length .moreColumns [t])
          else return columns ++ s.drop 1
  View.whole "MatrixDivide"
    (.delay fun _ => do
      let s ← shape.get
      if (← y.rank) = 0 then
        match ← (view y).numbers with
        | d :: _ =>
          if d.isZero then .error (.domain .singular)
          else (← (view x).numbers).mapM fun n => n.div d
        | [] => return []
      else if (← s.size).isZero then return []
      else
        let (a, isComplex) ← matrix y
        -- a singular matrix is refused before the other side is looked at
        checkFullRank a
        solved do
          let (b, isComplex') ← matrix x
          return solutionCells (isComplex || isComplex') (← Platform.algebra.leastSquares a b))
    shape
    (.delay fun _ => do
      let a ← x.etype
      let b ← y.etype
      if a.kind = .complex || b.kind = .complex then return EType.complex else return EType.float)
    (Lazy.pure (int 0)) [("left", Lazy.pure (view x)), ("right", Lazy.pure (view y))]

end Item
end LazyApl
