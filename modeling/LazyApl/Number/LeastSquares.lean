import LazyApl.Fault
import LazyApl.Number.ComplexDouble
/-!
# Least squares in exact arithmetic

Doubles are whole numbers scaled by powers of two, so a system of equations in doubles is one in
Gaussian integers. It is solved without rounding, through the normal equations and elimination that
divides exactly, and only the solution is rounded.

A matrix counts as singular when its least singular value is not greater than the greatest one
times the larger extent times the distance from 1 to the next double, all of them as doubles. The
squares of the singular values are the eigenvalues of the normal matrix; where these lie is read off
the signs of its leading minors. A matrix with an entry that is no number has no singular values,
and one with an infinite entry counts as singular.
-/

namespace LazyApl

/-- A complex number with whole parts. -/
structure Gaussian where
  re : Int
  im : Int
  deriving DecidableEq, Repr

namespace Gaussian

def zero : Gaussian := ⟨0, 0⟩

def ofInt (n : Int) : Gaussian := ⟨n, 0⟩

def add (a b : Gaussian) : Gaussian := ⟨a.re + b.re, a.im + b.im⟩

def sub (a b : Gaussian) : Gaussian := ⟨a.re - b.re, a.im - b.im⟩

def mul (a b : Gaussian) : Gaussian :=
  ⟨a.re * b.re - a.im * b.im, a.re * b.im + a.im * b.re⟩

def conjugate (a : Gaussian) : Gaussian := ⟨a.re, -a.im⟩

def norm (a : Gaussian) : Int := a.re * a.re + a.im * a.im

def exactDiv (a b : Gaussian) : Gaussian :=
  let p := mul a b.conjugate
  ⟨p.re / b.norm, p.im / b.norm⟩

def isZero (a : Gaussian) : Bool := a.re == 0 && a.im == 0

end Gaussian

abbrev GaussianMatrix := List (List Gaussian)

namespace GaussianMatrix

def dot (xs ys : List Gaussian) : Gaussian :=
  (List.zipWith Gaussian.mul xs ys).foldl Gaussian.add Gaussian.zero

/-- The columns as rows; a matrix of no rows has the given number of columns. -/
def transpose (columns : Nat) (m : GaussianMatrix) : GaussianMatrix :=
  (List.range columns).map fun j => m.map fun row => row.getD j Gaussian.zero

def adjoint (columns : Nat) (m : GaussianMatrix) : GaussianMatrix :=
  (transpose columns m).map fun row => row.map Gaussian.conjugate

/-- The product, where the second factor has the given number of columns. -/
def mul (columns : Nat) (a b : GaussianMatrix) : GaussianMatrix :=
  let bt := transpose columns b
  a.map fun row => bt.map (dot row)

def identity (n : Nat) : GaussianMatrix :=
  (List.range n).map fun i => (List.range n).map fun j => Gaussian.ofInt (if i = j then 1 else 0)

/-- A row with its first column eliminated by a pivot row; the division by the previous pivot is
exact. -/
def eliminate (previous pivot : Gaussian) (pivotRow row : List Gaussian) : List Gaussian :=
  match row with
  | [] => []
  | x :: rest =>
    List.zipWith (fun a b => ((pivot.mul a).sub (x.mul b)).exactDiv previous) rest pivotRow

/-- Elimination without exchange of rows: the pivots, which are the leading minors, with what is
left of their rows. It stops at a pivot of zero. -/
def eliminated : Nat → Gaussian → GaussianMatrix → List (Gaussian × List Gaussian)
  | 0, _, _ => []
  | k + 1, previous, m =>
    match m with
    | (x :: row) :: rows =>
      if x.isZero then []
      else (x, row) :: eliminated k x (rows.map (eliminate previous x row))
    | _ => []

/-- Whether a Hermitian matrix is positive definite: all leading minors are positive. -/
def isPositive (n : Nat) (m : GaussianMatrix) : Bool :=
  let minors := (eliminated n (Gaussian.ofInt 1) m).map Prod.fst
  minors.length == n && minors.all fun x => 0 < x.re

/-- The matrix times a number, less another number on the diagonal. -/
def shifted (scale shift : Int) (m : GaussianMatrix) : GaussianMatrix :=
  m.zipIdx.map fun (row, i) => row.zipIdx.map fun (x, j) =>
    ⟨x.re * scale - (if i = j then shift else 0), x.im * scale⟩

def trace (m : GaussianMatrix) : Int :=
  (m.zipIdx.map fun (row, i) => (row.getD i Gaussian.zero).re).foldl (· + ·) 0

/-- The greatest eigenvalue of a Hermitian matrix, as a part of `2 ^ 64` times the given unit, by
halving the interval in which it lies. -/
def greatest (n : Nat) (m : GaussianMatrix) (unit : Int) : Nat → Int → Int → Int
  | 0, _, hi => hi
  | steps + 1, lo, hi =>
    let mid := (lo + hi) / 2
    -- positive definite: every eigenvalue is less than the middle
    if isPositive n (shifted (-(twoTo 64)) (-(mid * unit)) m) then greatest n m unit steps lo mid
    else greatest n m unit steps mid hi

/-- The greatest eigenvalue of a normal matrix, as a part of `2 ^ 64`. -/
def top (n : Nat) (normal : GaussianMatrix) : Int :=
  let unit := trace normal
  greatest n normal unit 64 0 (twoTo 64) * unit

/-- The normal matrix less so many parts of `2 ^ bits` of its greatest eigenvalue on the
diagonal. -/
def lowered (n : Nat) (parts : Int) (bits : Nat) (normal : GaussianMatrix) : GaussianMatrix :=
  shifted (twoTo (bits + 64)) (parts * top n normal) normal

/-- The double nearest to the greatest singular value of a matrix with the given normal matrix,
which is scaled by a power of two; none when it is too large. -/
def greatestValue (n : Nat) (scale : Int) (normal : GaussianMatrix) : Option Float :=
  Double.roundRoot (top n normal).toNat (scale - 32)

def epsilon : Float := Float.ofBits 0x3cb0000000000000

/-- Whether the columns of a matrix with the given normal matrix are independent, up to the
rounding of doubles. A singular value counts if it is nearer to the next double than to the
tolerance. -/
def hasFullRank (rows columns : Nat) (scale : Int) (normal : GaussianMatrix) : Bool :=
  let found := do
    let greatest ← greatestValue columns scale normal
    Double.parts? (greatest * (Float.ofNat (max rows columns) * epsilon))
  match found with
  | none => false
  | some tolerance =>
    let halves := 2 * tolerance.mantissa + 1
    let places := 2 * (tolerance.scale - 1 - scale)
    isPositive columns <|
      if places < 0 then shifted (twoTo (-places).toNat) (halves * halves : Nat) normal
      else shifted 1 (halves * halves * twoTo places.toNat : Nat) normal

/-- The solution by elimination from below: each unknown times the last pivot. -/
def substitute (determinant : Gaussian) (columns : Nat) :
    List (Gaussian × List Gaussian) → GaussianMatrix
  | [] => []
  | (pivot, row) :: rest =>
    let below := substitute determinant columns rest
    let unknowns := row.take below.length
    let right := row.drop below.length
    let own := (List.range columns).map fun j =>
      let known := dot unknowns (below.map fun r => r.getD j Gaussian.zero)
      (((right.getD j Gaussian.zero).mul determinant).sub known).exactDiv pivot
    own :: below

/-- The solution of a regular system with the given number of right-hand sides, as numerators over
one denominator. -/
def solve (n columns : Nat) (m right : GaussianMatrix) : GaussianMatrix × Gaussian :=
  let joined := List.zipWith (· ++ ·) m right
  let steps := eliminated n (Gaussian.ofInt 1) joined
  let determinant := (steps.getLast?.map Prod.fst).getD (Gaussian.ofInt 1)
  (substitute determinant columns steps, determinant)

def squared (n : Nat) : Nat → GaussianMatrix → GaussianMatrix
  | 0, m => m
  | k + 1, m => squared n k (mul n m m)

def determinant (n : Nat) (m : GaussianMatrix) : Int :=
  let minors := (eliminated n (Gaussian.ofInt 1) m).map Prod.fst
  if minors.length = n then ((minors.getLast?.map Gaussian.re).getD 1) else 0

/-- The normal matrix less the square of the part of the greatest singular value that a singular
value has to exceed to count in a pseudo-inverse. -/
def belowCutoff (n : Nat) (normal : GaussianMatrix) : GaussianMatrix :=
  lowered n (5070602400912918 * 5070602400912918) 204 normal

/-- The projection onto the directions whose singular values count, as numerators over one
denominator. Some singular value does not count, and there are two or three. A high power of a
matrix is all but a multiple of the projection onto its foremost direction; the inverse shows the
last one. -/
def counted (n : Nat) (normal : GaussianMatrix) : GaussianMatrix × Int :=
  if n ≤ 2 || 0 < determinant n (belowCutoff n normal) then
    let power := squared n 8 normal
    (power, trace power)
  else
    let power := squared n 8 (solve n n normal (identity n)).1
    (shifted (-1) (-(trace power)) power, trace power)

end GaussianMatrix

namespace DoubleMatrix

/-- The least scale at which a double is a whole number. -/
def scaleOf (x : Float) : Int :=
  match Double.parts? x with
  | none => 0
  | some p => if p.mantissa = 0 then 0 else p.scale

def wholeAt (scale : Int) (x : Float) : Int :=
  match Double.parts? x with
  | none => 0
  | some p =>
    let m : Int := p.mantissa * twoTo (p.scale - scale).toNat
    if p.negative then -m else m

/-- The matrix in whole numbers, with the power of two that they are scaled by. Entries that are not
finite are left out. -/
def toGaussian (m : DoubleMatrix) : GaussianMatrix × Int :=
  let scales := m.entries.flatten.map fun z => min (scaleOf z.re) (scaleOf z.im)
  let scale := scales.foldl min 0
  let whole := m.entries.map fun row => row.map fun z =>
    (⟨wholeAt scale z.re, wholeAt scale z.im⟩ : Gaussian)
  (whole, scale)

/-- A ratio times a power of two as a double; infinite if it is too large. -/
def roundScaled (num den scale : Int) : Float :=
  let found :=
    if scale < 0 then Double.ofRatio num (den * twoTo (-scale).toNat)
    else Double.ofRatio (num * twoTo scale.toNat) den
  found.getD (if (num < 0) = (den < 0) then Double.infinity else -Double.infinity)

/-- A ratio of Gaussian integers times a power of two as complex double. -/
def roundRatio (num den : Gaussian) (scale : Int) : ComplexDouble :=
  let p := num.mul den.conjugate
  ⟨roundScaled p.re den.norm scale, roundScaled p.im den.norm scale⟩

def isNaN (z : ComplexDouble) : Bool := z.re.isNaN || z.im.isNaN

def isUnbounded (z : ComplexDouble) : Bool := isNaN z || z.re.isInf || z.im.isInf

/-- Whether nothing is known of the solution for a right-hand side: it is not finite itself, or
another one is infinite and spoils the scale that all of them have in common. -/
def isLost (b : DoubleMatrix) (column : Nat) : Bool :=
  let cells := b.entries.flatten
  (cells.any isUnbounded && !cells.any isNaN) ||
    b.entries.any fun row => (row[column]?.map isUnbounded).getD false

/-- The rank of a matrix that has at least as many rows as columns; one without full rank counts as
one short of it. A matrix of no rows or no columns has no singular values to compare, one with an
entry that is no number has none at all, and those of one with an infinite entry do not count. -/
def rank (a : DoubleMatrix) : Except Fault Nat :=
  let cells := a.entries.flatten
  if a.rows = 0 || a.columns = 0 then .error .badValue
  else if cells.any isNaN then .error .unsettled
  else if cells.any isUnbounded then .ok 0
  else
    let (whole, scale) := a.toGaussian
    let normal := GaussianMatrix.mul a.columns (GaussianMatrix.adjoint a.columns whole) whole
    .ok (if GaussianMatrix.hasFullRank a.rows a.columns scale normal then a.columns
      else a.columns - 1)

/-- The least-squares solution of a system whose matrix has full rank. -/
def leastSquares (a b : DoubleMatrix) : List (List ComplexDouble) :=
  let (wholeA, scaleA) := a.toGaussian
  let (wholeB, scaleB) := b.toGaussian
  let adjoint := GaussianMatrix.adjoint a.columns wholeA
  let normal := GaussianMatrix.mul a.columns adjoint wholeA
  let right := GaussianMatrix.mul b.columns adjoint wholeB
  let (solution, denominator) := GaussianMatrix.solve a.columns b.columns normal right
  let lost := (List.range b.columns).map b.isLost
  solution.map fun row => (row.zip lost).map fun (z, isLost) =>
    if isLost then ⟨Double.nan, Double.nan⟩ else roundRatio z denominator (scaleB - scaleA)

def identity (n : Nat) : DoubleMatrix :=
  ⟨n, n, (List.range n).map fun i => (List.range n).map fun j => ⟨if i = j then 1 else 0, 0⟩⟩

def inverse (a : DoubleMatrix) : List (List ComplexDouble) := leastSquares a (identity a.rows)

/-- The pseudo-inverse of a matrix of full rank. Singular values count only if they are greater than
the greatest one times `1e-15`. For matrices of more than four rows those that do not count make the
matrix singular. -/
def pseudoInverse (a : DoubleMatrix) : List (List ComplexDouble) :=
  let (whole, scale) := a.toGaussian
  let adjoint := GaussianMatrix.adjoint a.columns whole
  let normal := GaussianMatrix.mul a.columns adjoint whole
  if a.columns < 2 || 4 < a.rows
      || GaussianMatrix.isPositive a.columns (GaussianMatrix.belowCutoff a.columns normal) then
    a.inverse
  else
    let (solution, denominator) := GaussianMatrix.solve a.columns a.rows normal adjoint
    let (kept, total) := GaussianMatrix.counted a.columns normal
    let projected := GaussianMatrix.mul a.rows kept solution
    projected.map fun row => row.map fun z =>
      roundRatio z (denominator.mul (Gaussian.ofInt total)) (-scale)

end DoubleMatrix
end LazyApl
