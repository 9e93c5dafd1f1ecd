import LazyApl.Item
import LazyApl.Number.ComplexDouble
/-!
# Platforms

What a program finds where it runs and does not define itself: the room for its lists, a package of
packed bits and one of linear algebra. Of the packages only the functions that are called are named
here. Nothing is said of what they do; statements that depend on it say so.
-/

namespace LazyApl

/-- A package of lists of bits. -/
structure BitLists where
  /-- A list of bits in the form that the package gives it. -/
  Packed : Type
  /-- Some items as bits, if they can be packed. -/
  pack : List Item → Except Fault Packed
  /-- The bits one by one. -/
  bits : Packed → List Bool
  /-- The number of ones. -/
  count : Packed → Nat
  /-- The positions at which the second list begins in the first. -/
  search : Packed → Packed → List Int

/-- A package of linear algebra. A matrix that has no answer is refused as unsettled. -/
structure LinearAlgebra where
  rank : DoubleMatrix → Except Fault Nat
  inverse : DoubleMatrix → Except Fault (List (List ComplexDouble))
  pseudoInverse : DoubleMatrix → Except Fault (List (List ComplexDouble))
  /-- The least-squares solution of a system for some right-hand sides. -/
  leastSquares : DoubleMatrix → DoubleMatrix → Except Fault (List (List ComplexDouble))

/-- Where a program runs. -/
class Platform where
  room : Room
  bitLists : BitLists
  algebra : LinearAlgebra

end LazyApl
