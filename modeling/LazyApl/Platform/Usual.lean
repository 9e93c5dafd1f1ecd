import LazyApl.Number.LeastSquares
import LazyApl.Platform
/-!
# The usual platform

A machine that holds lists of up to `2 ^ 33` members, bits that are packed into a list of truth
values, and linear algebra in exact arithmetic.
-/

namespace LazyApl
namespace Usual

/-- A bit is 0, 1 or a truth value; another whole number is refused for its value. -/
def bit : Item → Except Fault Bool
  | .scalar (.truth b) => .ok b
  | .scalar (.int n) => if n = 0 then .ok false else if n = 1 then .ok true else .error .badValue
  | _ => .error .operandType

/-- The positions from `i` on at which one list begins in another. -/
def positions (pattern : List Bool) (i : Int) : List Bool → List Int
  | [] => []
  | b :: bs =>
    if pattern.isPrefixOf (b :: bs) then i :: positions pattern (i + 1) bs
    else positions pattern (i + 1) bs

def bitLists : BitLists where
  Packed := List Bool
  pack := List.mapM bit
  bits := id
  count := List.count true
  search bs pattern := positions pattern 0 bs

def algebra : LinearAlgebra where
  rank := DoubleMatrix.rank
  inverse a := .ok a.inverse
  pseudoInverse a := .ok a.pseudoInverse
  leastSquares a b := .ok (a.leastSquares b)

scoped instance platform : Platform := ⟨⟨twoTo 33, by decide⟩, bitLists, algebra⟩

end Usual
end LazyApl
