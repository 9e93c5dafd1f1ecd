import LazyApl.Number.Decimal
import LazyApl.Text.Quoted
/-!
# Simple values

What a cell of a simple array can hold: whole numbers of any size, doubles, complex numbers, truth
values and text. A simple value also says where counting starts, and it is kept as it was given: an
origin that is a truth value or a double shows in what is counted from it.
-/

namespace LazyApl

/-- A complex number with doubles for its parts. -/
structure ComplexDouble where
  re : Float
  im : Float
  deriving DecidableEq, Repr

/-- A number, by the kind of arithmetic it takes part in. -/
inductive Number
  | int (n : Int)
  | real (x : Float)
  | complex (z : ComplexDouble)
  deriving DecidableEq, Repr

instance : Coe Int Number := ⟨.int⟩

instance : Coe Nat Number := ⟨fun n => .int n⟩

instance (n : Nat) : OfNat Number n := ⟨.int n⟩

/-- A simple value. A text of one character is a character. -/
inductive Scalar
  | nothing
  | truth (b : Bool)
  | int (n : Int)
  | real (x : Float)
  | complex (z : ComplexDouble)
  | text (s : String)
  deriving DecidableEq, Repr

/-- The value that counting starts from. Positions and axes are counted from it. -/
abbrev Origin := Scalar

namespace Scalar

/-- A simple value as it is written; text stands in quotes. -/
def written : Scalar → String
  | nothing => "None"
  | truth true => "True"
  | truth false => "False"
  | int n => toString n
  | real x => Decimal.text Decimal.real x
  | complex z => Decimal.complexText z.re z.im
  | text s => Quoted.text s

/-- A simple value as it stands in a message: text without quotes. -/
def display : Scalar → String
  | text s => s
  | x => x.written

/-- The whole number that a whole number or a truth value counts as. -/
def whole? : Scalar → Option Int
  | int n => some n
  | truth b => some (if b then 1 else 0)
  | _ => none

@[simp] theorem whole?_int (n : Int) : (int n).whole? = some n := rfl

end Scalar

namespace Number

def scalar : Number → Scalar
  | int n => .int n
  | real x => .real x
  | complex z => .complex z

def written (x : Number) : String := x.scalar.written

@[simp] theorem ofNat_eq (n : Nat) : (OfNat.ofNat n : Number) = int n := rfl

end Number
end LazyApl
