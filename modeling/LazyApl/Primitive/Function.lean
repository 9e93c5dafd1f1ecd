import LazyApl.Arithmetic
import LazyApl.Primitive.Search
/-!
# Simple functions

The functions of simple values that the scalar functions of the vocabulary apply cell by cell. A
function refuses arguments that it is not defined on, and it refuses a wrong number of arguments.
-/

namespace LazyApl
namespace CellFunction

def monadic (f : Item → Except Fault Item) : CellFunction
  | [a] => f a
  | _ => .error .operandType

def dyadic (f : Item → Item → Except Fault Item) : CellFunction
  | [a, b] => f a b
  | _ => .error .operandType

def test (f : Item → Item → Except Fault Bool) : CellFunction :=
  dyadic fun a b => do return .ofBool (← f a b)

end CellFunction

namespace Item

def equalsInt (x : Item) (n : Int) : Bool :=
  match x with
  | scalar s => s.eq (.int n)
  | _ => false

def negate (a : Item) : Except Fault Item :=
  if a.equalsInt 0 || a.equalsInt 1 then (int 1).sub a else .error (.domain .notBoolean)

/-- The complex conjugate; other values stay as they are. -/
def conjugate (a : Item) : Except Fault Item :=
  match a with
  | scalar (.complex z) => .ok (scalar (.complex z.conjugate))
  | _ => .ok a

/-- The sign of a real number, and the direction of a complex one. -/
def direction (a : Item) : Except Fault Item := do
  if a.isZero then return int 0
  else
    match a with
    | scalar (.complex _) => a.div (← a.abs)
    | _ => if ← lt (int 0) a then return int 1 else return int (-1)

def reciprocal (a : Item) : Except Fault Item :=
  if a.isZero then .error (.domain .divisionByZero) else (int 1).div a

def divide (a b : Item) : Except Fault Item :=
  if b.isZero then
    if a.isZero then .ok (int 1) else .error (.domain .divisionByZero)
  else a.div b

/-- What is left of the second number after division by the first; all of it if that is zero. -/
def residue [Platform] (a b : Item) : Except Fault Item := if a.isZero then .ok b else b.mod a

/-- Numbers rounded in some way; nothing else is rounded. -/
def roundedBy (f : Number → Except Fault Number) (a : Item) : Except Fault Item :=
  match a with
  | scalar s =>
    match s.number? with
    | some x => ofNumber <$> f x
    | none => .error (.domain .unrounded)
  | _ => .error (.domain .unrounded)

/-- A function of two whole numbers proper; truth values and doubles are refused. -/
def withWholes (f : Int → Int → Nat) (a b : Item) : Except Fault Item :=
  match a, b with
  | scalar (.int m), scalar (.int n) => .ok (int (f m n))
  | _, _ => .error (.domain .notIntegers)

/-- Whether an item has no place in the order of real numbers. -/
def isUnordered : Item → Bool
  | scalar (.text _) | scalar (.complex _) => true
  | _ => false

/-- Whether one number is less than another by more than the tolerance. -/
def clearlyLess [Platform] (ct : Tolerance) (a b : Item) : Except Fault Bool := do
  if a.isUnordered || b.isUnordered then .error (.domain .unordered)
  else if ← lt a b then return !(← near ct a b)
  else return false

def paired (a b : Item) : Item := array (Grid.ofList [a, b])

def cellCount : Item → Int
  | array g => g.size
  | _ => 1

/-- The greatest of several items, or of the characters or members of a single one; the first of
those that are greatest. -/
def extreme (better : Item → Item → Except Fault Item) : CellFunction
  | [] => .error .operandType
  | [scalar (.text s)] =>
    match s.toList.map fun c => text (String.ofList [c]) with
    | [] => .error .badValue
    | x :: xs => xs.foldlM better x
  | [list (x :: xs)] => xs.foldlM better x
  | [list []] => .error .badValue
  | [_] => .error .operandType
  | x :: xs => xs.foldlM better x

end Item

namespace CellFunction

/-- The functions that go by a name of their own, for use in amendments and as scalar functions. -/
def named? [Platform] (name : String) : Option CellFunction :=
  match name with
  | "add" => some (dyadic Item.add)
  | "sub" => some (dyadic Item.sub)
  | "mul" => some (dyadic Item.mul)
  | "neg" => some (monadic Item.neg)
  | "abs" => some (monadic Item.abs)
  | "max" => some (Item.extreme Item.maximum)
  | "min" => some (Item.extreme Item.minimum)
  | "eq" => some (dyadic fun a b => do return .truth (← Item.same a b))
  | "lt" => some (dyadic fun a b => do return .truth (← Item.lt a b))
  | "left" => some (dyadic fun a _ => .ok a)
  | "right" => some (dyadic fun _ b => .ok b)
  | "same" => some (monadic fun a => .ok a)
  | "pair" => some (dyadic fun a b => .ok (Item.paired a b))
  | "wrap" => some (monadic fun a => .ok (.array (Grid.ofList [a])))
  | "list2" => some (dyadic fun a b => .ok (.list [a, b]))
  | "dup" => some (monadic fun a => .ok (.list [a, a]))
  | "text" => some (monadic fun _ => .ok (.text "xyz"))
  | "size" => some (monadic fun a => .ok (.int a.cellCount))
  | "size2" => some (dyadic fun a b => .ok (.int (a.cellCount * 100 + b.cellCount)))
  | "add3" => some fun
    | [a, b, c] => do (← a.add b).add c
    | _ => .error .operandType
  | _ => none

end CellFunction
end LazyApl
