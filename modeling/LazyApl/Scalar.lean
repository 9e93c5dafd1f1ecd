import LazyApl.Number.ComplexDouble
/-!
# Arithmetic of simple values

Truth values count as the whole numbers 1 and 0 in arithmetic and in comparisons. Equality and order
between whole numbers and doubles are exact: nothing is rounded first.
-/

namespace LazyApl

/-- Two numbers brought to one kind. -/
inductive NumberPair
  | ints (a b : Int)
  | reals (a b : Float)
  | complexes (a b : ComplexDouble)

namespace Number

def double (n : Int) : Except Fault Float :=
  match Double.ofInt n with
  | some x => .ok x
  | none => .error .overflow

/-- Both operands in the wider of their kinds. -/
def pair : Number → Number → Except Fault NumberPair
  | int a, int b => .ok (.ints a b)
  | int a, real b => return .reals (← double a) b
  | real a, int b => return .reals a (← double b)
  | real a, real b => .ok (.reals a b)
  | int a, complex b => return .complexes (.ofReal (← double a)) b
  | complex a, int b => return .complexes a (.ofReal (← double b))
  | real a, complex b => .ok (.complexes (.ofReal a) b)
  | complex a, real b => .ok (.complexes a (.ofReal b))
  | complex a, complex b => .ok (.complexes a b)

def equalInt (x : Float) (n : Int) : Bool := Double.compareInt x n == some .eq

/-- Equality by value, whatever the kinds. -/
def eq : Number → Number → Bool
  | int a, int b => a == b
  | int a, real b => equalInt b a
  | real a, int b => equalInt a b
  | real a, real b => a == b
  | int a, complex b => equalInt b.re a && b.im == 0
  | complex a, int b => equalInt a.re b && a.im == 0
  | real a, complex b => a == b.re && b.im == 0
  | complex a, real b => a.re == b && a.im == 0
  | complex a, complex b => a.eq b

/-- Order by value. Complex numbers have none, and a double that is not a number is neither less
nor greater than anything. -/
def lt : Number → Number → Except Fault Bool
  | int a, int b => .ok (decide (a < b))
  | int a, real b => .ok (Double.compareInt b a == some .gt)
  | real a, int b => .ok (Double.compareInt a b == some .lt)
  | real a, real b => .ok (decide (a < b))
  | _, _ => .error .operandType

def le (a b : Number) : Except Fault Bool := do if ← a.lt b then return true else return a.eq b

@[simp] theorem lt_int (a b : Int) : (int a).lt (int b) = .ok (decide (a < b)) := rfl

@[simp] theorem le_int (a b : Int) : (int a).le (int b) = .ok (decide (a ≤ b)) := by
  by_cases h : a < b
  · simp [le, h, Int.le_of_lt h, bind, Except.bind, pure, Except.pure]
  · have : a = b ↔ a ≤ b := by omega
    simp [le, h, eq, this, bind, Except.bind, pure, Except.pure, BEq.beq]

def isZero (a : Number) : Bool := a.eq (int 0)

def isOne (a : Number) : Bool := a.eq (int 1)

@[simp] theorem eq_int (a b : Int) : (int a).eq (int b) = (a == b) := rfl

@[simp] theorem isZero_int (a : Int) : (int a).isZero = (a == 0) := rfl

@[simp] theorem isOne_int (a : Int) : (int a).isOne = (a == 1) := rfl

/-- The greater of two numbers, the first one unless the second is strictly greater. -/
def greater (a b : Number) : Except Fault Number := do if ← a.lt b then return b else return a

/-- The lesser of two numbers, the first one unless the second is strictly less. -/
def lesser (a b : Number) : Except Fault Number := do if ← b.lt a then return b else return a

@[simp] theorem greater_int (a b : Int) : (int a).greater (int b) = .ok (int (max a b)) := by
  by_cases h : a < b
  · simp [greater, h, Int.max_eq_right (Int.le_of_lt h), bind, Except.bind, pure, Except.pure]
  · simp [greater, h, Int.max_eq_left (Int.not_lt.1 h), bind, Except.bind, pure, Except.pure]

@[simp] theorem lesser_int (a b : Int) : (int a).lesser (int b) = .ok (int (min a b)) := by
  by_cases h : b < a
  · simp [lesser, h, Int.min_eq_right (Int.le_of_lt h), bind, Except.bind, pure, Except.pure]
  · simp [lesser, h, Int.min_eq_left (Int.not_lt.1 h), bind, Except.bind, pure, Except.pure]

/-- The greatest of some numbers, the first of those that are greatest; a given one is among
them. -/
def greatest : Number → List Number → Except Fault Number
  | a, [] => .ok a
  | a, b :: bs => do greatest (← a.greater b) bs

/-- The least of some numbers, the first of those that are least; a given one is among them. -/
def least : Number → List Number → Except Fault Number
  | a, [] => .ok a
  | a, b :: bs => do least (← a.lesser b) bs

/-- The position that a number names; only whole numbers name one. -/
def index : Number → Except Fault Int
  | int n => .ok n
  | _ => .error .operandType

@[simp] theorem index_int (n : Int) : (int n).index = .ok n := rfl

/-- The whole number that a number is equal to, if there is one. -/
def whole? : Number → Option Int
  | int n => some n
  | real x => Double.toInt? x
  | complex _ => none

@[simp] theorem whole?_int (n : Int) : (int n).whole? = some n := rfl

def add (a b : Number) : Except Fault Number := do
  match ← pair a b with
  | .ints a b => return int (a + b)
  | .reals a b => return real (a + b)
  | .complexes a b => return complex (a.add b)

def sub (a b : Number) : Except Fault Number := do
  match ← pair a b with
  | .ints a b => return int (a - b)
  | .reals a b => return real (a - b)
  | .complexes a b => return complex (a.sub b)

def mul (a b : Number) : Except Fault Number := do
  match ← pair a b with
  | .ints a b => return int (a * b)
  | .reals a b => return real (a * b)
  | .complexes a b => return complex (a.mul b)

/-- The quotient; of whole numbers the double nearest to it. -/
def div (a b : Number) : Except Fault Number := do
  match ← pair a b with
  | .ints a b =>
    if b = 0 then .error .zeroDivision
    else
      match Double.ofRatio a b with
      | some x => return real x
      | none => .error .overflow
  | .reals a b => if b == 0 then .error .zeroDivision else return real (a / b)
  | .complexes a b => return complex (← a.div b)

/-- The remainder, with the sign of the divisor. Complex numbers have none. -/
def mod (a b : Number) : Except Fault Number :=
  match a, b with
  | complex _, _ | _, complex _ => .error .operandType
  | a, b => do
    match ← pair a b with
    | .ints a b => if b = 0 then .error .zeroDivision else return int (a.fmod b)
    | .reals a b => if b == 0 then .error .zeroDivision else return real (Double.remainder a b)
    | .complexes _ _ => .error .operandType

/-- The quotient that belongs to the remainder: rounded down. Complex numbers have none. -/
def floorDiv (a b : Number) : Except Fault Number :=
  match a, b with
  | complex _, _ | _, complex _ => .error .operandType
  | a, b => do
    match ← pair a b with
    | .ints a b => if b = 0 then .error .zeroDivision else return int (a.fdiv b)
    | .reals a b => if b == 0 then .error .zeroDivision else return real (Double.quotient a b)
    | .complexes _ _ => .error .operandType

@[simp] theorem add_int (a b : Int) : (int a).add (int b) = .ok (int (a + b)) := rfl

@[simp] theorem sub_int (a b : Int) : (int a).sub (int b) = .ok (int (a - b)) := rfl

@[simp] theorem mul_int (a b : Int) : (int a).mul (int b) = .ok (int (a * b)) := rfl

def neg : Number → Number
  | int a => int (-a)
  | real a => real (-a)
  | complex a => complex a.neg

/-- The absolute value; of a complex number, its length. -/
def abs : Number → Except Fault Number
  | int a => .ok (int a.natAbs)
  | real a => .ok (real a.abs)
  | complex a => return real (← a.abs)

def isOdd (x : Float) : Bool :=
  match Double.toInt? x with
  | some n => n % 2 != 0
  | none => false

/-- A power of doubles. Zero has no negative powers, and a negative number raised to a fraction is
complex. -/
def realPow (a b : Float) : Except Fault Number :=
  if b == 0 then .ok (real 1)
  else if a.isNaN then .ok (real a)
  else if b.isNaN then .ok (real (if a == 1 then 1 else b))
  else if b.isInf then
    if a.abs == 1 then .ok (real 1)
    else if decide (0 < b) == decide (1 < a.abs) then .ok (real b.abs)
    else .ok (real 0)
  else if a.isInf then
    if 0 < b then .ok (real (if isOdd b then a else a.abs))
    else .ok (real (if isOdd b then Double.withSign 0 a else 0))
  else if a == 0 then
    if b < 0 then .error .zeroDivision else .ok (real (if isOdd b then a else 0))
  else if a < 0 && (Double.toInt? b).isNone then
    return complex (← ComplexDouble.pow (.ofReal a) (.ofReal b))
  else
    let r := if a.abs == 1 then 1 else Float.pow a.abs b
    if r.isInf then .error .overflow
    else .ok (real (if a < 0 && isOdd b then -r else r))

/-- A power of a whole number. Those of 0, 1 and -1 are known for any exponent. -/
def intPow (a : Int) (n : Nat) : Int :=
  let size : Nat := if a.natAbs ≤ 1 then (if n = 0 then 1 else a.natAbs) else Nat.pow a.natAbs n
  if a < 0 && n % 2 == 1 then -size else size

/-- A power. Whole numbers have exact whole powers and fractional negative ones. -/
def pow (a b : Number) : Except Fault Number := do
  match ← pair a b with
  | .ints a b => if 0 ≤ b then return int (intPow a b.toNat) else realPow (← double a) (← double b)
  | .reals a b => realPow a b
  | .complexes a b => return complex (← a.pow b)

def exp : Number → Except Fault Number
  | int a => do exponential (← double a)
  | real a => exponential a
  | complex _ => .error .operandType
where
  exponential (x : Float) : Except Fault Number :=
    let r := Float.exp x
    if r.isInf && !x.isInf then .error .overflow else .ok (real r)

def wholeBelow (x : Float) : Except Fault Int :=
  match Double.floor? x with
  | some n => .ok n
  | none => .error (if x.isNaN then .badValue else .overflow)

def wholeAbove (x : Float) : Except Fault Int :=
  match Double.ceiling? x with
  | some n => .ok n
  | none => .error (if x.isNaN then .badValue else .overflow)

def floor : Number → Except Fault Number
  | int a => .ok (int a)
  | real a => return int (← wholeBelow a)
  | complex a => do
    let re ← wholeBelow a.re
    let im ← wholeBelow a.im
    return complex ⟨← double re, ← double im⟩

def ceiling : Number → Except Fault Number
  | int a => .ok (int a)
  | real a => return int (← wholeAbove a)
  | complex a => do
    let re ← wholeAbove a.re
    let im ← wholeAbove a.im
    return complex ⟨← double re, ← double im⟩

end Number

namespace Scalar

/-- The number a scalar stands for in arithmetic, if it does. -/
def number? : Scalar → Option Number
  | truth b => some (.int (if b then 1 else 0))
  | int n => some (.int n)
  | real x => some (.real x)
  | complex z => some (.complex z)
  | nothing | text _ => none

/-- The number a scalar stands for; arithmetic is not defined on other operands. -/
def number (s : Scalar) : Except Fault Number :=
  match s.number? with
  | some x => .ok x
  | none => .error .operandType

@[simp] theorem number_int (n : Int) : (int n).number = .ok (.int n) := rfl

/-- Equality by value: texts letter by letter, numbers whatever their kinds. -/
def eq : Scalar → Scalar → Bool
  | nothing, nothing => true
  | text s, text t => s == t
  | a, b =>
    match a.number?, b.number? with
    | some x, some y => x.eq y
    | _, _ => false

/-- Order: texts by code point, real numbers by value; nothing else has an order. -/
def lt : Scalar → Scalar → Except Fault Bool
  | text s, text t => .ok (decide (s < t))
  | a, b => do Number.lt (← a.number) (← b.number)

def count (origin : Origin) (i : Number) : Except Fault Scalar := do
  return (← i.add (← origin.number)).scalar

def strip (origin : Origin) (v : Int) : Except Fault Number := do
  (Number.int v).sub (← origin.number)

@[simp] theorem count_int (o i : Int) : count (int o) (.int i) = .ok (int (i + o)) := rfl

@[simp] theorem strip_int (o v : Int) : strip (int o) v = .ok (.int (v - o)) := rfl

def isZero (s : Scalar) : Bool := s.eq (int 0)

def isText : Scalar → Bool
  | text _ => true
  | _ => false

end Scalar
end LazyApl
