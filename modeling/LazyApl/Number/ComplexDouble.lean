import LazyApl.Fault
import LazyApl.Number.Double
/-!
# Complex doubles

Arithmetic of pairs of doubles. Quotients divide by the larger part first, so that no square of a
part is ever formed; whole powers up to the hundredth are products, and other powers go through
length and angle.
-/

namespace LazyApl

/-- A matrix of complex doubles by rows. -/
structure DoubleMatrix where
  rows : Nat
  columns : Nat
  entries : List (List ComplexDouble)

namespace ComplexDouble

def ofReal (x : Float) : ComplexDouble := ⟨x, 0⟩

def add (a b : ComplexDouble) : ComplexDouble := ⟨a.re + b.re, a.im + b.im⟩

def sub (a b : ComplexDouble) : ComplexDouble := ⟨a.re - b.re, a.im - b.im⟩

def neg (a : ComplexDouble) : ComplexDouble := ⟨-a.re, -a.im⟩

def conjugate (a : ComplexDouble) : ComplexDouble := ⟨a.re, -a.im⟩

def mul (a b : ComplexDouble) : ComplexDouble :=
  ⟨a.re * b.re - a.im * b.im, a.re * b.im + a.im * b.re⟩

def eq (a b : ComplexDouble) : Bool := a.re == b.re && a.im == b.im

/-- The quotient, scaled by the larger part of the divisor. -/
def div (a b : ComplexDouble) : Except Fault ComplexDouble :=
  if b.im.abs ≤ b.re.abs then
    if b.re.abs == 0 then .error .zeroDivision
    else
      let ratio := b.im / b.re
      let scale := b.re + b.im * ratio
      .ok ⟨(a.re + a.im * ratio) / scale, (a.im - a.re * ratio) / scale⟩
  else if b.re.abs ≤ b.im.abs then
    let ratio := b.re / b.im
    let scale := b.re * ratio + b.im
    .ok ⟨(a.re * ratio + a.im) / scale, (a.im * ratio - a.re) / scale⟩
  else .ok ⟨Double.nan, Double.nan⟩

def abs (a : ComplexDouble) : Except Fault Float :=
  match Double.hypot a.re a.im with
  | some x => .ok x
  | none => .error .overflow

def repeated (a : ComplexDouble) : Nat → Nat → ComplexDouble → ComplexDouble
  | 0, _, acc => acc
  | steps + 1, n, acc =>
    repeated (mul a a) steps (n / 2) (if n % 2 = 1 then mul acc a else acc)

/-- A power by length and angle. -/
def polarPower (a b : ComplexDouble) : Except Fault ComplexDouble :=
  if b.re == 0 && b.im == 0 then .ok ⟨1, 0⟩
  else if a.re == 0 && a.im == 0 then
    if b.im != 0 || b.re < 0 then .error .zeroDivision else .ok ⟨0, 0⟩
  else
    let length := (Double.hypot a.re a.im).getD Double.infinity
    let angle := Float.atan2 a.im a.re
    let scale := Float.pow length b.re
    let phase := angle * b.re
    let (scale, phase) :=
      if b.im != 0 then
        (scale * Float.exp (-angle * b.im), phase + b.im * Float.log length)
      else (scale, phase)
    -- an infinite angle has no direction
    if phase.isInf then .error .zeroDivision
    else .ok ⟨scale * Float.cos phase, scale * Float.sin phase⟩

/-- A power. Whole exponents up to a hundred multiply; a result with an infinite part is too
large. -/
def pow (a b : ComplexDouble) : Except Fault ComplexDouble := do
  let r ←
    match Double.toInt? b.re with
    | some n =>
      if b.im == 0 && n.natAbs ≤ 100 then
        if 0 < n then pure (repeated a 7 n.natAbs ⟨1, 0⟩)
        else div ⟨1, 0⟩ (repeated a 7 n.natAbs ⟨1, 0⟩)
      else polarPower a b
    | none => polarPower a b
  if r.re.isInf || r.im.isInf then .error .overflow else .ok r

end ComplexDouble
end LazyApl
