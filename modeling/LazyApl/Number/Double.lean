import LazyApl.Number.Power
/-!
# Doubles as exact numbers

A finite double is a whole number times a power of two. This file reads a double as such a
number, rounds a ratio of whole numbers to the nearest double (ties go to the even neighbour), and
derives from these two the operations that must be exact: comparison with whole numbers, rounding
to whole numbers, remainders and the length of a pair.
-/

namespace LazyApl
namespace Double

/-- A finite double, as sign, magnitude and scale: `± mantissa * 2 ^ scale`. -/
structure Parts where
  negative : Bool
  mantissa : Nat
  scale : Int
  deriving DecidableEq, Repr

/-- The exact value of a finite double; none for infinities and for what is not a number. -/
def parts? (x : Float) : Option Parts :=
  let bits := x.toBits.toNat
  let exponent : Nat := bits / twoTo 52 % twoTo 11
  let fraction : Nat := bits % twoTo 52
  let negative := decide (twoTo 63 ≤ bits)
  if exponent = 2047 then none
  else if exponent = 0 then some ⟨negative, fraction, -1074⟩
  else some ⟨negative, fraction + twoTo 52, (exponent : Int) - 1075⟩

def isNegative (x : Float) : Bool := decide (twoTo 63 ≤ x.toBits.toNat)

/-- The value of a double as a ratio: numerator and positive denominator. -/
def Parts.ratio (p : Parts) : Int × Nat :=
  let m : Int := if p.negative then -(p.mantissa : Int) else p.mantissa
  if p.scale < 0 then (m, twoTo (-p.scale).toNat) else (m * (twoTo p.scale.toNat : Nat), 1)

/-- A quotient rounded to the nearest whole number, a tie to the even one. -/
def divideToEven (num den : Nat) : Nat :=
  let q := num / den
  let r := num % den
  if 2 * r < den then q
  else if den < 2 * r then q + 1
  else if q % 2 = 0 then q else q + 1

/-- A quotient scaled down by a power of two, as numerator and denominator. -/
def scaleDown (num den : Nat) (scale : Int) : Nat × Nat :=
  if scale < 0 then (num * twoTo (-scale).toNat, den) else (num, den * twoTo scale.toNat)

/-- The scale of the double nearest to a ratio: its last place. -/
def lastPlace (num den : Nat) : Int :=
  let estimate : Int := max ((num.log2 : Int) - den.log2 - 53) (-1074)
  let (n, d) := scaleDown num den estimate
  if n / d < twoTo 53 then estimate else estimate + 1

/-- The double nearest to a non-negative ratio with the given sign; none when it is too large. -/
def roundRatio (negative : Bool) (num den : Nat) : Option Float :=
  let scale := lastPlace num den
  let (n, d) := scaleDown num den scale
  let m := divideToEven n d
  let magnitude := if m < twoTo 52 then m else (scale + 1075).toNat * twoTo 52 + (m - twoTo 52)
  if 2047 * twoTo 52 ≤ magnitude then none
  else some (Float.ofBits (UInt64.ofNat (magnitude + if negative then twoTo 63 else 0)))

/-- The double nearest to a ratio with a non-zero denominator. -/
def ofRatio (num den : Int) : Option Float :=
  roundRatio (decide (num < 0) != decide (den < 0)) num.natAbs den.natAbs

/-- The double nearest to a whole number; none when it is too large. -/
def ofInt (n : Int) : Option Float := ofRatio n 1

def infinity : Float := Float.ofBits 0x7ff0000000000000

def nan : Float := Float.ofBits 0x7ff8000000000000

/-- A double and a whole number in order; none when the double is not a number. -/
def compareInt (x : Float) (n : Int) : Option Ordering :=
  match parts? x with
  | some p => some (compare p.ratio.1 (n * p.ratio.2))
  | none => if x.isNaN then none else some (if isNegative x then .lt else .gt)

def floor? (x : Float) : Option Int := (parts? x).map fun p => p.ratio.1.fdiv p.ratio.2

def ceiling? (x : Float) : Option Int := (parts? x).map fun p => -((-p.ratio.1).fdiv p.ratio.2)

/-- The whole number that a double is equal to, if there is one. -/
def toInt? (x : Float) : Option Int := do
  let p ← parts? x
  if p.ratio.1 % p.ratio.2 = 0 then some (p.ratio.1.fdiv p.ratio.2) else none

def withSign (x sign : Float) : Float := if isNegative x = isNegative sign then x else -x

/-- The remainder of finite doubles with the sign of the dividend: exact, so never rounded. -/
def truncatedRemainder (x y : Parts) : Option Float :=
  let scale := min x.scale y.scale
  let a := x.mantissa * twoTo (x.scale - scale).toNat
  let b := y.mantissa * twoTo (y.scale - scale).toNat
  let r := a % b
  if scale < 0 then roundRatio x.negative r (twoTo (-scale).toNat)
  else roundRatio x.negative (r * twoTo scale.toNat) 1

/-- The remainder of a division by a non-zero double, with the sign of the dividend. -/
def truncated (x y : Float) : Float :=
  match parts? x, parts? y with
  | some p, some q => (truncatedRemainder p q).getD nan
  | some _, none => if y.isNaN then nan else x
  | none, _ => nan

/-- Whether a remainder has to be carried over to the sign of the divisor. -/
def isCarried (r y : Float) : Bool := !(r == 0) && isNegative r != isNegative y && !r.isNaN

/-- The remainder of a division by a non-zero double, with the sign of the divisor. -/
def remainder (x y : Float) : Float :=
  let r := truncated x y
  if r == 0 then withSign 0 y else if isCarried r y then r + y else r

/-- The quotient that belongs to the remainder with the sign of the divisor, rounded to a whole
double. -/
def quotient (x y : Float) : Float :=
  let r := truncated x y
  let q := (x - r) / y
  let q := if isCarried r y then q - 1 else q
  if q == 0 then withSign 0 (x / y)
  else if q - q.floor > 0.5 then q.floor + 1 else q.floor

/-- The largest whole number whose square is at most the given one, by bisection of an interval
that holds it. -/
def bisectRoot (n : Nat) : Nat → Nat → Nat → Nat
  | 0, lo, _ => lo
  | steps + 1, lo, hi =>
    let mid := (lo + hi) / 2
    if mid * mid ≤ n then bisectRoot n steps mid hi else bisectRoot n steps lo mid

def root (n : Nat) : Nat :=
  let bound := twoTo (n.log2 / 2 + 1)
  bisectRoot n (n.log2 / 2 + 2) 0 bound

/-- The double nearest to the square root of `n * 2 ^ (2 * scale)`. An odd last bit stands for a
discarded remainder, so that no false tie arises. -/
def roundRoot (n : Nat) (scale : Int) : Option Float :=
  let s := root (n * twoTo 128)
  let sticky := 2 * s + if s * s = n * twoTo 128 then 0 else 1
  let place := scale - 65
  if place < 0 then roundRatio false sticky (twoTo (-place).toNat)
  else roundRatio false (sticky * twoTo place.toNat) 1

/-- The length of the pair `(x, y)`; none when it is too large. -/
def hypot (x y : Float) : Option Float :=
  match parts? x, parts? y with
  | some p, some q =>
    let scale := min p.scale q.scale
    let a := p.mantissa * twoTo (p.scale - scale).toNat
    let b := q.mantissa * twoTo (q.scale - scale).toNat
    roundRoot (a * a + b * b) scale
  | _, _ => if x.isInf || y.isInf then some infinity else some nan

end Double
end LazyApl
