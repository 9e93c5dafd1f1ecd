import LazyApl.Number.Double
/-!
# Shortest decimals

The text of a double is the shortest decimal that reads back as the same double; among several of
that length the nearest one. The digits are found in exact whole-number arithmetic: the doubles
divide the line into intervals of numbers that round to them, and a decimal reads back exactly when
it lies in the interval.
-/

namespace LazyApl
namespace Decimal

/-- How a decimal is written: whether a whole number keeps a point and a zero. -/
structure Style where
  pointAlways : Bool

/-- The number of decimal digits before the point; zero or negative for small numbers. -/
def pointPlace (num den : Nat) : Int :=
  if den ≤ num then (Nat.toDigits 10 (num / den)).length
  else
    -- the first power of ten that lifts the ratio to one or more
    let j := ((List.range 400).find? fun j => den ≤ num * tenTo j).getD 400
    1 - (j : Int)

/-- Whether `d * 10 ^ place` lies between two bounds over one denominator, ends included or not. -/
def within (lo hi den : Nat) (ends : Bool) (d : Nat) (place : Int) : Bool :=
  let (n, k) := if place < 0 then (d, tenTo (-place).toNat) else (d * tenTo place.toNat, 1)
  let x := n * den
  if ends then lo * k ≤ x && x ≤ hi * k else lo * k < x && x < hi * k

/-- Of the two neighbours of a ratio on a decimal grid, the one that reads back, if any; of two,
the nearer, and in a tie the even one. -/
def onGrid (num lo hi den : Nat) (ends : Bool) (place : Int) : Option Nat :=
  let (n, k) :=
    if place < 0 then (num * tenTo (-place).toNat, den) else (num, den * tenTo place.toNat)
  let d := n / k
  let below := within lo hi den ends d place
  let above := within lo hi den ends (d + 1) place
  if below && above then some (Double.divideToEven n k)
  else if below then some d
  else if above then some (d + 1)
  else none

/-- The shortest digits of a positive double `mantissa * 2 ^ scale`, as a whole number and the
decimal place of its last digit. -/
def digits (mantissa : Nat) (scale : Int) : Nat × Int :=
  let gap := if mantissa = twoTo 52 && -1074 < scale then 1 else 2
  let shift := scale - 2
  let up := if shift < 0 then 1 else twoTo shift.toNat
  let den := if shift < 0 then twoTo (-shift).toNat else 1
  let num := 4 * mantissa * up
  let lo := (4 * mantissa - gap) * up
  let hi := (4 * mantissa + 2) * up
  let point := pointPlace num den
  let grids : List Int := (List.range 17).map fun (n : Nat) => point - ((n : Int) + 1)
  let hit := grids.findSome? fun place =>
    (onGrid num lo hi den (mantissa % 2 = 0) place).map fun d => (d, place)
  hit.getD (0, 0)

/-- A list of digits without the zeros at its end, and how many there were. -/
def trim (ds : List Char) : List Char × Nat :=
  let kept := ds.reverse.dropWhile (· == '0') |>.reverse
  (kept, ds.length - kept.length)

/-- A positive decimal exponent of two digits or more, or a negative one, with its sign. -/
def exponentText (e : Int) : String :=
  let a := toString e.natAbs
  (if e < 0 then "e-" else "e+") ++ (if a.length < 2 then "0" ++ a else a)

/-- Digits with the point after the given number of them: positional from `1e-4` up to `1e16`,
with an exponent beyond. -/
def place (style : Style) (ds : List Char) (point : Int) : String :=
  if point ≤ -4 ∨ 16 < point then
    let tail := ds.drop 1
    String.ofList (ds.take 1) ++ (if tail.isEmpty then "" else "." ++ String.ofList tail) ++
      exponentText (point - 1)
  else if point ≤ 0 then "0." ++ String.ofList (List.replicate (-point).toNat '0' ++ ds)
  else if ds.length ≤ point.toNat then
    String.ofList (ds ++ List.replicate (point.toNat - ds.length) '0') ++
      (if style.pointAlways then ".0" else "")
  else String.ofList (ds.take point.toNat) ++ "." ++ String.ofList (ds.drop point.toNat)

/-- The text of a double. -/
def text (style : Style) (x : Float) : String :=
  match Double.parts? x with
  | none => if x.isNaN then "nan" else if Double.isNegative x then "-inf" else "inf"
  | some p =>
    let sign := if p.negative then "-" else ""
    if p.mantissa = 0 then sign ++ (if style.pointAlways then "0.0" else "0")
    else
      let (d, last) := digits p.mantissa p.scale
      let (ds, zeros) := trim (Nat.toDigits 10 d)
      sign ++ place style ds (ds.length + zeros + last)

def real : Style := ⟨true⟩

/-- The parts of a complex number are written as short as can be. -/
def component : Style := ⟨false⟩

/-- The text of a complex number: an imaginary part alone when the real part is positive zero. -/
def complexText (re im : Float) : String :=
  let imaginary := text component im ++ "j"
  if re.toBits = 0 then imaginary
  else
    let sign := if Double.isNegative im && !im.isNaN then "" else "+"
    "(" ++ text component re ++ sign ++ imaginary ++ ")"

end Decimal
end LazyApl
