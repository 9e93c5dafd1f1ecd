import LazyApl.Number.Double
import LazyApl.Text.Digits
/-!
# Numerals

The double that a text stands for: digits with a point among them, perhaps a power of ten, or the
name of an infinity or of what is not a number. A sign may stand in front, and blanks around it.
-/

namespace LazyApl
namespace Numeral

/-- A numeral without its sign: digits, of which so many stand after the point, and a power of
ten. -/
structure Unsigned where
  digits : List Nat
  places : Nat
  exponent : Int
  deriving DecidableEq, Repr

/-- The power of ten after a numeral, if what follows is one. -/
def exponent? : List Char → Option Int
  | [] => some 0
  | c :: cs =>
    if c = 'e' ∨ c = 'E' then
      let (isNegative, cs) := Digits.sign cs
      match Digits.run cs with
      | ([], _) => none
      | (ds, []) => some (if isNegative then -(Digits.toNat ds : Int) else Digits.toNat ds)
      | _ => none
    else none

def unsigned? (cs : List Char) : Option Unsigned :=
  let (front, cs) := Digits.run cs
  let (back, cs) := match cs with
    | '.' :: cs => Digits.run cs
    | cs => ([], cs)
  if front.isEmpty && back.isEmpty then none
  else (exponent? cs).map fun e => ⟨front ++ back, back.length, e⟩

/-- The double nearest to a numeral; one that is too large stands for infinity. -/
def Unsigned.double (u : Unsigned) (isNegative : Bool) : Float :=
  let n := Digits.toNat u.digits
  let e := u.exponent - u.places
  let size : Int := (Nat.toDigits 10 n).length + e
  let magnitude :=
    if n = 0 ∨ size < -400 then some 0
    else if 400 < size then none
    else if e < 0 then Double.roundRatio false n (tenTo (-e).toNat)
    else Double.roundRatio false (n * tenTo e.toNat) 1
  let magnitude := magnitude.getD Double.infinity
  if isNegative then -magnitude else magnitude

def double? (s : String) : Option Float :=
  let (isNegative, cs) := Digits.sign (Digits.trimmed s.toList)
  match String.ofList (cs.map Char.toLower) with
  | "inf" | "infinity" => some (if isNegative then -Double.infinity else Double.infinity)
  | "nan" => some Double.nan
  | _ => (unsigned? cs).map fun u => u.double isNegative

end Numeral
end LazyApl
