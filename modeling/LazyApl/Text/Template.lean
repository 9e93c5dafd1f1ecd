import LazyApl.Platform
import LazyApl.Text.Written
/-!
# Templates

A template is a text with directives: a percent sign, flags, a width, a precision and a letter that
says how an item is written there. One item fills a template. The first directive that asks for an
item takes it, and a template that asks twice, or not at all, does not fit; only a list may go
unused.
-/

namespace LazyApl
namespace Template

/-- How an item is written in a place of a template. -/
structure Directive where
  toLeft : Bool
  withPlus : Bool
  withBlank : Bool
  withMark : Bool
  withZeros : Bool
  width : Nat
  precision : Option Nat
  letter : Char

def plain : Directive := ⟨false, false, false, false, false, 0, none, 's'⟩

def flags : Directive → List Char → Directive × List Char
  | d, '-' :: cs => flags { d with toLeft := true } cs
  | d, '+' :: cs => flags { d with withPlus := true } cs
  | d, ' ' :: cs => flags { d with withBlank := true } cs
  | d, '#' :: cs => flags { d with withMark := true } cs
  | d, '0' :: cs => flags { d with withZeros := true } cs
  | d, cs => (d, cs)

/-- Digits in front of a list of characters, as a number. -/
def number : Nat → List Char → Nat × List Char
  | n, c :: cs => if c.isDigit then number (n * 10 + (c.toNat - 48)) cs else (n, c :: cs)
  | n, [] => (n, [])

/-- A width or a precision, if there is one: digits, or a star that takes it from the item. -/
def amount (limit : Nat) (item : Option Item) (cs : List Char) :
    Except Fault (Option Int × Option Item × List Char) :=
  match cs, item with
  | '*' :: cs, some (.scalar s) =>
    match s.whole? with
    | none => .error .operandType
    | some n => if n < -limit - 1 ∨ limit < n then .error .overflow else .ok (some n, none, cs)
  | '*' :: _, _ => .error .operandType
  | c :: _, _ =>
    if c.isDigit then
      let (n, rest) := number 0 cs
      if limit < n then .error .badValue else .ok (some n, item, rest)
    else .ok (none, item, cs)
  | [], _ => .ok (none, item, [])

/-- A directive in front of a list of characters, after its percent sign. -/
def directive (item : Option Item) (cs : List Char) :
    Except Fault (Directive × Option Item × List Char) := do
  let (d, cs) := flags plain cs
  let (width, item, cs) ← amount (twoTo 63 - 1) item cs
  let w := width.getD 0
  let d := { d with width := w.natAbs, toLeft := d.toLeft || w < 0 }
  let (d, item, cs) ← match cs with
    | '.' :: cs => do
      let (p, item, cs) ← amount (twoTo 31 - 1) item cs
      pure ({ d with precision := some (p.getD 0).toNat }, item, cs)
    | _ => pure (d, item, cs)
  let cs := match cs with
    | 'h' :: cs | 'l' :: cs | 'L' :: cs => cs
    | cs => cs
  match cs with
  | [] => .error .badValue
  | c :: cs => return ({ d with letter := c }, item, cs)

variable [Platform]

def copies (n : Nat) (c : Char) : Except Fault String := do
  return String.ofList (← Platform.room.copies c n)

def padded (d : Directive) (s : String) : Except Fault String := do
  let blanks ← copies (d.width - s.length) ' '
  return if d.toLeft then s ++ blanks else blanks ++ s

def signText (d : Directive) (isNegative : Bool) : String :=
  if isNegative then "-" else if d.withPlus then "+" else if d.withBlank then " " else ""

/-- A number brought to the width of its place: sign, mark and digits. Zeros go between the mark and
the digits. -/
def paddedNumber (d : Directive) (sign mark digits : String) : Except Fault String := do
  if d.withZeros then
    let free := d.width - (sign.length + mark.length + digits.length)
    if d.toLeft then return sign ++ mark ++ digits ++ (← copies free ' ')
    else return sign ++ mark ++ (← copies free '0') ++ digits
  else padded d (sign ++ mark ++ digits)

def widened (n : Nat) (digits : String) : Except Fault String := do
  return (← copies (n - digits.length) '0') ++ digits

def digits (base n : Nat) : String := String.ofList (Nat.toDigits base n)

def whole (d : Directive) (n : Int) : Except Fault String := do
  let (mark, text) := match d.letter with
    | 'o' => ("0o", digits 8 n.natAbs)
    | 'x' => ("0x", digits 16 n.natAbs)
    | 'X' => ("0X", (digits 16 n.natAbs).toUpper)
    | _ => ("", digits 10 n.natAbs)
  let text ← widened (d.precision.getD 0) text
  paddedNumber d (signText d (n < 0)) (if d.withMark then mark else "") text

/-- A positive ratio to so many decimal places, as a whole number of units of the last one. -/
def units (num den : Nat) (places : Int) : Nat :=
  if places < 0 then Double.divideToEven num (den * tenTo (-places).toNat)
  else Double.divideToEven (num * tenTo places.toNat) den

/-- A whole number of units with the point before its last digits. -/
def pointed (isMarked : Bool) (places n : Nat) : String :=
  let ds := Nat.toDigits 10 n
  let ds := List.replicate (places + 1 - ds.length) '0' ++ ds
  let front := String.ofList (ds.take (ds.length - places))
  if places = 0 then (if isMarked then front ++ "." else front)
  else front ++ "." ++ String.ofList (ds.drop (ds.length - places))

/-- The significant digits of a ratio as a whole number, with the exponent of the first one. -/
def significant (count num den : Nat) : Nat × Int :=
  if num = 0 then (0, 0)
  else
    let exponent := Decimal.pointPlace num den - 1
    let n := units num den (count - 1 - exponent)
    if n < tenTo count then (n, exponent) else (n / 10, exponent + 1)

/-- A text with a decimal point without the zeros at its end. -/
def trimmed (s : String) : String :=
  if s.contains '.' then
    let cs := s.toList.reverse.dropWhile (· == '0')
    let cs := match cs with
      | '.' :: cs => cs
      | cs => cs
    String.ofList cs.reverse
  else s

/-- A ratio with an exponent, with so many places after the point. -/
def scientific (isMarked : Bool) (places num den : Nat) (trim : Bool) : String :=
  let (n, e) := significant (places + 1) num den
  let front := pointed isMarked places n
  (if trim then trimmed front else front) ++ Decimal.exponentText e

/-- A finite double without its sign. -/
def magnitude (d : Directive) (num den : Nat) : String :=
  let p := d.precision.getD 6
  match d.letter.toLower with
  | 'f' => pointed d.withMark p (units num den p)
  | 'e' => scientific d.withMark p num den false
  | _ =>
    let p := max p 1
    let e := (significant p num den).2
    if e < -4 ∨ p ≤ e then scientific d.withMark (p - 1) num den !d.withMark
    else
      let places := ((p : Int) - 1 - e).toNat
      let s := pointed d.withMark places (units num den places)
      if d.withMark then s else trimmed s

def double (d : Directive) (x : Float) : Except Fault String :=
  let text := match Double.parts? x with
    | none => if x.isNaN then "nan" else "inf"
    | some p => magnitude d p.ratio.1.natAbs p.ratio.2
  paddedNumber d (signText d (Double.isNegative x && !x.isNaN)) ""
    (if d.letter.isUpper then text.toUpper else text)

def cutDown : Item → Except Fault Int
  | .scalar s => do
    match ← s.number with
    | .int n => return n
    | .real x => if x < 0 then Number.wholeAbove x else Number.wholeBelow x
    | .complex _ => .error .operandType
  | _ => .error .operandType

def asDouble : Item → Except Fault Float
  | .scalar s => do
    match ← s.number with
    | .int n => Number.double n
    | .real x => return x
    | .complex _ => .error .operandType
  | _ => .error .operandType

/-- A character given as itself or by its code point. -/
def character : Item → Except Fault String
  | .scalar (.text s) => if s.length = 1 then .ok s else .error .operandType
  | .scalar s =>
    match s.whole? with
    | none => .error .operandType
    | some n =>
      if n < 0 ∨ 1114111 < n then .error .overflow
      else .ok (String.ofList [Char.ofNat n.toNat])
  | _ => .error .operandType

/-- A text with its characters beyond the first 128 escaped. -/
def escaped (s : String) : String :=
  String.join (s.toList.map fun c =>
    if c.toNat < 128 then String.ofList [c] else Quoted.byNumber c)

/-- An item in its place. -/
def place (d : Directive) (x : Item) : Except Fault String := do
  let cut (s : String) : String := match d.precision with
    | some p => String.ofList (s.toList.take p)
    | none => s
  match d.letter with
  | 's' => padded d (cut x.display)
  | 'r' => padded d (cut x.written)
  | 'a' => padded d (cut (escaped x.written))
  | 'c' => padded d (← character x)
  | 'd' | 'i' | 'u' => whole d (← cutDown x)
  | 'o' | 'x' | 'X' =>
    match x with
    | .scalar s =>
      match s.whole? with
      | some n => whole d n
      | none => .error .operandType
    | _ => .error .operandType
  | 'e' | 'E' | 'f' | 'F' | 'g' | 'G' => double d (← asDouble x)
  | _ => .error .badValue

/-- What is left of a list of characters after a name in parentheses. -/
def afterName : Nat → List Char → Option (List Char)
  | _, [] => none
  | depth, ')' :: cs => if depth = 0 then some cs else afterName (depth - 1) cs
  | depth, '(' :: cs => afterName (depth + 1) cs
  | depth, _ :: cs => afterName depth cs

/-- The text of a template, and the item if no directive has taken it. A list has no members of a
name, and nothing else has members at all. -/
def fillFrom (isList : Bool) : Nat → Option Item → List Char → Except Fault (String × Option Item)
  | 0, item, _ => .ok ("", item)
  | _ + 1, item, [] => .ok ("", item)
  | fuel + 1, item, '%' :: cs =>
    match cs with
    | '(' :: cs =>
      if isList && (afterName 0 cs).isNone then .error .badValue else .error .operandType
    | '%' :: cs => do
      let (rest, item) ← fillFrom isList fuel item cs
      return ("%" ++ rest, item)
    | _ => do
      let (d, item, cs) ← directive item cs
      match item with
      | none => .error .operandType
      | some x =>
        let here ← place d x
        let (rest, item) ← fillFrom isList fuel none cs
        return (here ++ rest, item)
  | fuel + 1, item, c :: cs => do
    let (rest, item) ← fillFrom isList fuel item cs
    return (String.ofList [c] ++ rest, item)

def fill (template : String) (x : Item) : Except Fault String := do
  let isList := x matches .list _
  let (text, item) ← fillFrom isList (template.length + 1) (some x) template.toList
  if item.isSome && !isList then .error .operandType else return text

end Template
end LazyApl
