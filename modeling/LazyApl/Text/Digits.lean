/-!
# Decimal digits

A decimal digit is one of ten consecutive code points in some script. A text stands for a whole
number if it is a run of such digits, however many, perhaps with a sign in front, with single low
lines between digits and blanks around it.
-/

namespace LazyApl
namespace Digits

def zeros : List Nat :=
  [48, 1632, 1776, 1984, 2406, 2534, 2662, 2790, 2918, 3046, 3174, 3302, 3430, 3558, 3664, 3792,
   3872, 4160, 4240, 6112, 6160, 6470, 6608, 6784, 6800, 6992, 7088, 7232, 7248, 42528, 43216,
   43264, 43472, 43504, 43600, 44016, 65296, 66720, 68912, 69734, 69872, 69942, 70096, 70384,
   70736, 70864, 71248, 71360, 71472, 71904, 72016, 72784, 73040, 73120, 92768, 92864, 93008,
   120782, 120792, 120802, 120812, 120822, 123200, 123632, 125264, 130032]

def value? (c : Char) : Option Nat :=
  zeros.findSome? fun z => if z ≤ c.toNat ∧ c.toNat < z + 10 then some (c.toNat - z) else none

def isSpace (c : Char) : Bool :=
  let n := c.toNat
  (9 ≤ n && n ≤ 13) || n == 32 || n == 133 || n == 160 || n == 5760 ||
    (8192 ≤ n && n ≤ 8202) || n == 8232 || n == 8233 || n == 8239 || n == 8287 || n == 12288

def trimmed (cs : List Char) : List Char :=
  (cs.dropWhile isSpace).reverse.dropWhile isSpace |>.reverse

mutual

/-- The digits in front of a list of characters, single low lines allowed between them, and the
rest. -/
def run : List Char → List Nat × List Char
  | [] => ([], [])
  | c :: cs =>
    match value? c with
    | none => ([], c :: cs)
    | some d => let (ds, rest) := more cs; (d :: ds, rest)

/-- Further digits after a digit. -/
def more : List Char → List Nat × List Char
  | [] => ([], [])
  | [c] =>
    match value? c with
    | none => ([], [c])
    | some d => ([d], [])
  | c :: e :: cs =>
    match value? c with
    | some d => let (ds, rest) := more (e :: cs); (d :: ds, rest)
    | none =>
      match c, value? e with
      | '_', some d => let (ds, rest) := more cs; (d :: ds, rest)
      | _, _ => ([], c :: e :: cs)

end

def toNat (ds : List Nat) : Nat := ds.foldl (fun n d => n * 10 + d) 0

/-- A sign in front of a list of characters, and the rest. -/
def sign : List Char → Bool × List Char
  | '-' :: cs => (true, cs)
  | '+' :: cs => (false, cs)
  | cs => (false, cs)

def whole? (s : String) : Option Int :=
  let (isNegative, cs) := sign (trimmed s.toList)
  match run cs with
  | ([], _) => none
  | (ds, []) => some (if isNegative then -(toNat ds : Int) else toNat ds)
  | _ => none

end Digits
end LazyApl
