import LazyApl.Arithmetic
import LazyApl.Primitive.Search
import LazyApl.Sorting
/-!
# Grading

Numbers come before characters, and characters before arrays; arrays are ordered by their cells and
then by their shapes. Grading gives the permutation that sorts the major cells of an array. It keeps
cells that compare equal in the order in which they stand, upwards and downwards.
-/

namespace LazyApl
namespace Item

/-- Numbers sort before characters, which sort before arrays. -/
def sort : Item → Nat
  | array _ => 2
  | scalar (.text _) => 1
  | _ => 0

def sign (less greater : Bool) : Int := (if greater then 1 else 0) - (if less then 1 else 0)

/-- Lists of whole numbers by their first difference, and then by length. -/
def compareInts : List Int → List Int → Int
  | x :: xs, y :: ys => if x = y then compareInts xs ys else sign (decide (x < y)) (decide (y < x))
  | xs, ys => sign (decide (xs.length < ys.length)) (decide (ys.length < xs.length))

/-- Complex numbers by real part, and then by imaginary part. -/
def complexLess (a b : ComplexDouble) : Bool :=
  if a.re == b.re then decide (a.im < b.im) else decide (a.re < b.re)

def asComplex : Item → Except Fault ComplexDouble
  | x => do
    match ← x.number with
    | .int n => return .ofReal (← Number.double n)
    | .real x => return .ofReal x
    | .complex z => return z

def isComplex : Item → Bool
  | scalar (.complex _) => true
  | _ => false

/-- Simple items of one sort in order. -/
def compareSimple (a b : Item) : Except Fault Int := do
  if a.isComplex || b.isComplex then
    let x ← a.asComplex
    let y ← b.asComplex
    return sign (complexLess x y) (complexLess y x)
  else
    let greater ← lt b a
    let less ← lt a b
    return sign less greater

mutual

def compare : Item → Item → Except Fault Int
  | array ⟨s, xs, _⟩, array ⟨t, ys, _⟩ => do
    let c ← compareCells xs ys
    return if c = 0 then compareInts s t else c
  | a, b =>
    if a.sort ≠ b.sort then .ok (if a.sort < b.sort then -1 else 1) else compareSimple a b

/-- Lists of items by their first difference, and then by length. -/
def compareCells : List Item → List Item → Except Fault Int
  | x :: xs, y :: ys => do
    let c ← compare x y
    if c = 0 then compareCells xs ys else return c
  | xs, ys => .ok (sign (decide (xs.length < ys.length)) (decide (ys.length < xs.length)))

end

mutual

/-- Whether an item is made of whole numbers and text only; the order of such items is total. -/
def isExact : Item → Bool
  | scalar (.int _) | scalar (.text _) => true
  | array ⟨_, items, _⟩ => areExact items
  | _ => false

/-- Whether all items of a list are made of whole numbers and text only. -/
def areExact : List Item → Bool
  | [] => true
  | x :: xs => isExact x && areExact xs

end
end Item

namespace Grade

/-- A list cut into pieces of one length, with the position of each. -/
def pieces (n : Nat) (step : Nat) (ravel : List Item) : List (Int × List Item) :=
  (List.range n).map fun (i : Nat) => ((i : Int), (ravel.drop (i * step)).take step)

def order (isDown : Bool) (a b : Int × List Item) : Except Fault Int :=
  if isDown then Item.compareCells b.2 a.2 else Item.compareCells a.2 b.2

/-- Whether a cell may stand before another, where they can be compared. -/
def mayPrecede (isDown : Bool) (a b : Int × List Item) : Bool :=
  match order isDown a b with
  | .ok c => decide (c ≤ 0)
  | .error _ => true

/-- The permutation that sorts cells, upwards or downwards. Where their order is total there is only
one that keeps equal cells in order; elsewhere it depends on the comparisons that are made, and one
of them may fail. -/
def permutation (cells : List (Int × List Item)) (isDown : Bool) : Except Fault (List Int) :=
  if cells.all fun cell => Item.areExact cell.2 then
    .ok ((cells.mergeSort (mayPrecede isDown)).map Prod.fst)
  else do
    let less a b := do return decide ((← order isDown a b) < 0)
    return (← Sorting.sort less cells).map Prod.fst

end Grade

namespace Item

/-- The permutation that sorts the major cells. With a key, characters are sorted by where they
appear in it. -/
def grade [Platform] (base : Item) (key : Option Item) (isDown : Bool) (origin : Origin) :
    View Item :=
  let v := base.based
  let count : Lazy Number := .delay fun _ => do
    match ← v.shape with
    | [] => .error (.rank .gradeOfScalar)
    | n :: _ => return n
  let ravel : Lazy (List Item) := .delay fun _ => do
    match key with
    | none => (view v).items
    | some key =>
      let isChar := (← v.etype).kind = .char
      if !isChar && !(← v.size).isZero then .error (.domain .keyedGrade)
      else
        match ← (view key.lift).render with
        | array g => (view (indexOf (list g.items) (view v) (.int 0) defaultTolerance)).items
        | _ => .error .operandType
  View.whole "Grade"
    (.delay fun _ => do
      let extent ← count.get
      let cells ← ravel.get
      let n := (← extent.index).toNat
      let step := if n = 0 then 0 else cells.length / n
      let order ← Grade.permutation (Grade.pieces n step cells) isDown
      order.mapM fun (i : Int) => do return scalar (← origin.count i))
    (.delay fun _ => do return [← count.get])
    (.delay fun _ => do EType.counted origin (← (← (← count.get).sub 1).greater 0))
    (Lazy.pure (int 0))
    [("base", Lazy.pure v.shown), ("key", Lazy.pure (key.elim nothing fun k => view k.lift)),
      ("inverse", Lazy.pure (truth isDown)), ("io", Lazy.pure (scalar origin))]

end Item
end LazyApl
