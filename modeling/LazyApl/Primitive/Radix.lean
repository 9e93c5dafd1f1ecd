import LazyApl.Arithmetic
import LazyApl.Primitive.Search
/-!
# Mixed radix

Decode evaluates digits in a mixed radix, encode gives the digits of a value. Both work on lists of
numbers of any kind, and between arrays decode is an inner product while encode is an outer one.
-/

namespace LazyApl

variable [Platform]

namespace Radix

/-- The weight of each digit: the product of the radices to its right. -/
def weights : List Item → Except Fault (List Item)
  | [] => .ok []
  | [_] => .ok [.int 1]
  | _ :: r :: rest => do
    match ← weights (r :: rest) with
    | [] => return []
    | w :: ws => return (← w.mul r) :: w :: ws

/-- The sum of digits times weights, added up from the left. -/
def total (acc : Item) : List Item → List Item → Except Fault Item
  | d :: ds, w :: ws => do total (← acc.add (← d.mul w)) ds ws
  | _, _ => .ok acc

def decode (radices digits : List Item) : Except Fault Item := do
  total (.int 0) digits (← weights radices)

def quotient (value digit radix : Item) : Except Fault Item := do
  match value, radix with
  | .scalar (.int v), .scalar (.int r) =>
    match digit with
    | .scalar (.int d) => return .int ((v - d).fdiv r)
    | _ => (← value.sub digit).div radix
  | _, _ => (← value.sub digit).div radix

/-- The digits of a value, and what is left of it. A zero radix takes whatever there is. -/
def split : List Item → Item → Except Fault (Item × List Item)
  | [], value => .ok (value, [])
  | r :: rs, value => do
    let (value, digits) ← split rs value
    if r.isZero then return (.int 0, value :: digits)
    else
      let d ← value.mod r
      return (← quotient value d r, d :: digits)

def encode (radices : List Item) (value : Item) : Except Fault (List Item) := do
  return (← split radices value).2

end Radix

namespace Item

/-- A simple number, or what only arithmetic will refuse. -/
def simpleNumber : Item → Except Fault Item
  | array _ | scalar (.text _) => .error (.domain .notSimpleNumbers)
  | x => .ok x

def numbers (x : Item) : Except Fault (List Item) := do (← x.items).mapM simpleNumber

end Item

namespace Radix

/-- The length of the axis that the inner product runs along: a length of one is extended. -/
def common (left right : Extents) : Except Fault Number := do
  let last := left.getLastD 1
  let first := right.headD 1
  if last.isOne || first.isOne then
    if last.isZero || first.isZero then return 0 else last.greater first
  else if last.eq first then return last
  else .error (.length .radicesAndDigits [left, right])

/-- The row and the column of a position in a matrix of so many columns. -/
def rowAndColumn (columns i : Number) : Except Fault (Number × Number) := do
  if columns.isZero then return (i, 0) else return (← i.floorDiv columns, ← i.mod columns)

/-- The cell of an inner product. -/
def innerCell (radices digits : Gen Item) (last first columns n i : Number) :
    Except Fault Item := do
  let (row, col) ← rowAndColumn columns i
  let places := upTo (← n.index)
  let rs ← places.mapM fun (k : Int) => do
    let own : Number := if ← (1 : Number).lt last then k else 0
    (← radices.cell (← (← row.mul last).add own)).simpleNumber
  let ds ← places.mapM fun (k : Int) => do
    let own : Number := if ← (1 : Number).lt first then k else 0
    (← digits.cell (← (← own.mul columns).add col)).simpleNumber
  decode rs ds

def everyNth (xs : List Item) (start step : Nat) : List Item :=
  (xs.zipIdx).filterMap fun (x, i) =>
    if start ≤ i ∧ (i - start) % step = 0 then some x else none

/-- The digits of the values in one column of radices go to their cells. The cells lie digit by
digit, the cells of a digit column by column, and those of a column value by value. -/
def fillColumn (rows columns c : Nat) (digits : List (List Item)) (cells : Array Item) :
    Except Fault (Array Item) :=
  (List.range rows).foldlM (fun cells k =>
    digits.zipIdx.foldlM (fun cells (ds, j) => do
      putAt cells ((k * columns + c) * digits.length + j : Nat) (← pickAt ds k)) cells) cells

/-- The cells of an outer product are filled with the digits of the values in each column. -/
def fillCells (rows columns : Nat) (radices values : List Item) (cells : Array Item) :
    Except Fault (Array Item) :=
  (List.range columns).foldlM (fun cells c => do
    let digits ← values.mapM fun v => encode (everyNth radices c columns) v
    fillColumn rows columns c digits cells) cells

end Radix

namespace Item

/-- The values of digits along the first axis, in radices along the last axis. -/
def decode (radices digits : Item) : View Item :=
  let x := radices.lift
  let y := digits.lift
  let length : Lazy Number := Lazy.keep fun _ => do
    let left ← x.shape
    Radix.common left (← y.shape)
  View.computed
    { shape := .delay fun _ => do
        let _ ← length.get
        return (← x.shape).dropLast ++ (← y.shape).drop 1
      etype := .delay fun _ => do
        let a ← x.etype
        let b ← y.etype
        if !(a.isNumeric && b.isNumeric) then .error (.domain .notNumbers)
        else if a.kind = .complex || b.kind = .complex then return EType.complex
        else if a.kind = .float || b.kind = .float then return EType.float
        else return EType.unbounded
      prototype := fun _ => .ok (int 0)
      generator := fun _ => do
        let n ← length.get
        let xs ← x.generator
        let ys ← y.generator
        let last := (← x.shape).getLastD 1
        let s ← y.shape
        let columns ← Extents.size (s.drop 1)
        return .indexed (Radix.innerCell xs ys last (s.headD 1) columns n)
      form := ⟨"Decode",
        [("radices", Lazy.pure (view x)), ("digits", Lazy.pure (view y)),
          ("length", .delay fun _ => do return ofNumber (← length.get))], false, none⟩ }

/-- The digits of each value in each column of radices. A negative extent of the radices leaves
nothing to compute, and all cells are zero. -/
def encode (radices values : Item) : View Item :=
  let x := radices.lift
  let y := values.lift
  View.whole "Encode"
    (.delay fun _ => do
      let rs ← (view x).numbers
      let bad ← rs.anyM fun r => do
        if r matches scalar (.complex _) then return true else r.lt (int 0)
      if bad then .error (.domain .negativeRadix)
      else
        let vs ← (view y).numbers
        let s ← (← x.shape).shape
        let rows := s.headD 1
        let columns := Shape.size (s.drop 1)
        let size ← Platform.room.times 1 (Shape.size (s ++ (← (← y.shape).shape)))
        let cells := Array.replicate size (int 0)
        return (← Radix.fillCells rows.toNat columns.toNat rs vs cells).toList)
    (.delay fun _ => do return (← x.shape) ++ (← y.shape))
    (.delay fun _ => do
      let a ← x.etype
      let b ← y.etype
      if a.kind = .float || b.kind = .float then return EType.float
      else return EType.unbounded)
    (Lazy.pure (int 0)) [("radices", Lazy.pure (view x)), ("values", Lazy.pure (view y))]

end Item
end LazyApl
