import LazyApl.Primitive.Restructure
import LazyApl.Text.Written
import LazyApl.Text.Numeral
/-!
# Joining arrays

Arrays are joined along an existing axis, or stacked along a new one when the axis lies between two
axes. An operand may lack one axis, or all of them: it is then extended to a slice of the others.
The layout of the join is worked out when it is first needed.
-/

namespace LazyApl

/-- Where the cells of joined arrays lie: the join axis, the place of each operand along it, and the
shape of the whole. -/
structure Joint where
  axis : Int
  offsets : List Number
  shape : Extents

namespace Join

/-- Whether an axis lies between axes. A text is read as a numeral; an axis that is no real number
has no answer. -/
def isBetween : Option Item → Except Fault Bool
  | none => .ok false
  | some (.scalar (.text s)) =>
    match Numeral.double? s with
    | some x => .ok (Double.toInt? x).isNone
    | none => .error .badValue
  | some (.scalar s) => do
    match ← s.number with
    | .int n => let _ ← Number.double n; return false
    | .real x => return (Double.toInt? x).isNone
    | .complex _ => .error .operandType
  | some _ => .error .operandType

/-- An axis that does not lie between axes, as a whole number. -/
def along : Item → Except Fault Int
  | .scalar (.text s) =>
    match Digits.whole? s with
    | some n => .ok n
    | none => .error .badValue
  | .scalar s => do
    match ← s.number with
    | .int n => return n
    | .real x => Number.wholeBelow x
    | .complex _ => .error .operandType
  | _ => .error .operandType

def place (axis : Item) (origin : Origin) : Except Fault Int :=
  match axis with
  | .scalar s => do
    match ← (← s.number).sub (← origin.number) with
    | .int n => return n + 1
    | .real x => return (← Number.wholeBelow x) + 1
    | .complex _ => .error .operandType
  | _ => .error .operandType

/-- The first shape that differs from the first of all, with that one. -/
def firstUnequal : List Extents → Option (Extents × Extents)
  | [] => none
  | s :: rest => (rest.find? fun t => !t.eq s).map fun t => (s, t)

/-- The layout of arrays stacked along a new axis. -/
def stacked (shapes : List Extents) (axis : Item) (origin : Origin) : Except Fault Joint := do
  let rank := (shapes.map List.length).foldl max 0
  let pos ← place axis origin
  if pos < 0 ∨ rank < pos then .error (.rank (.invalidAxis axis.display))
  else
    let cells := shapes.filter (!·.isEmpty)
    match firstUnequal cells with
    | some (s, t) => .error (.length .laminated [s, t])
    | none =>
      let inner := cells.headD []
      return ⟨pos, (upTo shapes.length).map .int, inserted inner pos shapes.length⟩

/-- The extents of an operand with all axes of the reference. -/
def extended (reference : Extents) (axis : Int) (s : Extents) : Except Fault Extents :=
  if s.length = reference.length then .ok s
  else if s.isEmpty then .ok (replaced reference axis 1)
  else if s.length + 1 = reference.length then .ok (inserted s axis 1)
  else .error (.rank .joinedRanks)

/-- The extents along the join axis; the other axes must agree with the reference. -/
def extents (shapes : List Extents) (reference : Extents) (axis : Int) :
    List Extents → Except Fault (List Number)
  | [] => .ok []
  | s :: rest => do
    let full ← extended reference axis s
    if Extents.eq (without full axis) (without reference axis) then
      let own := full.getD axis.toNat 0
      let others ← extents shapes reference axis rest
      return own :: others
    else .error (.length .offJoinAxis shapes)

def totals (start : Number) : List Number → Except Fault (List Number)
  | [] => .ok [start]
  | n :: ns => do return start :: (← totals (← start.add n) ns)

/-- The extents that the other operands have to agree with: the first of full rank, or the first
that lack one axis, with an extent of one put in. -/
def reference (shapes : List Extents) (rank : Nat) (axis : Int) : Extents :=
  match shapes.find? (·.length = rank) with
  | some s => s
  | none => inserted ((shapes.find? (·.length + 1 = rank)).getD []) axis 1

/-- Why arrays cannot be joined along an axis that is not whole: the first of them shows it. -/
def broken (shapes : List Extents) (rank : Nat) : Fault :=
  let first := (shapes.headD []).length
  if first = rank ∨ first + 1 = rank ∨ first = 0 then .operandType else .rank .joinedRanks

/-- The layout of arrays joined along an axis that they have. -/
def aligned (shapes : List Extents) (axis : Option Item) (first : Bool) (origin : Origin) :
    Except Fault Joint := do
  let rank := max ((shapes.map List.length).foldl max 0) 1
  let axis ← match axis with
    | none => pure (Number.int (if first then 0 else (rank : Int) - 1))
    | some a => (AxisArgument.whole (← along a)).located rank origin
  match axis with
  | .int axis =>
    let whole := reference shapes rank axis
    let places ← totals 0 (← extents shapes whole axis shapes)
    return ⟨axis, places.dropLast, replaced whole axis (places.getLastD 0)⟩
  | _ => .error (broken shapes rank)

def layout (shapes : List Extents) (axis : Option Item) (first : Bool) (origin : Origin) :
    Except Fault Joint := do
  match ← isBetween axis, axis with
  | true, some a => stacked shapes a origin
  | _, _ => aligned shapes axis first origin

/-- How many of the offsets come before a place, by bisection between two bounds. -/
def placesBefore (offsets : Array Number) (x : Number) (low high : Nat) : Except Fault Nat :=
  if low < high then do
    let middle := (low + high) / 2
    if ← x.lt (offsets.getD middle 0) then placesBefore offsets x low middle
    else placesBefore offsets x (middle + 1) high
  else .ok low
termination_by high - low

/-- The operand that a place along the join axis falls into: the last that starts at or before
it. -/
def operandAt (offsets : List Number) (x : Number) : Except Fault Int := do
  return (← placesBefore offsets.toArray x 0 offsets.length : Nat) - 1

/-- The operand that shows at a position, and its coordinates there. -/
def locate (j : Joint) (between : Bool) (shapes : List Extents) (i : Number) :
    Except Fault (Number × List Number) := do
  let c ← j.shape.coordinates i
  let x ← pickAt c j.axis
  if between then return (x, without c j.axis)
  else
    let which ← operandAt j.offsets x
    let local' := replaced c j.axis (← x.sub (← pickAt j.offsets which))
    let s ← pickAt shapes which
    return (which, if s.length < j.shape.length then without local' j.axis else local')

/-- The cells of a join. -/
def cells (j : Joint) (between : Bool) (shapes : List Extents) (gens : List (Gen Item)) :
    Gen Item :=
  .indexed fun i => do
    let (which, c) ← locate j between shapes i
    match ← pickBy gens which with
    | .single x => return x
    | .indexed f =>
      let s ← pickBy shapes which
      if s.isEmpty then f 0 else f (← Extents.dot c (← s.strides))

end Join

namespace Item

/-- Arrays joined along an axis, the last one if none is given, or the first one on request. -/
def catenate (arrays : List Item) (axis : Option Item) (first : Bool) (origin : Origin) :
    Except Fault (View Item) :=
  match arrays with
  | [] => .error (.length .nothingToJoin [])
  | front :: _ =>
    let views := arrays.map lift
    let layout : Lazy Joint := Lazy.keep fun _ => do
      let shapes ← views.mapM View.shape
      Join.layout shapes axis first origin
    let detail : Lazy Item := .delay fun _ => do
      let j ← layout.get
      return list [int j.axis, ofNumbers j.offsets, ofNumbers j.shape]
    .ok <| View.computed
      { shape := .delay fun _ => do return (← layout.get).shape
        etype := .delay fun _ => do
          let types ← views.mapM View.etype
          return (EType.joinAll types).getD EType.bit
        prototype := fun _ => front.lift.prototype
        generator := fun _ => do
          let j ← layout.get
          let gens ← views.mapM View.generator
          let shapes ← views.mapM View.shape
          return Join.cells j (← Join.isBetween axis) shapes gens
        form := ⟨"Catenate",
          [("arrays", Lazy.pure (list (views.map view))), ("axis", Lazy.pure (axis.getD nothing)),
            ("first", Lazy.pure (truth first)), ("io", Lazy.pure (scalar origin)),
            ("layout", detail),
            ("laminating", .delay fun _ => do return truth (← Join.isBetween axis))],
          false, none⟩ }

end Item
end LazyApl
