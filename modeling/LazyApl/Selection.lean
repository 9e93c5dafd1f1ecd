import LazyApl.Item
/-!
# Selections

A selection names cells of an array by an index argument for each axis. An omitted argument means
the whole axis; a scalar removes the axis; an array of indices puts its own axes in place of it.
Index values are checked only when the plan of the selection is made, which is when a cell is first
located.
-/

namespace LazyApl

/-- Which coordinates a selection takes along one axis. They are whole numbers if the origin is. -/
inductive AxisPlan
  | all
  | one (v : Number)
  | table (shape : Extents) (values : List Number)
  deriving DecidableEq, Repr

namespace AxisPlan

/-- The number of axes of the selection that stand for this axis. -/
def width : AxisPlan → Nat
  | all => 1
  | one _ => 0
  | table s _ => s.length

/-- The coordinate along this axis, from those of the selection. -/
def find (p : AxisPlan) (own : List Number) : Except Fault Number :=
  match p with
  | all => pickAt own 0
  | one v => .ok v
  | table s vs => do pickBy vs (← Extents.position s own)

end AxisPlan

namespace Selection

/-- The extents of a selection from an array of the given extents. -/
def shape : Extents → List (Option IntArgument) → Except Fault Extents
  | n :: ns, y :: ys => do
    let own ← match y with
      | none => Except.ok [n]
      | some y => y.shape.get
    let rest ← shape ns ys
    return own ++ rest
  | _, _ => .ok []

/-- Whether an index counted from zero lies on an axis of `n`. -/
def isWithin (n v : Number) : Except Fault Bool := do
  if ← (0 : Number).le v then v.lt n else return false

def checkAll (n : Number) (axis : Int) (origin : Origin) : List Number → Except Fault Unit
  | [] => .ok ()
  | v :: vs => do
    if ← isWithin n v then checkAll n axis origin vs
    else
      let given ← v.add (← origin.number)
      .error (.index (.outOfRange given.scalar (← origin.count axis)))

/-- Indices counted from zero, all of them within an axis. -/
def checked (n : Number) (axis : Int) (origin : Origin) (vs : List Int) :
    Except Fault (List Number) := do
  let values ← vs.mapM origin.strip
  checkAll n axis origin values
  return values

def axisPlan (n : Number) (axis : Int) (origin : Origin) :
    Option IntArgument → Except Fault AxisPlan
  | none => .ok .all
  | some y => do
    let values ← checked n axis origin (← y.ints.get)
    match ← y.shape.get, values with
    | [], v :: _ => return .one v
    | s, values => return .table s values

def plan (origin : Origin) :
    Int → Extents → List (Option IntArgument) → Except Fault (List AxisPlan)
  | axis, n :: ns, y :: ys => do
    let own ← axisPlan n axis origin y
    let rest ← plan origin (axis + 1) ns ys
    return own :: rest
  | _, _, _ => .ok []

/-- The coordinates of the selected cell, from the coordinates in the selection. -/
def locate : List AxisPlan → List Number → Except Fault (List Number)
  | [], _ => .ok []
  | p :: ps, c => do
    let own ← p.find (c.take p.width)
    let rest ← locate ps (c.drop p.width)
    return own :: rest

/-- Keyed positions, in which a later entry for a key replaces an earlier one in its place. Keys are
the same if they are equal by value. -/
def put (key : Number) (value : Int) : List (Number × Int) → List (Number × Int)
  | [] => [(key, value)]
  | (k, v) :: rest =>
    if k.eq key then (k, value) :: rest else (k, v) :: put key value rest

def find? (key : Number) : List (Number × Int) → Option Int
  | [] => none
  | (k, v) :: rest => if k.eq key then some v else find? key rest

/-- For each selected position of an array, the last position of the selection that names it. -/
def targets (base : Extents) (indices : List (Option IntArgument)) (origin : Origin) :
    Except Fault (List (Number × Int)) := do
  let factors ← base.strides
  let selected ← shape base indices
  let plans : Lazy (List AxisPlan) := Lazy.keep fun _ => plan origin 0 base indices
  (upTo (← selected.count)).foldlM (fun found (j : Int) => do
    let c ← locate (← plans.get) (← selected.coordinates j)
    return put (← Extents.dot c factors) j found) []

end Selection
end LazyApl
