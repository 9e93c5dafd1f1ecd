import LazyApl.Primitive.Amend
import LazyApl.Primitive.Search
/-!
# Positions of ones

Where lists the indices of the ones of a Boolean array. Its inverse counts how often each index is
listed.
-/

namespace LazyApl
namespace Where

/-- One step of the odometer over inner axes, with coordinates of any kind: the new coordinates, and
whether the axis to the left has to advance. -/
def carry (origin : Origin) : Shape → List Scalar → Except Fault (List Scalar × Bool)
  | n :: s, x :: xs => do
    let (inner, isFull) ← carry origin s xs
    if isFull then
      let next ← x.count 1
      if next.eq (← origin.count n) then return (origin :: inner, true)
      else return (next :: inner, false)
    else return (x :: inner, false)
  | _, _ => .ok ([], true)

/-- The coordinates after the given ones. The first axis is never reset. -/
def advance (origin : Origin) : Shape → List Scalar → Except Fault (List Scalar)
  | _ :: s, x :: xs => do
    let (inner, isFull) ← carry origin s xs
    if isFull then return (← x.count 1) :: inner else return x :: inner
  | _, _ => .ok []

/-- The given coordinates and as many of their successors as asked for. -/
def run (origin : Origin) (s : Shape) : Nat → List Scalar → Except Fault (List (List Scalar))
  | 0, xs => .ok [xs]
  | k + 1, xs => do
    let rest ← run origin s k (← advance origin s xs)
    return xs :: rest

/-- All coordinates of an array in order, counted from an origin of any kind. The origin itself
stands wherever an axis starts. -/
def odometer (s : Shape) (origin : Origin) : Except Fault (List (List Scalar)) :=
  match origin with
  | .int o => .ok ((s.odometer o).map fun c => c.map Scalar.int)
  | _ =>
    if Shape.size s = 0 then .ok []
    else run origin s (Shape.size s - 1).toNat (s.map fun _ => origin)

/-- The extents that hold all positions: along each axis one more than the greatest coordinate. -/
def cover : List (List Number) → Except Fault Extents
  | [] => .ok [0]
  | p :: ps => do
    let top ← ps.foldlM Mix.greater p
    top.mapM fun x => (1 : Number).add x

/-- The count of a cell goes up by one wherever the cell is listed. -/
def tally (shape : Shape) (positions : List (List Int)) (counts : Array Int) :
    Except Fault (Array Int) :=
  let factors := Shape.strides shape
  positions.foldlM (fun counts p => changeAt counts (Shape.dot p factors) (· + 1)) counts

end Where

namespace Item

variable [Platform]

/-- The indices of the ones: whole numbers for a vector, coordinate vectors otherwise. -/
def whereOnes (base : Item) (origin : Origin) : View Item :=
  let v := base.based
  let bits : Lazy Platform.bitLists.Packed := Lazy.keep fun _ =>
    (view base.lift).packed .notBooleanArray
  View.whole "Where"
    (.delay fun _ => do
      let ones ← onesIn (← bits.get)
      let s ← v.shape
      if s.length = 1 then ones.mapM fun (p : Int) => do return scalar (← origin.count p)
      else
        let cells := (← Where.odometer (← s.shape) origin).toArray
        ones.mapM fun p =>
          match cells[p.toNat]? with
          | some c => .ok (array (Grid.ofList (c.map scalar)))
          | none => .error .offEnd)
    (.delay fun _ => do return [(Platform.bitLists.count (← bits.get) : Number)])
    (.delay fun _ => do
      if (← v.rank) ≠ 1 then return EType.mixed
      else EType.counted origin (← (← (← v.size).sub 1).greater 0))
    (.delay fun _ => do
      let s ← v.shape
      if s.length = 1 then return int 0 else return array (Grid.ofInts (s.map fun _ => 0)))
    [("base", Lazy.pure v.shown), ("io", Lazy.pure (scalar origin)),
      ("bits", .delay fun _ => do
        return list ((Platform.bitLists.bits (← bits.get)).map fun b => int (if b then 1 else 0)))]

def anyNegative : List Number → Except Fault Bool
  | [] => .ok false
  | x :: xs => do if ← x.lt (.int 0) then return true else anyNegative xs

/-- The coordinates that an index stands for, counted from zero. -/
def position (origin : Origin) (x : Item) : Except Fault (List Number) := do
  let c ← (← x.asInts "index").mapM origin.strip
  if ← anyNegative c then .error (.domain .belowOrigin) else return c

/-- The array with a count at each index that is listed. -/
def inverseWhere (base : Item) (origin : Origin) : View Item :=
  let v := base.lift
  let positions : Lazy (List (List Number)) := Lazy.keep fun _ => do
    let found ← (← (view v).members "argument").mapM (position origin)
    if (found.map List.length).eraseDups.length > 1 then .error (.rank .mixedCoordinates)
    else return found
  let shape : Lazy Extents := .delay fun _ => do Where.cover (← positions.get)
  View.whole "InverseWhere"
    (.delay fun _ => do
      let s ← (← shape.get).shape
      let size ← Platform.room.times 1 (Shape.size s)
      let wholes ← (← positions.get).mapM fun p => p.mapM Number.index
      return (← Where.tally s wholes (Array.replicate size 0)).toList.map int)
    shape
    (.delay fun _ => do
      let found ← positions.get
      if found.eraseDups.length = found.length then return EType.bit
      else return EType.integer 0 found.length)
    (Lazy.pure (int 0))
    [("base", Lazy.pure (view v)), ("io", Lazy.pure (scalar origin)),
      ("positions", .delay fun _ => do
        return list ((← positions.get).map ofNumbers))]

end Item
end LazyApl
