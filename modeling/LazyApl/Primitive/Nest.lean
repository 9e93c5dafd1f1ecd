import LazyApl.Primitive.Restructure
import LazyApl.Text.Written
/-!
# Trading depth for rank

Enclosing makes items of some axes of an array; splitting does so for one axis, and partitioning for
stretches of one axis. The items are windows into the array itself, so nothing is copied. Mixing is
the other direction: the axes of the items become axes of the result, and shorter items are filled
up.
-/

namespace LazyApl

namespace Mix

def extended (rank : Nat) (s : Extents) : Extents := List.replicate (rank - s.length) 1 ++ s

def greater : Extents → Extents → Except Fault Extents
  | m :: s, n :: t => do
    let own ← m.greater n
    let rest ← greater s t
    return own :: rest
  | _, _ => .ok []

def greatest : List Extents → Except Fault Extents
  | [] => .ok []
  | s :: rest => rest.foldlM greater s

/-- The extents of the items extended to one rank, and the least extents that hold them all. -/
def inner (shapes : List Extents) : Except Fault (List Extents × Extents) := do
  let rank := (shapes.map List.length).foldl max 0
  let padded := shapes.map (extended rank)
  return (padded, ← greatest padded)

def isOutside : List Number → Extents → Except Fault Bool
  | c :: cs, n :: s => do if ← n.le c then return true else isOutside cs s
  | _, _ => .ok false

/-- The cell of the items at a position of the result. -/
def cell (outer : Extents) (padded : List Extents) (common : Extents) (items : List Item)
    (i : Number) : Except Fault Item := do
  let c ← Extents.coordinates (outer ++ common) i
  let which ← if outer.isEmpty then pure 0 else Extents.position outer (c.take outer.length)
  let inside := c.drop outer.length
  let item ← pickBy items which
  if common.isEmpty then
    if ← item.isArray then item.elementAt 0 else return item
  else
    let s ← pickBy padded which
    if ← isOutside inside s then item.prototypeOf
    else item.elementAt (← Extents.position s inside)

end Mix

namespace Item

def unrendered (v : View Item) : Except Fault (List Item) := do
  let cells ← v.generator
  (upTo (← v.count)).mapM fun (i : Int) => cells.cell i

/-- The axes of the items as axes of the result. -/
def mix (base : Item) : View Item :=
  let v := base.based
  let members : Lazy (List Item) := Lazy.keep fun _ => unrendered v
  let inner : Lazy (List Extents × Extents) := Lazy.keep fun _ => do
    Mix.inner (← (← members.get).mapM Item.shapeOf)
  let detail : Lazy Item := .delay fun _ => do
    let (padded, common) ← inner.get
    return list [list (padded.map ofNumbers), ofNumbers common]
  View.computed
    { shape := .delay fun _ => do
        let outer ← v.shape
        return outer ++ (← inner.get).2
      etype := .delay fun _ => do
        let types ← (← members.get).mapM fun x => do
          if ← x.isArray then x.etypeOf else return x.etype
        match EType.joinAll types with
        | some t => return t
        | none => v.etype
      prototype := fun _ => do
        match ← members.get with
        | x :: _ => x.prototypeOf
        | [] => v.prototype
      generator := fun _ => do
        let (padded, common) ← inner.get
        let values ← members.get
        let outer ← v.shape
        return .indexed (Mix.cell outer padded common values)
      form := ⟨"Mix",
        [("base", Lazy.pure v.shown), ("inner", detail),
          ("_items", .delay fun _ => do return list (← members.get))], false, none⟩ }

end Item

namespace Enclose

/-- The enclosed axes, counted from zero. -/
def innerAxes (axes : List Int) (rank : Except Fault Int) (origin : Origin) :
    Except Fault (List Number) := do
  let axes ← axes.mapM fun a => do (AxisArgument.whole a).located (← rank) origin
  if hasRepeats axes then .error (.domain .repeatedAxis) else return axes
where
  /-- Whether a list of numbers names one by value more than once. -/
  hasRepeats : List Number → Bool
    | [] => false
    | x :: xs => xs.any x.eq || hasRepeats xs

def outerAxes (inner : List Number) (rank : Int) : List Int :=
  (upTo rank).filter fun a => !inner.any (Number.eq (.int a))

def along (xs : List Number) (axes : List Int) : List Number :=
  axes.map fun a => xs.getD a.toNat 0

end Enclose

namespace Item

/-- The whole array as one item; enclosing a simple scalar changes nothing. -/
def encloseWhole (name : String) (base : View Item) (origin : Origin) : View Item :=
  let outer : Lazy Item := .delay fun _ => do
    if (← base.rank) = 0 then return list [] else .error .operandType
  View.computed
    { shape := Lazy.pure []
      etype := .delay fun _ => do
        if ← (view base).isArray then return EType.mixed else base.etype
      prototype := fun _ => (view base).fillOf
      generator := fun _ => do
        if ← (view base).isArray then return .single (view base)
        else return .single (← base.cell 0)
      form := ⟨name,
        [("base", Lazy.pure (view base)), ("axes", Lazy.pure nothing),
          ("io", Lazy.pure (scalar origin)),
          ("inner_axes", ⟨fun _ => .error .operandType⟩), ("outer_axes", outer)], false, none⟩ }

/-- Some axes as items; the rest make up the result. -/
def encloseAxes (name : String) (base : View Item) (axes : List Int) (origin : Origin) :
    View Item :=
  let inner : Lazy (List Number) := Lazy.keep fun _ => Enclose.innerAxes axes base.rank origin
  let wholeAxes : Lazy (List Int) := .delay fun _ => do (← inner.get).mapM Number.index
  let outer : Lazy (List Int) := Lazy.keep fun _ => do
    let rank ← base.rank
    if rank = 0 then return [] else return Enclose.outerAxes (← inner.get) rank
  let shape : Lazy Extents := Lazy.keep fun _ => do
    let s ← base.shape
    return Enclose.along s (← outer.get)
  View.computed
    { shape := shape
      etype := .delay fun _ => do
        if (← inner.get).isEmpty then base.etype else return EType.mixed
      prototype := fun _ => do
        let inner ← wholeAxes.get
        if inner.isEmpty then base.prototype
        else
          let dims := Enclose.along (← base.shape) inner
          let whole := encloseWhole "Enclose" (← base.prototype).lift (.int 0)
          let dims ← newShape (dims.map ofNumber)
          (view (whole.under (.reshape .reshape dims))).fillOf
      generator := fun _ => do
        let s ← base.shape
        let factors ← s.strides
        let outer ← outer.get
        let inner ← wholeAxes.get
        let dims := (Enclose.along s inner).zip (Enclose.along factors inner)
        let shape ← shape.get
        let cells : Lazy (Gen Item) := Lazy.keep fun _ => base.generator
        return .indexed fun i => do
          let offset ← Extents.dot (← shape.coordinates i) (Enclose.along factors outer)
          if dims.isEmpty then (← cells.get).cell offset
          else return view (base.under (.window offset.scalar dims))
      form := ⟨name,
        [("base", Lazy.pure base.shown), ("axes", Lazy.pure (ints axes)),
          ("io", Lazy.pure (scalar origin)),
          ("inner_axes", .delay fun _ => do
            return list ((← inner.get).map fun a => scalar a.scalar)),
          ("outer_axes", .delay fun _ => do return ints (← outer.get))], false, none⟩ }

/-- The whole array as one item, or some of its axes as items. -/
def enclose (base : Item) (axes : Option Item) (origin : Origin) : Except Fault (View Item) :=
  match axes with
  | none => .ok (encloseWhole "Enclose" base.lift origin)
  | some axes =>
    return encloseAxes "Enclose" (base.basedOn (.ok (int 0))) (← axes.asInts "axis") origin

/-- The vectors along an axis, the last one if none is given. -/
def split (base : Item) (axis : Option Item) (origin : Origin) : Except Fault (View Item) := do
  let v := base.lift
  let rank ← v.rank
  let axis ← match axis with
    | some axis => pure axis
    | none => pure (scalar (← origin.count (.int (max (rank - 1) 0))))
  if rank = 0 then return encloseWhole "Split" v origin
  else return encloseAxes "Split" v (← (list [axis]).asInts "axis") origin

end Item

namespace Partition

/-- The stretches that keys describe: runs of keys that are not zero, cut before each key that is
greater than the one before it. The state is where the open run starts and the key before. -/
def runsFrom (i : Int) (start : Option Int) (previous : Int) : List Int → List (Int × Int)
  | [] =>
    match start with
    | some s => [(s, i)]
    | none => []
  | k :: ks =>
    match start with
    | some s =>
      if k = 0 then (s, i) :: runsFrom (i + 1) none k ks
      else if previous < k then (s, i) :: runsFrom (i + 1) (some i) k ks
      else runsFrom (i + 1) (some s) k ks
    | none =>
      if k = 0 then runsFrom (i + 1) none k ks else runsFrom (i + 1) (some i) k ks

def runs (keys : List Int) : List (Int × Int) := runsFrom 0 none 0 keys

/-- The cells at which something begins, with how many things do. -/
def starts (i : Int) : List Int → List (Int × Int)
  | [] => []
  | k :: ks => if k = 0 then starts (i + 1) ks else (i, k) :: starts (i + 1) ks

/-- From each start to the next one, or to the end; all but the last stretch at one start are
empty. All of them go into one list, which has come to some length before. -/
def spread (room : Room) (n : Int) (length : Nat) :
    List (Int × Int) → Except Fault (List (Int × Int))
  | [] => .ok []
  | (i, k) :: rest => do
    let empty ← room.copies (i, i) (k - 1)
    let length ← room.grown length (empty.length + 1)
    let later ← spread room n length rest
    let stop := match rest with
      | (j, _) :: _ => j
      | [] => n
    return empty ++ (i, stop) :: later

/-- Stretches of which the last one ends at the given extent, as the extent came about. -/
def endingAt (n : Number) : List (Int × Int) → List (Int × Number)
  | [] => []
  | [(i, _)] => [(i, n)]
  | (i, j) :: rest => (i, .int j) :: endingAt n rest

/-- How stretches are described: by keys that mark their cells, or by counts of beginnings. -/
inductive Style
  | keys
  | counts
  deriving DecidableEq, Repr

namespace Style

def name : Style → String
  | keys => "Partition"
  | counts => "PartitionedEnclose"

def role : Style → String
  | keys => "partition keys"
  | counts => "partition counts"

/-- The stretches along an axis of `n` cells. -/
def segments [Platform] (style : Style) (n : Number) (isScalar : Bool) (given : List Int) :
    Except Fault (List (Int × Number)) := do
  let marks ← if isScalar then Platform.room.repeated given (← n.index) else pure given
  let count : Number := marks.length
  match style with
  | keys =>
    if !count.eq n then .error (.length .keyPerCell [[count], [n]])
    else if marks.any (· < 0) then .error (.domain .negativeKeys)
    else return (runs marks).map fun (i, j) => (i, .int j)
  | counts =>
    if !count.eq n then .error (.length .countPerCell [[count], [n]])
    else if marks.any (· < 0) then .error (.domain .negativeCounts)
    else
      let room := Platform.room.beside marks.length
      return endingAt n (← spread room marks.length 0 (starts 0 marks))

end Style

/-- The stretch of an array that is the item at a position. -/
def item (base : View Item) (source : Extents) (axis : Int) (segments : List (Int × Number))
    (shape : Extents) (i : Number) : Except Fault Item := do
  let factors ← source.strides
  let c ← shape.coordinates i
  let (start, stop) ← pickBy segments (← pickAt c axis)
  let offset ← Extents.dot (replaced c axis (.int start)) factors
  let dims := [(← stop.sub start, factors.getD axis.toNat 0)]
  return .view (base.under (.window offset.scalar dims))

end Partition

namespace Item

/-- Stretches along an axis as items. -/
def partition [Platform] (style : Partition.Style) (base keys : Item) (axis : Option Item)
    (origin : Origin) : Except Fault (View Item) := do
  let marks ← flat keys .partitionKeys
  let v := base.based
  if (← v.rank) = 0 then .error (.rank .partitionOfScalar)
  else
    let place : Lazy Number := Lazy.keep fun _ => do
      let rank ← v.rank
      match axisArgument axis with
      | none => return .int (rank - 1)
      | some a => a.located rank origin
    let along : Lazy Int := .delay fun _ => do (← place.get).index
    let segments : Lazy (List (Int × Number)) := Lazy.keep fun _ => do
      let s ← v.shape
      let n ← pickAt s (← along.get)
      let given ← marks.asInts style.role
      style.segments n ((← marks.rankOf) = 0) given
    let shape : Lazy Extents := Lazy.keep fun _ => do
      let s ← v.shape
      return replaced s (← along.get) (← segments.get).length
    return View.computed
      { shape := shape
        etype := Lazy.pure EType.mixed
        prototype := fun _ => do
          let named ← (← place.get).add (← origin.number)
          let nothing ←
            take (view v) (list [int 0]) (some (list [scalar named.scalar])) origin
          (view nothing).fillOf
        generator := fun _ => do
          let a ← along.get
          let stretches ← segments.get
          let s ← v.shape
          return .indexed (Partition.item v s a stretches (← shape.get))
        form := ⟨style.name,
          [("base", Lazy.pure (view v)), ("keys", Lazy.pure marks),
            ("axis", Lazy.pure (axis.getD nothing)), ("io", Lazy.pure (scalar origin)),
            ("segments", .delay fun _ => do
              return list ((← segments.get).map fun (a, b) => ofNumbers [a, b])),
            ("resolved_axis", .delay fun _ => do return scalar (← place.get).scalar)],
          false, none⟩ }

end Item
end LazyApl
