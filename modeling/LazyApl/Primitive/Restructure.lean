import LazyApl.Platform
import LazyApl.Render
/-!
# Renumbering cells

Reshape, take, drop, transpose, rotate, replicate and bracket indexing as index transforms on top
of a view. An argument that has to be known for the transform to make sense is read and checked
here; other checks wait until the shape or a cell is asked for.
-/

namespace LazyApl
namespace View

def under (v : View Item) (s : Step) : View Item := ⟨v.root, s :: v.steps⟩

/-- A computed array as a view. Each answer is computed at most once. -/
def computed (f : Facts Item) : View Item :=
  ⟨.computed
    { f with
      shape := Lazy.keep f.shape.run
      etype := Lazy.keep f.etype.run
      prototype := (Lazy.keep f.prototype).run
      generator := (Lazy.keep f.generator).run }, []⟩

/-- A computed array that shows more of how it was made. -/
def showing (details : List (String × Lazy Item)) : View Item → View Item
  | ⟨.computed f, []⟩ => ⟨.computed { f with form := { f.form with details := details } }, []⟩
  | v => v

variable (v : View Item)

def shape : Except Fault Extents := v.facts.shape.get

def rank : Except Fault Int := return (← v.shape).length

def size : Except Fault Number := do (← v.shape).size

def count : Except Fault Int := do (← v.shape).count

def etype : Except Fault EType := v.facts.etype.get

def prototype : Except Fault Item := v.facts.prototype .now

def generator : Except Fault (Gen Item) := v.facts.generator .now

def cell (i : Number) : Except Fault Item := do (← v.generator).cell i

/-- The links of a view down to its root, and the name of the root. -/
def chain : Except Fault (List Link × String) := do
  let links ← (Level.ofSteps Item.fillOf v.root.facts v.steps).stage.chain.get
  return (links, v.root.facts.form.name)

def name : String := v.facts.form.name

def vacantName : String := "NoneType"

/-- The place of an array that is not there: it has neither shape nor cells, and the given answers
where its type and its fill are asked for. -/
def vacant (etype : Except Fault EType) (fill : Except Fault Item) : View Item :=
  ⟨.computed
    { shape := ⟨fun _ => .error .noSuchField⟩
      etype := ⟨fun _ => etype⟩
      prototype := fun _ => fill
      generator := fun _ => .error .noSuchField
      form := ⟨vacantName, [], false, none⟩ }, []⟩

def shown : Item := if v.steps.isEmpty && v.name == vacantName then .nothing else .view v

end View

namespace Item

def flat (x : Item) (refusal : RankCause) : Except Fault Item := do
  let v := x.lift
  if 1 < (← v.rank) then .error (.rank refusal) else return view v

/-- An item as the array that an operation is about. Nothing is not an array, and then the fill is
as given. -/
def basedOn (fill : Except Fault Item) : Item → View Item
  | scalar .nothing => .vacant (.ok EType.mixed) fill
  | x => x.lift

def based : Item → View Item := basedOn (.error .noSuchField)

/-- Items as a new shape: whole numbers by value, of which none is negative. -/
def newShape (xs : List Item) : Except Fault Shape := do
  let dims ← xs.mapM (asWhole "shape")
  if dims.any (· < 0) then .error (.domain .negativeShape) else return dims

def reshape (base shape : Item) : Except Fault (View Item) := do
  let dims ← newShape (← (← flat shape .shapeArgument).items)
  let fill := if Shape.size dims = 0 then .ok (int 0) else .error .noSuchField
  return (base.basedOn fill).under (.reshape .reshape dims)

def ravel (base : Item) : Except Fault (View Item) := do
  let dims ← newShape [ofNumber (← base.lift.size)]
  return base.lift.under (.reshape .ravel dims)

def table (base : Item) : Except Fault (View Item) := do
  let dims ← match ← base.lift.shape with
    | [] => pure [int 1, int 1]
    | n :: rest => pure [ofNumber n, ofNumber (← Extents.size rest)]
  return base.lift.under (.reshape .table (← newShape dims))

def cutName (style : Cut) : String := (Step.cut style false [] none).name

/-- A section along axes that are not whole numbers: of it only the fill is known. -/
def brokenCut (style : Cut) (drop : Bool) (base : View Item) (counts : List Int)
    (axes : List Number) : View Item :=
  .computed
    { shape := ⟨fun _ => .error .operandType⟩
      etype := ⟨fun _ => .error .operandType⟩
      prototype := fun _ => base.prototype
      generator := fun _ => .error .operandType
      form := ⟨cutName style,
        [("base", Lazy.pure base.shown), ("counts", Lazy.pure (ints counts)),
          ("axes", Lazy.pure (list (axes.map fun a => scalar a.scalar))),
          ("drop", Lazy.pure (truth drop)), ("foldable", Lazy.pure (truth true)),
          ("layout", ⟨fun _ => .error .operandType⟩)],
        false, some ⟨fun _ => .error .operandType⟩⟩ }

/-- A section: for each counted axis its first or last cells, or what is left without them. -/
def cut (style : Cut) (drop : Bool) (base counts : Item) (axis : Option Item)
    (origin : Origin) : Except Fault (View Item) := do
  let counts ← (← flat counts .leftScalarOrVector).asInts "left argument"
  let base := base.based
  match axis with
  | some axis =>
    let axes ← axis.asInts "axis"
    if axes.length ≠ counts.length then
      .error (.length .countPerAxis [[counts.length], [axes.length]])
    else
      let rank ← base.rank
      let axes ← axes.mapM fun a => (AxisArgument.whole a).located rank origin
      match axes.mapM Number.index with
      | .ok whole => return base.under (.cut style drop counts (some whole))
      | .error _ => return brokenCut style drop base counts axes
  | none =>
    let rank ← base.rank
    if rank = 0 then
      let ones : Shape := counts.map fun _ => 1
      return (base.under (.reshape .reshape ones)).under (.cut style drop counts none)
    else if rank < counts.length then .error (.rank .countsBeyondAxes)
    else return base.under (.cut style drop counts none)

/-- The first cells along each axis, or the last ones for negative counts. -/
def take (base counts : Item) (axis : Option Item) (origin : Origin) : Except Fault (View Item) :=
  cut .take false base counts axis origin

/-- What is left without the first cells along each axis, or without the last ones. -/
def drop (base counts : Item) (axis : Option Item) (origin : Origin) : Except Fault (View Item) :=
  cut .drop true base counts axis origin

def permute (base : Item) (axes : Option Item) (origin : Origin) : Except Fault (View Item) := do
  match axes with
  | none => return base.based.under (.permute none)
  | some axes =>
    let given ← (← flat axes .leftVector).asInts "left argument"
    return base.based.under (.permute (some (← given.mapM origin.strip)))

/-- A rotation along an axis, or a reversal when no amount is given. -/
def rotate (base : Item) (amount : Option Item) (axis : Option AxisArgument) (first : Bool)
    (origin : Origin) : View Item :=
  base.based.under (.rotate (amount.map fun k => k.asArgument "rotation") axis first origin)

/-- Cells along an axis repeated as often as their counts say. A scalar counts as a vector of equal
cells. -/
def replicate [Platform] (base degrees : Item) (axis : Option AxisArgument) (first : Bool)
    (origin : Origin) : Except Fault (View Item) := do
  let arg ← flat degrees .leftScalarOrVector
  let counts ← arg.asInts "left argument"
  let isScalar := (← arg.rankOf) = 0
  let base := base.based
  let base :=
    if (← base.rank) = 0 then base.under (.reshape .reshape [counts.length]) else base
  return base.under (.compress counts isScalar axis first origin Platform.room)

/-- A window whose place is no simple value: it has a shape, but no cells can be read. -/
def brokenWindow (base : View Item) (offset : Item) (dims : List (Number × Number)) : View Item :=
  let shape := dims.map Prod.fst
  let chain : Lazy (List Link × String) := .delay fun _ => do
    let source ← base.shape
    let (below, root) ← base.chain
    return (Link.affine .nothing dims source :: below, root)
  .computed
    { shape := Lazy.pure shape
      etype := .delay fun _ => base.etype
      prototype := fun _ => do
        if (← Extents.size shape).isZero then base.prototype else .error .operandType
      generator := fun _ => do
        let _ ← chain.get
        return .indexed fun _ => .error .operandType
      form := ⟨(Step.window .nothing dims).name,
        [("base", Lazy.pure base.shown), ("source", Lazy.pure base.shown),
          ("foldable", Lazy.pure (truth true)), ("offset", Lazy.pure offset),
          ("dims", Lazy.pure (list (dims.map fun (n, k) => ofNumbers [n, k])))],
        false, some chain⟩ }

def window (base offset : Item) (dims : List (Number × Number)) : View Item :=
  let base := base.basedOn (.ok (int 0))
  match offset with
  | scalar s => base.under (.window s dims)
  | _ => brokenWindow base offset dims

/-- Index arguments of a selection; one is needed for each axis. -/
def indexed (base : View Item) (indices : List (Option Item)) :
    Except Fault (List (Option IntArgument)) := do
  let rank ← base.rank
  if (indices.length : Int) ≠ rank then .error (.rank (.indexCount indices.length rank.toNat))
  else return indices.map fun y => y.map fun y => y.asArgument "index"

/-- The cells at the given indices along each axis; an omitted index stands for the whole axis. -/
def select (base : Item) (indices : List (Option Item)) (origin : Origin) :
    Except Fault (View Item) := do
  return base.based.under (.select (← indexed base.based indices) origin)

end Item
end LazyApl
