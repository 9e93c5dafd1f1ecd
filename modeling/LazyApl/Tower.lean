import LazyApl.Grid
import LazyApl.Transform
/-!
# Towers of index transforms

A tower is read from its root upwards. At every level the array below is known by its shape, element
type, fill and chain of links, and the next transform adds its own link to the chain. Two rules keep
chains short: a section directly over sections shows the source of all of them through one merged
layout, and a rotation by one amount directly over such a rotation along the same axis adds the
amounts.
-/

namespace LazyApl

/-- An array of a tower as the transforms above see it. -/
structure Stage where
  name : String
  shape : Lazy Extents
  etype : Lazy EType
  prototype : Lazy Item
  /-- The links from this array down to the root, outermost first. -/
  chain : Lazy (List Link)

/-- What a rotation offers to one directly above: its amount if it has only one, its axis, and the
source with the amount of all rotations that have been added up. -/
structure Turn where
  single : Lazy (Option Int)
  axis : Lazy Number
  total : Lazy (Stage × Option Int)

/-- A level of a tower: the array itself, and what it offers to a section or a rotation directly
above. -/
structure Level where
  stage : Stage
  spans? : Option (Lazy (Stage × Layout))
  turn? : Option Turn

namespace Level

def ofFacts (f : Facts Item) : Level :=
  ⟨⟨f.form.name, f.shape, f.etype, ⟨f.prototype⟩, Lazy.pure []⟩, none, none⟩

/-- Element type of cells that may be fills of the source. -/
def paddedType (source : Stage) : Except Fault EType := do
  let t ← source.etype.get
  let fill ← source.prototype.get
  return t.join fill.etype

def extend (source : Stage) (link : Except Fault Link) : Except Fault (List Link) := do
  let below ← source.chain.get
  let own ← link
  return own :: below

/-- The source and the layout of a section, merged with the sections directly below. -/
def mergedLayout (base : Level) (drop : Bool) (counts : List Int) (axes : Option (List Int)) :
    Except Fault (Stage × Layout) :=
  match base.spans? with
  | some below => do
    let (source, inner) ← below.get
    let own ← Section.layout drop counts axes (← base.stage.shape.get)
    return (source, ← inner.merge own)
  | none => do
    let own ← Section.layout drop counts axes (← base.stage.shape.get)
    return (base.stage, own)

/-- The source and the amount of a rotation, added to the rotations directly below. -/
def addedTurns (base : Level) (amount : Option IntArgument) (given : Option AxisArgument)
    (first : Bool) (origin : Origin) : Except Fault (Stage × Option Int) := do
  let own ← Rotation.single amount
  match own, base.turn? with
  | some k, some below =>
    let shape ← base.stage.shape.get
    if shape.isEmpty then return (base.stage, own)
    else
      match ← below.single.get with
      | none => return (base.stage, own)
      | some _ =>
        let lower ← below.axis.get
        let upper ← Rotation.located given first origin shape
        if lower.eq upper then
          let (source, total) ← below.total.get
          return (source, total.map (· + k))
        else return (base.stage, own)
  | _, _ => return (base.stage, own)

/-- The cell of the root that shows at a position of the top, through a chain of links. -/
def source (chain : List Link) (generator : Gen Item) (i : Number) :
    Except Fault (Option Item) := do
  match ← Link.compose chain i with
  | none => return none
  | some j => return some (← generator.cell j)

/-- The fill of a window: made from its first cell, or that of its source if it has no cell. -/
def windowFill (fill : Item → Except Fault Item) (root : Facts Item) (base : Stage)
    (shape : Lazy Extents) (chain : Lazy (List Link)) : Except Fault Item := do
  if (← (← shape.get).size).isZero then base.prototype.get
  else
    match ← source (← chain.get) (← root.generator .now) 0 with
    | some x => fill x
    | none => .error .endless

/-- The level that a transform makes of the one below. -/
def above (fill : Item → Except Fault Item) (root : Facts Item) (s : Step) (base : Level) : Level :=
  let below := base.stage
  let shape : Lazy Extents := Lazy.keep fun _ =>
    match s.fixedShape? with
    | some dims => .ok dims
    | none => do s.shapeOver (← below.shape.get)
  let plain : Lazy (List Link) := Lazy.keep fun _ =>
    extend below (do s.linkOver (← below.shape.get))
  match s with
  | .reshape _ _ =>
    let etype : Lazy EType := .delay fun _ => do
      if (← (← below.shape.get).size).isZero then return (← below.prototype.get).etype
      else below.etype.get
    ⟨⟨s.name, shape, etype, below.prototype, plain⟩, none, none⟩
  | .cut _ drop counts axes =>
    let merged : Lazy (Stage × Layout) := Lazy.keep fun _ => mergedLayout base drop counts axes
    let etype : Lazy EType := .delay fun _ => do
      let (source, layout) ← merged.get
      if layout.isPadded then paddedType source else source.etype.get
    let chain : Lazy (List Link) := Lazy.keep fun _ => do
      let (source, layout) ← merged.get
      extend source (do Section.link layout (← source.shape.get))
    let shape : Lazy Extents := Lazy.keep fun _ => do (← merged.get).2.extents
    ⟨⟨s.name, shape, etype, below.prototype, chain⟩, some merged, none⟩
  | .rotate amount given first origin =>
    let total : Lazy (Stage × Option Int) := Lazy.keep fun _ =>
      addedTurns base amount given first origin
    let chain : Lazy (List Link) := Lazy.keep fun _ => do
      let (source, k) ← total.get
      extend source (do Rotation.linkWith amount given first origin (← below.shape.get) k)
    let axis : Lazy Number := .delay fun _ => do
      Rotation.located given first origin (← below.shape.get)
    ⟨⟨s.name, shape, below.etype, below.prototype, chain⟩, none,
      some ⟨.delay fun _ => Rotation.single amount, axis, total⟩⟩
  | .compress degrees isScalar given first origin room =>
    let etype : Lazy EType := .delay fun _ => do
      let source ← below.shape.get
      let a ← Replicate.axis given first origin source
      let cells ← Replicate.positions room degrees isScalar (← pickAt source a)
      if cells.contains none then paddedType below else below.etype.get
    ⟨⟨s.name, shape, etype, below.prototype, plain⟩, none, none⟩
  | .window _ _ =>
    let prototype : Lazy Item := Lazy.keep fun _ => windowFill fill root below shape plain
    ⟨⟨s.name, shape, below.etype, prototype, plain⟩, none, none⟩
  | .permute _ | .select _ _ => ⟨⟨s.name, shape, below.etype, below.prototype, plain⟩, none, none⟩

def ofSteps (fill : Item → Except Fault Item) (root : Facts Item) : List Step → Level
  | [] => ofFacts root
  | s :: rest => above fill root s (ofSteps fill root rest)

end Level

namespace Tower

/-- What the top of a tower answers. -/
def facts (fill : Item → Except Fault Item) (root : Facts Item) (steps : List Step) : Facts Item :=
  match steps with
  | [] => root
  | s :: _ =>
    let top := (Level.ofSteps fill root steps).stage
    let generator : Lazy (Gen Item) := Lazy.keep fun _ => do
      let chain ← top.chain.get
      let cells ← root.generator .now
      return .indexed fun i => do
        match ← Level.source chain cells i with
        | some x => return x
        | none => top.prototype.get
    ⟨top.shape, top.etype, top.prototype.run, generator.run, ⟨s.name, [], false, none⟩⟩

@[simp] theorem facts_nil (fill : Item → Except Fault Item) (root : Facts Item) :
    facts fill root [] = root := rfl

/-- The array with all cells at hand. Truth values count as whole numbers where the element type
says so. -/
def collect (f : Facts Item) : Except Fault (Grid Item) := do
  let extents ← f.shape.get
  let cells ← f.generator .now
  let count ← extents.count
  let items ← (upTo count).mapM fun (i : Int) => cells.cell i
  let kind := (← f.etype.get).kind
  let items := if kind = .bit || kind = .int then items.map Item.counted else items
  let fill ← if count = 0 then some <$> f.prototype .now else pure none
  return Grid.of (← extents.shape) items fill

end Tower
end LazyApl
