import LazyApl.Primitive.Amend
import LazyApl.Text.Written
/-!
# Questions about arrays

What can be asked about an array: its shape, element type and fill, its cells, and how it is made.
The answers are values and element types; pairs and longer rows of values are lists.
-/

namespace LazyApl

/-- A question about an array. -/
inductive Question
  | shape
  | rank
  | size
  | etype
  | prototype
  | render
  | subrender
  | items
  | isArray
  | fill
  | asInts (role : String)
  | asInt (role : String)
  | cell (place : Item)
  | isSingle
  | written
  | name
  | chain
  | index
  | resolved
  | field (name : String)

/-- The answer to a question. -/
inductive Answer
  | item (x : Item)
  | etype (t : EType)

namespace Item

mutual

/-- An item with the views in its cells rendered as well. -/
def exposed : Item → Except Fault Item
  | scalar s => .ok (scalar s)
  | list xs => do return list (← exposedAll xs)
  | array ⟨shape, items, fill⟩ => do return array ⟨shape, ← exposedAll items, fill⟩
  | view v => (view v).settle

def exposedAll : List Item → Except Fault (List Item)
  | [] => .ok []
  | x :: xs => do
    let y ← exposed x
    let ys ← exposedAll xs
    return y :: ys

end

/-- The name of the kind of an item: for a view, of the operation that made it. -/
def kindName : Item → String
  | view v => v.name
  | array _ => "Array"
  | list _ => "list"
  | scalar .nothing => "NoneType"
  | scalar (.truth _) => "bool"
  | scalar (.int _) => "int"
  | scalar (.real _) => "float"
  | scalar (.complex _) => "complex"
  | scalar (.text _) => "str"

end Item

namespace Inspect

def span (s : AxisSpan) : Item := .ofNumbers [s.start, s.stop, s.before, s.after]

def layout (l : Layout) : Item := .list (l.map span)

def optional (x : Option Number) : Item := x.elim .nothing .ofNumber

/-- An argument of an index transform, as an array of the numbers that were read from it. -/
def argument (y : IntArgument) : Except Fault Item := do
  return (Grid.of (← (← y.shape.get).shape) ((← y.ints.get).map .int) none).unboxed

/-- An argument of an index transform that may be missing. -/
def argument? (y : Option IntArgument) : Except Fault Item :=
  match y with
  | some y => argument y
  | none => .ok .nothing

def axis : Option AxisArgument → Item
  | some (.whole n) => .int n
  | some (.other x) => .scalar x
  | none => .nothing

def base (v : View Item) : View Item := ⟨v.root, v.steps.tail⟩

def top (v : View Item) : Level := Level.ofSteps Item.fillOf v.root.facts v.steps

/-- The view that lies so many transforms below another. -/
def lower (v : View Item) (n : Nat) : View Item := ⟨v.root, v.steps.drop n⟩

def sections : List Step → Nat
  | .cut _ _ _ _ :: rest => sections rest + 1
  | _ => 0

/-- How many rotations are added up into the top one. -/
def turns (v : View Item) : Nat → Except Fault Nat
  | 0 => .ok 0
  | n + 1 => do
    match (top v).turn?, (top (base v)).turn? with
    | some upper, some below =>
      let isScalar := (← (base v).rank) = 0
      match ← upper.single.get, ← below.single.get with
      | some _, some _ =>
        if isScalar || !(← upper.axis.get).eq (← below.axis.get) then return 1
        else return (← turns (base v) n) + 1
      | _, _ => return 1
    | _, _ => return 1

/-- The array that an index transform takes its cells from. -/
def source (v : View Item) : Except Fault (View Item) := do
  match (top v).spans?, (top v).turn? with
  | some merged, _ => do
    let _ ← merged.get
    return lower v (sections v.steps)
  | _, some turn => do
    let _ ← turn.total.get
    return lower v (← turns v v.steps.length)
  | none, none => return base v

/-- What the source of a section or of a rotation looks like from it: the layout or the amount. -/
def merged (v : View Item) : Except Fault (String × Item) := do
  match (top v).spans?, (top v).turn? with
  | some merged, _ => do
    let (source, l) ← merged.get
    return (source.name, layout l)
  | _, some turn => do
    let (source, amount) ← turn.total.get
    return (source.name, optional (amount.map .int))
  | none, none => .error .noSuchField

/-- A quantity that every index transform shows, by name. -/
def commonField (v : View Item) (name : String) : Except Fault Item := do
  match name with
  | "foldable" => return .truth true
  | "base" => return (base v).shown
  | "source" => return (← source v).shown
  | "resolved" => return .list [.view (← source v), (← merged v).2]
  | _ => .error .noSuchField

/-- A quantity that an index transform shows, by name. -/
def stepField (v : View Item) (s : Step) (name : String) : Except Fault Item := do
  let below : Lazy Extents := (top (base v)).stage.shape
  match s, name with
  | .reshape _ dims, "_dims" => return .ints dims
  | .cut _ drop counts axes, "layout" =>
    return layout (← Section.layout drop counts axes (← below.get))
  | .cut _ _ counts _, "counts" => return .ints counts
  | .cut _ drop _ _, "drop" => return .truth drop
  | .cut _ _ _ axes, "axes" => return axes.elim .nothing .ints
  | .permute axes, "axes" => return axes.elim .nothing .ofNumbers
  | .permute axes, "targets" => return .ints (← Transpose.targets axes (← below.get))
  | .rotate amount _ _ _, "amount" => argument? amount
  | .rotate _ given _ _, "axis" | .compress _ _ given _ _ _, "axis" => return axis given
  | .rotate _ _ first _, "first" | .compress _ _ _ first _ _, "first" => return .truth first
  | .rotate _ _ _ origin, "io" | .compress _ _ _ _ origin _, "io" | .select _ origin, "io" =>
    return .scalar origin
  | .rotate _ given first origin, "resolved_axis" =>
    return .ofNumber (← Rotation.located given first origin (← below.get))
  | .compress _ _ given first origin _, "resolved_axis" =>
    return .ofNumber (← Replicate.located given first origin (← below.get))
  | .compress degrees isScalar given first origin room, "positions" => do
    let s ← below.get
    let a ← Replicate.axis given first origin s
    let positions ← Replicate.positions room degrees isScalar (← pickAt s a)
    return .list (positions.map fun p => optional (p.map .int))
  | .compress degrees _ _ _ _ _, "degrees" => return .ints degrees
  | .compress _ isScalar _ _ _ _, "scalar_degree" => return .truth isScalar
  | .window offset _, "offset" => return .scalar offset
  | .window _ dims, "dims" => return .list (dims.map fun (e, k) => .ofNumbers [e, k])
  | .select indices _, "indices" => return .list (← indices.mapM argument?)
  | .select _ _, "assign" | .select _ _, "fn" => return .nothing
  | .select indices _, "selection_shape" =>
    return .ofNumbers (← Selection.shape (← below.get) indices)
  | .select indices origin, "targets" =>
    return Amend.pairs (← Selection.targets (← below.get) indices origin)
  | _, _ => commonField v name

def content (v : View Item) : Except Fault Item := do
  let cells ← v.generator
  return .list (← (upTo (← v.count)).mapM fun (i : Int) => cells.cell i)

def rootField (v : View Item) (form : Form Item) (name : String) : Except Fault Item :=
  match form.details.lookup name, name with
  | some x, _ => x.get
  | none, "base" => .ok .nothing
  | none, "content" => if form.isWhole then content v else .error .noSuchField
  | none, _ => .error .noSuchField

def gridField (g : Grid Item) (name : String) : Except Fault Item := do
  match name with
  | "shape" => return .ints g.shape
  | "rank" => return .int g.rank
  | "bound" => return .int g.size
  | "nested" => return .truth g.isNested
  | "data" => return .list g.items
  | _ => .error .noSuchField

/-- A quantity that a view shows, by name. -/
def viewField (v : View Item) (name : String) : Except Fault Answer := do
  match name with
  | "shape" => return .item (.ofNumbers (← v.shape))
  | "rank" => return .item (.int (← v.rank))
  | "size" => return .item (.ofNumber (← v.size))
  | "etype" => return .etype (← v.etype)
  | "prototype" => return .item (← (← v.prototype).exposed)
  | _ =>
    let x ← match v.steps with
      | s :: _ => stepField v s name
      | [] => rootField v v.root.facts.form name
    return .item (← x.exposed)

def field (x : Item) (name : String) : Except Fault Answer := do
  match x with
  | .view v => viewField v name
  | .array g => return .item (← (← gridField g name).exposed)
  | _ => .error .noSuchField

/-- The links of an index transform, and the name of the array that they lead to. -/
def chain (v : View Item) : Except Fault (List Link × String) :=
  match v.steps, v.root with
  | [], .computed ⟨_, _, _, _, ⟨_, _, _, some chain⟩⟩ => chain.get
  | [], _ => .error .noSuchField
  | _, _ => v.chain

/-- A link as an item: how it names cells on both sides, and the two shapes. -/
def link (l : Link) : Item :=
  .list [.text l.encoding.name, .text l.output.name, .ofNumbers l.outShape,
    .ofNumbers l.inShape]

/-- The source position of every cell of an index transform; none where it shows the fill. -/
def index (v : View Item) : Except Fault Item := do
  let (links, _) ← chain v
  let places ← (upTo (← v.count)).mapM fun (i : Int) => Link.compose links i
  return .list (places.map optional)

def position? : Item → Option Number
  | .scalar s => s.number?
  | _ => none

/-- The cell at a place. A place that is no number names no cell, but it does not matter where there
is one item for all cells. -/
def cellAt (x place : Item) : Except Fault Item := do
  match position? place, x with
  | some i, _ => x.elementAt i
  | none, .view v =>
    match ← v.generator with
    | .single y => return y
    | .indexed _ => .error .operandType
  | none, .array _ => .error .operandType
  | none, _ => return x

end Inspect

namespace Question

/-- An answer about a view; other items have no transforms to ask about. -/
def ofView (x : Item) (f : View Item → Except Fault Answer) : Except Fault Answer :=
  match x with
  | .view v => f v
  | _ => .error .noSuchField

/-- The answer to a question about an item. -/
def ask (q : Question) (x : Item) : Except Fault Answer := do
  match q with
  | shape => return .item (.ofNumbers (← x.shapeOf))
  | rank => return .item (.int (← x.rankOf))
  | size => return .item (.ofNumber (← x.sizeOf))
  | etype => return .etype (← x.etypeOf)
  | prototype => return .item (← (← x.prototypeOf).exposed)
  | render => return .item (← (← x.render).exposed)
  | subrender => return .item (← (← x.subrender).exposed)
  | items => return .item (← (Item.list (← x.items)).exposed)
  | isArray => return .item (.truth (← x.isArray))
  | fill => return .item (← (← x.fillOf).exposed)
  | asInts role => return .item (.ints (← x.asInts role))
  | asInt role => return .item (.int (← x.asInt role))
  | cell place => return .item (← (← Inspect.cellAt x place).exposed)
  | isSingle => return .item (.truth (← x.generatorOf).isSingle)
  | written => return .item (.text x.written)
  | name => return .item (.text x.kindName)
  | chain =>
    ofView x fun v => do
      let (links, root) ← Inspect.chain v
      return .item (.list [.list (links.map Inspect.link), .text root])
  | index => ofView x fun v => do return .item (← Inspect.index v)
  | resolved =>
    ofView x fun v => do
      let (source, d) ← Inspect.merged v
      return .item (.list [.text source, d])
  | field what => Inspect.field x what

end Question
end LazyApl
