import LazyApl.Axis
import LazyApl.EType
import LazyApl.Index.Span
import LazyApl.Index.Link
import LazyApl.Room
/-!
# Items and views

An array cell holds an item: a simple scalar, an array at hand, or a view, which describes an array
without computing its cells. A view is a root array with a tower of index transforms on top, the
outermost first. The root is an array at hand, or a computed array that answers for its shape,
element type, fill and cells when asked.

Quantities are delayed until they are demanded, because a demand may fail and because an array that
nobody looks at costs nothing.
-/

namespace LazyApl

/-- The argument of a delayed quantity. -/
inductive Demand
  | now

/-- A quantity that is computed when demanded, and may then turn out to be a failure. -/
structure Lazy (α : Type) where
  run : Demand → Except Fault α

namespace Lazy

variable {α : Type}

def get (x : Lazy α) : Except Fault α := x.run .now

def delay (f : Demand → Except Fault α) : Lazy α := ⟨f⟩

def keep (f : Demand → Except Fault α) : Lazy α :=
  let t := Thunk.mk fun _ => f .now
  ⟨fun _ => t.get⟩

def pure (a : α) : Lazy α := ⟨fun _ => .ok a⟩

@[simp] theorem get_delay (f : Demand → Except Fault α) : (delay f).get = f .now := rfl

@[simp] theorem get_keep (f : Demand → Except Fault α) : (keep f).get = f .now := rfl

end Lazy

/-- The cells of an array: one item for all of them, or an item for each position. Some arrays have
cells at positions that are not whole. -/
inductive Gen (α : Type)
  | single (x : α)
  | indexed (f : Number → Except Fault α)

namespace Gen

variable {α β : Type}

def cell (g : Gen α) (i : Number) : Except Fault α :=
  match g with
  | single x => .ok x
  | indexed f => f i

def isSingle : Gen α → Bool
  | single _ => true
  | indexed _ => false

@[simp] theorem cell_single (x : α) (i : Number) : (single x).cell i = .ok x := rfl

@[simp] theorem cell_indexed (f : Number → Except Fault α) (i : Number) :
    (indexed f).cell i = f i := rfl

end Gen

/-- An array at hand: its cells row by row, and a fill that matters when it has none. -/
structure Grid (α : Type) where
  shape : Shape
  items : List α
  fill : Option α

/-- How an array came about: the name of the operation, and what it is made from by name. An array
that is made as a whole also shows its content. -/
structure Form (α : Type) where
  name : String
  details : List (String × Lazy α)
  isWhole : Bool
  /-- The links of an array that could be an index transform but amends cells. -/
  chain : Option (Lazy (List Link × String))

/-- What every array answers. -/
structure Facts (α : Type) where
  shape : Lazy Extents
  etype : Lazy EType
  prototype : Demand → Except Fault α
  generator : Demand → Except Fault (Gen α)
  form : Form α

/-- The array at the bottom of a view. -/
inductive Root (α : Type)
  | concrete (g : Grid α)
  | computed (f : Facts α)

/-- A list of whole numbers that an index transform was given, with its shape. Neither is looked at
before it is needed. -/
structure IntArgument where
  shape : Lazy Extents
  ints : Lazy (List Int)

/-- The ways to say a new shape. -/
inductive Recast
  | reshape
  | ravel
  | table
  deriving DecidableEq, Repr

/-- The ways to say a section. -/
inductive Cut
  | general
  | take
  | drop
  deriving DecidableEq, Repr

/-- An index transform: each cell of its result is a cell of its source or a fill. -/
inductive Step
  /-- The cells in another shape, cycled or cut off. -/
  | reshape (style : Recast) (dims : Shape)
  /-- A span of each axis. -/
  | cut (style : Cut) (drop : Bool) (counts : List Int) (axes : Option (List Int))
  /-- The axes in another order, or reversed; an axis named twice is a diagonal. -/
  | permute (axes : Option (List Number))
  /-- A rotation along an axis, or its reversal. -/
  | rotate (amount : Option IntArgument) (axis : Option AxisArgument) (first : Bool)
      (origin : Origin)
  /-- Each cell along an axis repeated, left out or replaced by fills, as far as there is room. -/
  | compress (degrees : List Int) (isScalar : Bool) (axis : Option AxisArgument) (first : Bool)
      (origin : Origin) (room : Room)
  /-- Evenly spaced cells, by the place of the first one and by extent and step of each axis. -/
  | window (offset : Scalar) (dims : List (Number × Number))
  /-- The cells at given indices along each axis. -/
  | select (indices : List (Option IntArgument)) (origin : Origin)

/-- A root array under a tower of index transforms, the outermost first. -/
structure View (α : Type) where
  root : Root α
  steps : List Step

/-- What a cell holds. -/
inductive Item
  | scalar (s : Scalar)
  /-- A list that is not an array; it becomes one when it is made into a view. -/
  | list (xs : List Item)
  | array (g : Grid Item)
  | view (v : View Item)

namespace Item

abbrev int (n : Int) : Item := scalar (.int n)

abbrev real (x : Float) : Item := scalar (.real x)

abbrev text (s : String) : Item := scalar (.text s)

abbrev truth (b : Bool) : Item := scalar (.truth b)

abbrev nothing : Item := scalar .nothing

abbrev blank : Item := text " "

abbrev ints (ns : List Int) : Item := list (ns.map int)

def ofNumber (x : Number) : Item := scalar x.scalar

def ofNumbers (xs : List Number) : Item := list (xs.map ofNumber)

@[simp] theorem ofNumber_int (n : Int) : ofNumber (.int n) = int n := rfl

end Item
end LazyApl
