import LazyApl.Tower
/-!
# Rendering

A view is rendered by computing its cells; a cell that is itself a view is rendered on its own and
stored as one item. The recursion follows the items that the root of a view hands out, whatever the
tower above it does with them.
-/

namespace LazyApl

namespace Item

mutual

/-- The item with no view left in it: views rendered, simple scalars out of their boxes. -/
def settle : Item → Except Fault Item
  | .view v => settleView v
  | x => .ok x

/-- A view, rendered. An array at hand under no transform stays as it is. -/
def settleView : View Item → Except Fault Item
  | ⟨.concrete g, []⟩ => .ok g.unboxed
  | ⟨r, steps⟩ => do
    let g ← Tower.collect (Tower.facts (fun x => .ok x.typify) (settledRoot r) steps)
    return g.unboxed

/-- A root whose cells are settled when they are handed out. -/
def settledRoot : Root Item → Facts Item
  | .concrete g => settledGrid g
  | .computed f => settledFacts f

/-- An array at hand whose cells are settled when they are handed out. -/
def settledGrid : Grid Item → Facts Item
  | ⟨shape, items, fill⟩ =>
    let cells := settledNth items
    let length := items.length
    let cell : Number → Except Fault Item := fun i => do
      match placeIn length (← i.index) with
      | some k => cells k
      | none => .error .offEnd
    let only : Lazy Item := Lazy.keep fun _ => cells 0
    let gen : Demand → Except Fault (Gen Item) := fun _ =>
      if !shape.isEmpty then .ok (.indexed cell)
      else if items.isEmpty then .error .offEnd
      else .ok (.indexed fun _ => only.get)
    { Grid.facts ⟨shape, items, fill⟩ with generator := gen }

def settledFacts : Facts Item → Facts Item
  | ⟨shape, etype, prototype, generator, form⟩ =>
    ⟨shape, etype, prototype, fun d => settledGen (generator d), form⟩

def settledNth : List Item → Nat → Except Fault Item
  | [], _ => .error .offEnd
  | x :: _, 0 => x.settle
  | _ :: xs, k + 1 => settledNth xs k

def settledGen : Except Fault (Gen Item) → Except Fault (Gen Item)
  | .error e => .error e
  | .ok g => .ok (settledCells g)

def settledCells : Gen Item → Gen Item
  | .single x =>
    let only : Lazy Item := Lazy.keep fun _ => x.settle
    .indexed fun _ => only.get
  | .indexed f => .indexed fun i => settledCell (f i)

def settledCell : Except Fault Item → Except Fault Item
  | .error e => .error e
  | .ok x => x.settle

end

def fillOf (x : Item) : Except Fault Item := typify <$> x.settle

end Item

namespace Root

def facts : Root Item → Facts Item
  | concrete g => g.facts
  | computed f => f

end Root

namespace View

def facts (v : View Item) : Facts Item := Tower.facts Item.fillOf v.root.facts v.steps

end View

namespace Item

mutual

/-- Whether an item is an array rather than a simple scalar. A view of no axes is one if its only
cell is. -/
def isArray : Item → Except Fault Bool
  | .view v => isArrayView v
  | .array g => .ok !isBox g
  | _ => .ok false

/-- Whether a view is an array. -/
def isArrayView : View Item → Except Fault Bool
  | ⟨r, steps⟩ => do
    let facts := Tower.facts fillOf r.facts steps
    let shape ← facts.shape.get
    if !shape.isEmpty then return true
    else
      match steps with
      | [] => (← arrayCells r) 0
      | _ => do
        let chain ← (Level.ofSteps fillOf r.facts steps).stage.chain.get
        let cells ← arrayCells r
        match ← Link.compose chain 0 with
        | some j => cells j
        | none => do
          match ← facts.prototype .now with
          | .array g => return !isBox g
          | _ => return false

def arrayCells : Root Item → Except Fault (Number → Except Fault Bool)
  | .concrete g => arrayGrid g
  | .computed f => arrayFacts f

/-- For each cell of an array at hand, whether it is an array. -/
def arrayGrid : Grid Item → Except Fault (Number → Except Fault Bool)
  | ⟨shape, items, _⟩ =>
    let cells := arrayNth items
    let length := items.length
    if shape.isEmpty then (if items.isEmpty then .error .offEnd else .ok fun _ => cells 0)
    else .ok fun i => do
      match placeIn length (← i.index) with
      | some k => cells k
      | none => .error .offEnd

/-- For each cell of a computed array, whether it is an array. -/
def arrayFacts : Facts Item → Except Fault (Number → Except Fault Bool)
  | ⟨_, _, _, generator, _⟩ => arrayGen (generator .now)

/-- Whether the item at a position of a list is an array. -/
def arrayNth : List Item → Nat → Except Fault Bool
  | [], _ => .error .offEnd
  | x :: _, 0 => x.isArray
  | _ :: xs, k + 1 => arrayNth xs k

/-- For each cell, if there are any, whether it is an array. -/
def arrayGen : Except Fault (Gen Item) → Except Fault (Number → Except Fault Bool)
  | .error e => .error e
  | .ok g => .ok (arrayIndexed g)

def arrayIndexed : Gen Item → Number → Except Fault Bool
  | .single x => fun _ => x.isArray
  | .indexed f => fun i => arrayCell (f i)

def arrayCell : Except Fault Item → Except Fault Bool
  | .error e => .error e
  | .ok x => x.isArray

end

mutual

/-- A list as cells of an array: lists become vectors, and truth values whole numbers. -/
def vectorOf : Item → Item
  | list xs => array (Grid.ofList (vectorsOf xs))
  | x => x.counted

def vectorsOf : List Item → List Item
  | [] => []
  | x :: xs => vectorOf x :: vectorsOf xs

end

def ofGrid (g : Grid Item) : Item := .view ⟨.concrete g, []⟩

/-- Any item as a view: arrays as they are, lists as vectors, text as characters, and simple values
as scalar arrays. -/
def lift (x : Item) : View Item :=
  match x with
  | view v => v
  | array g => ⟨.concrete g, []⟩
  | _ =>
    match x.vectorOf with
    | array g => ⟨.concrete g, []⟩
    | scalar (.text s) =>
      if s.length = 1 then ⟨.concrete (Grid.ofScalar (text s)), []⟩
      else ⟨.concrete (Grid.ofText s), []⟩
    | y => ⟨.concrete (Grid.ofScalar y), []⟩

def shapeOf : Item → Except Fault Extents
  | view v => v.facts.shape.get
  | array g => .ok (.ofShape g.shape)
  | _ => .ok []

def rankOf (x : Item) : Except Fault Int := return (← x.shapeOf).length

def sizeOf (x : Item) : Except Fault Number := do (← x.shapeOf).size

def etypeOf : Item → Except Fault EType
  | view v => v.facts.etype.get
  | array g => .ok g.etype
  | x => .ok x.etype

def prototypeOf : Item → Except Fault Item
  | view v => v.facts.prototype .now
  | array g => .ok g.prototype
  | x => .ok x.typify

def generatorOf : Item → Except Fault (Gen Item)
  | view v => v.facts.generator .now
  | array g => g.generator
  | x => .ok (.single x)

def elementAt (x : Item) (i : Number) : Except Fault Item :=
  match x with
  | view v => do (← v.facts.generator .now).cell i
  | array g => pickBy g.items i
  | x => .ok x

def items (x : Item) : Except Fault (List Item) := do
  let x := match x with
    | view _ | array _ => x
    | _ => view x.lift
  let cells ← x.generatorOf
  (upTo (← (← x.shapeOf).count)).mapM fun (i : Int) => do (← cells.cell i).settle

/-- A rendered cell as a whole number, if it is one by value. -/
def asWhole (role : String) : Item → Except Fault Int
  | array _ => .error (.domain (.notSimple role))
  | scalar (.int n) => .ok n
  | scalar (.real x) =>
    match Double.toInt? x with
    | some n => .ok n
    | none => .error (.domain (.notInteger role))
  | _ => .error (.domain (.notInteger role))

def asInts (x : Item) (role : String) : Except Fault (List Int) := do
  (← x.items).mapM (asWhole role)

def asInt (x : Item) (role : String) : Except Fault Int := do
  match ← x.asInts role with
  | [n] => return n
  | _ => .error (.length (.notSingle role) [← (view x.lift).shapeOf])

def render (x : Item) : Except Fault Item :=
  match x with
  | view ⟨.concrete g, []⟩ => .ok (array g)
  | view v =>
    array <$> Tower.collect (Tower.facts (fun y => .ok y.typify) (settledRoot v.root) v.steps)
  | array g => .ok (array g)
  | x => .ok (array (Grid.ofScalar x))

/-- The array with its cells at hand, or the simple value in it. -/
def subrender (x : Item) : Except Fault Item :=
  match x with
  | view _ => x.settle
  | array g => .ok g.unboxed
  | x => .ok x

def asArgument (x : Item) (role : String) : IntArgument :=
  ⟨.delay fun _ => (view x.lift).shapeOf, Lazy.keep fun _ => x.asInts role⟩

end Item
end LazyApl
