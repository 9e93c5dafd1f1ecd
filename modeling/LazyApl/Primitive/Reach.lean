import LazyApl.Primitive.Amend
import LazyApl.Text.Digits
/-!
# Reaching into nested arrays

Pick follows a path, one coordinate vector per level of nesting, to an item inside an array. With a
change it gives the whole array with a new item there: only the items along the path are built anew,
each by a pick of its own with the rest of the path.
-/

namespace LazyApl

/-- A path into nested arrays, with one coordinate vector per level. -/
abbrev Path := List (List Int)

namespace Path

/-- A value as a coordinate, cut off towards zero. -/
def coordinate : Item → Except Fault Int
  | .scalar (.text s) =>
    match Digits.whole? s with
    | some n => .ok n
    | none => .error .badValue
  | .scalar s =>
    match s.number? with
    | some (.int n) => .ok n
    | some (.real x) => if x < 0 then Number.wholeAbove x else Number.wholeBelow x
    | _ => .error .operandType
  | _ => .error .operandType

def step : Item → Except Fault (List Int)
  | .list xs => xs.mapM coordinate
  | x => x.asInts "pick path"

/-- A path, given as a list of steps or as an array of them; a simple scalar is one step. -/
def of (path : Item) : Except Fault Path :=
  match path with
  | .list steps => steps.mapM step
  | _ => do
    let p := path.lift
    let isStep ← do
      if (← p.rank) = 0 then
        let cell ← p.cell 0
        pure !(← cell.isArray)
      else pure false
    if isStep then return [← step (.view p)]
    else (← (Item.view p).items).mapM step

/-- Whether coordinates counted from zero lie within a shape. -/
def areWithin : List Number → Extents → Except Fault Bool
  | x :: xs, n :: ns => do if ← Selection.isWithin n x then areWithin xs ns else return false
  | _, _ => .ok true

/-- The position that a step names in an item, at a level of nesting. -/
def offset (node : Item) (step : List Int) (level : Nat) (origin : Origin) :
    Except Fault Number := do
  let shape ← node.shapeOf
  if !(← node.isArray) then .error (.index (.pickTooDeep level))
  else if step.length ≠ shape.length then .error (.rank (.pickStep level step.length shape.length))
  else
    let c ← step.mapM origin.strip
    if ← areWithin c shape then shape.position c
    else .error (.index (.pickOutOfRange level))

def target (origin : Origin) : Nat → Path → Item → Except Fault Item
  | _, [], node => .ok node
  | level, step :: rest, node => do
    let at' ← offset node step level origin
    target origin (level + 1) rest (← node.elementAt at')

end Path

/-- What a pick puts at the end of its path: an item, what a function makes of the old item, or what
a function makes of the old item and a given one. -/
structure Replacement where
  item : Option Item
  function : Option CellFunction

namespace Replacement

/-- The item as it is stored: arrays, lists and text that is no character become views. -/
def placed : Item → Item
  | .scalar (.text s) => if s.length = 1 then .text s else .view (Item.text s).lift
  | .scalar s => .scalar s
  | x => .view x.lift

def apply (r : Replacement) (old : Item) : Except Fault Item :=
  match r.function, r.item with
  | none, some new => .ok (placed new)
  | none, none => .ok old
  | some f, none => do return placed (← f [← old.settle])
  | some f, some new => do
    let a ← old.settle
    return placed (← f [a, ← new.settle])

end Replacement

namespace Item

def pickAlong (base : View Item) (path : Path) (origin : Origin) : View Item :=
  let target : Lazy Item := Lazy.keep fun _ => Path.target origin 0 path (view base)
  View.computed
    { shape := .delay fun _ => do (← target.get).shapeOf
      etype := .delay fun _ => do (← target.get).etypeOf
      prototype := fun _ => do (← target.get).prototypeOf
      generator := fun _ => do (← target.get).generatorOf
      form := ⟨"Pick", [], false, none⟩ }

/-- The whole array with the item at the end of a path replaced. -/
def replaceAlong (change : Replacement) (origin : Origin) : Path → View Item → View Item
  | [], base =>
    let whole : Lazy Item := Lazy.keep fun _ => change.apply (view base)
    View.computed
      { shape := .delay fun _ => do (← whole.get).shapeOf
        etype := Lazy.pure EType.mixed
        prototype := fun _ => base.prototype
        generator := fun _ => do (← whole.get).generatorOf
        form := ⟨"Pick", [], false, none⟩ }
  | step :: rest, base =>
    View.computed
      { shape := .delay fun _ => base.shape
        etype := Lazy.pure EType.mixed
        prototype := fun _ => base.prototype
        generator := fun _ => do
          let _ ← Path.target origin 0 (step :: rest) (view base)
          let cells ← base.generator
          let place ← Path.offset (view base) step 0 origin
          return .indexed fun i => do
            let old ← cells.cell i
            if !i.eq place then return old
            else if rest.isEmpty then change.apply old
            else return view (replaceAlong change origin rest old.lift)
        form := ⟨"Pick", [], false, none⟩ }

/-- What a pick shows of itself. -/
def pickDetails (base node : Item) (steps : Path) (change : Replacement) (origin : Origin) :
    List (String × Lazy Item) :=
  let isChange := change.item.isSome || change.function.isSome
  [("base", Lazy.pure base.based.shown), ("path", Lazy.pure (list (steps.map ints))),
    ("assign", Lazy.pure (change.item.getD nothing)), ("io", Lazy.pure (scalar origin)),
    ("assigning", Lazy.pure (truth isChange)),
    ("target", .delay fun _ => Path.target origin 0 steps node),
    ("whole", .delay fun _ => if isChange then change.apply node else return nothing)]
    ++ Amend.functionDetails change.function

/-- The item at the end of a path, or the whole array with that item replaced. -/
def pick (base path : Item) (change : Replacement) (origin : Origin) :
    Except Fault (View Item) := do
  let steps ← Path.of path
  let details := pickDetails base (view base.lift) steps change origin
  if change.item.isNone && change.function.isNone then
    return (pickAlong base.lift steps origin).showing details
  else
    let changed := replaceAlong change origin steps base.lift
    match base, steps, changed.root with
    | scalar .nothing, _ :: _, .computed f =>
      -- nothing has no shape of its own to keep
      return (View.computed { f with shape := ⟨fun _ => .error .noSuchField⟩ }).showing details
    | _, _, _ => return changed.showing details

/-- The first item; an empty array gives its fill. -/
def first (base : Item) : View Item :=
  let v := base.based
  let target : Lazy Item := Lazy.keep fun _ => do
    if (← v.size).isZero then v.prototype else v.cell 0
  View.computed
    { shape := .delay fun _ => do (← target.get).shapeOf
      etype := .delay fun _ => do (← target.get).etypeOf
      prototype := fun _ => do (← target.get).fillOf
      generator := fun _ => do (← target.get).generatorOf
      form := ⟨"First", [("base", Lazy.pure v.shown), ("target", target)], false, none⟩ }

end Item
end LazyApl
