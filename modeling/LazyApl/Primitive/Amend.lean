import LazyApl.Primitive.Nest
/-!
# Amended arrays

Assignment yields the whole array with some cells replaced: those that a selection names, or those
that a Boolean mask marks. A cell is replaced by a given value, or by what a function makes of the
old cell and perhaps of a given value. A single value goes to all cells; otherwise there is one
value for each cell of the selection.
-/

namespace LazyApl

abbrev CellFunction := List Item → Except Fault Item

/-- What goes into the amended cells: values, a function, or both. -/
structure Change where
  values : Option (View Item)
  function : Option CellFunction

namespace Amend

def isSingle (values : View Item) : Except Fault Bool := do
  if (← values.size).isOne then return (← values.rank) ≤ 1 else return false

/-- Values have to be a single one or have the shape of the cells that they go to. -/
def checkFit (values : View Item) (shape : Extents) : Except Fault Unit := do
  if ← isSingle values then return ()
  else
    let s ← values.shape
    let areAsMany := (← s.size).eq (← shape.size)
    if s.eq shape || (areAsMany && s.length == 1 && shape.length == 1) then return ()
    else .error (.length .unfitValues [s, shape])

/-- The value for each cell of a selection. -/
def assignment (values : View Item) (shape : Extents) :
    Except Fault (Int → Except Fault Item) := do
  if ← isSingle values then
    let only ← values.cell 0
    return fun _ => .ok only
  else
    checkFit values shape
    let count ← values.count
    let cells ← if count ≤ 0 then pure [] else Item.unrendered values
    return fun j => pickAt cells j

/-- The amended cell at a position, if the position is amended. -/
def cell (old : Gen Item) (targets : List (Number × Int))
    (values : Option (Int → Except Fault Item)) (function : Option CellFunction) (i : Number) :
    Except Fault Item := do
  let before ← old.cell i
  match Selection.find? i targets, function, values with
  | none, _, _ => return before
  | some j, none, some values => values j
  | some _, none, none => return before
  | some j, some f, some values =>
    let a ← before.settle
    let b ← (← values j).settle
    f [a, b]
  | some _, some f, none => f [← before.settle]

/-- The element type of amended cells: anything if a function makes them. -/
def etype (base : View Item) (change : Change) : Except Fault EType := do
  match change.function, change.values with
  | some _, _ => return EType.mixed
  | none, some values => return (← base.etype).join (← values.etype)
  | none, none => base.etype

/-- Keyed positions as an item, in the order of the keys. -/
def pairs (ps : List (Number × Int)) : Item :=
  .list ((ps.mergeSort fun a b => (a.1.le b.1).toOption.getD true).map fun (a, b) =>
    .ofNumbers [a, b])

/-- Whether there is no function, which is all that can be shown of one. -/
def functionDetails (function : Option CellFunction) : List (String × Lazy Item) :=
  if function.isNone then [("fn", Lazy.pure .nothing)] else []

end Amend

namespace Item

/-- The array with the selected cells amended. -/
def amend (base : Item) (indices : List (Option Item)) (change : Change) (origin : Origin) :
    Except Fault (View Item) := do
  let v := base.based
  let arguments ← indexed v indices
  let selected : Lazy Extents := Lazy.keep fun _ => do Selection.shape (← v.shape) arguments
  let targets : Lazy (List (Number × Int)) := Lazy.keep fun _ => do
    Selection.targets (← v.shape) arguments origin
  let shape : Lazy Extents := Lazy.keep fun _ => do
    match change.values with
    | some values => Amend.checkFit values (← selected.get)
    | none => pure ()
    v.shape
  let chain : Lazy (List Link × String) := .delay fun _ => do
    let (below, root) ← v.chain
    let out ← shape.get
    let source ← v.shape
    let own ← Selection.link arguments origin source
    return (⟨own.map, out, source⟩ :: below, root)
  return View.computed
    { shape := shape
      etype := .delay fun _ => Amend.etype v change
      prototype := fun _ => v.prototype
      generator := fun _ => do
        let s ← selected.get
        let values ← change.values.mapM fun values => Amend.assignment values s
        let cells ← v.generator
        return .indexed (Amend.cell cells (← targets.get) values change.function)
      form := ⟨"Select",
        [("base", Lazy.pure (view v)), ("source", Lazy.pure (view v)),
          ("foldable", Lazy.pure (truth false)),
          ("indices", Lazy.pure (list (indices.map fun y => y.elim nothing fun y => view y.lift))),
          ("assign", Lazy.pure (change.values.elim nothing view)),
          ("io", Lazy.pure (scalar origin)),
          ("selection_shape", .delay fun _ => do return ofNumbers (← selected.get)),
          ("targets", .delay fun _ => do return Amend.pairs (← targets.get))]
          ++ Amend.functionDetails change.function, false, some chain⟩ }

variable [Platform]

/-- The cells packed as bits; cells that are not of a Boolean array are refused. -/
def packed (x : Item) (refusal : DomainCause) : Except Fault Platform.bitLists.Packed :=
  match x.items >>= Platform.bitLists.pack with
  | .error .operandType | .error .badValue | .error .unsettled => .error (.domain refusal)
  | result => result

/-- The positions of the ones, as they are found among packed bits. -/
def onesIn (bits : Platform.bitLists.Packed) : Except Fault (List Int) := do
  return Platform.bitLists.search bits (← Platform.bitLists.pack [truth true])

/-- The array with the cells that a mask marks amended; values fill them in order. -/
def amendMasked (base mask values : Item) (function : Option CellFunction) : View Item :=
  let v := base.based
  let mask := mask.lift
  let values := values.lift
  let shape : Lazy Extents := Lazy.keep fun _ => do
    let marked ← mask.shape
    let s ← v.shape
    if marked.eq s then return s else .error (.length .maskShape [marked, s])
  let slots : Lazy (List (Number × Int)) := Lazy.keep fun _ => do
    let ones ← onesIn (← (view mask).packed .notBooleanMask)
    return (ones.map Number.int).zip (upTo ones.length)
  View.computed
    { shape := shape
      etype := .delay fun _ => Amend.etype v ⟨some values, function⟩
      prototype := fun _ => v.prototype
      generator := fun _ => do
        let _ ← shape.get
        let slots ← slots.get
        let value ← Amend.assignment values [(slots.length : Number)]
        return .indexed (Amend.cell (← v.generator) slots (some value) function)
      form := ⟨"MaskAssign",
        [("base", Lazy.pure v.shown), ("mask", Lazy.pure (view mask)),
          ("values", Lazy.pure (view values)),
          ("slots", .delay fun _ => do return Amend.pairs (← slots.get))]
          ++ Amend.functionDetails function, false, none⟩ }

end Item
end LazyApl
