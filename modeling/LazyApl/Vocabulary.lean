import LazyApl.Primitive.Chance
import LazyApl.Primitive.Function
import LazyApl.Primitive.Join
import LazyApl.Primitive.Matrix
import LazyApl.Primitive.Measure
import LazyApl.Primitive.Order
import LazyApl.Primitive.Pervade
import LazyApl.Primitive.Reach
import LazyApl.Primitive.Where
/-!
# The vocabulary

Each glyph names a function with a monadic form, a dyadic form, or both. A form makes an array from
its arguments under the settings of the call: the index origin, the comparison tolerance and the
source of random numbers. Nothing is computed until the array is looked at, apart from arguments
that have to be known to make it.
-/

namespace LazyApl

/-- The settings that a call is made under. -/
structure Setting where
  origin : Origin
  tolerance : Tolerance
  chance : Chance

/-- A monadic form: made from the settings, the axis and the argument. -/
abbrev MonadicForm := Setting → Option Item → Item → Except Fault (View Item)

/-- A dyadic form: made from the settings, the axis and both arguments. -/
abbrev DyadicForm := Setting → Option Item → Item → Item → Except Fault (View Item)

/-- The forms of a glyph. -/
structure Entry where
  glyph : String
  monadic : Option MonadicForm
  dyadic : Option DyadicForm

namespace Vocabulary

variable [Platform]

/-- A function of one simple value, applied cell by cell. -/
def eachOne (f : Item → Except Fault Item) (result : ResultType) : Option MonadicForm :=
  some fun _ _ x => .ok (View.pervade (CellFunction.monadic f) result [x.lift])

/-- A function of two simple values, applied cell by cell. -/
def eachTwo (f : Item → Item → Except Fault Item) (result : ResultType) : Option DyadicForm :=
  some fun _ _ a x => .ok (View.pervade (CellFunction.dyadic f) result [a.lift, x.lift])

def comparison (test : Tolerance → Item → Item → Except Fault Bool) : Option DyadicForm :=
  some fun c _ a x =>
    .ok (View.pervade (CellFunction.test (test c.tolerance)) (.fixed EType.bit) [a.lift, x.lift])

def realType : ResultType :=
  .rule fun types => if types.any (·.kind = .complex) then EType.complex else EType.float

/-- Complex if an operand is, and whole numbers otherwise. -/
def integralType : ResultType :=
  .rule fun types => if types.any (·.kind = .complex) then EType.complex else EType.unbounded

def denied (test : Tolerance → Item → Item → Except Fault Bool) (ct : Tolerance) (a b : Item) :
    Except Fault Bool := do
  return !(← test ct a b)

def noChange : Replacement := ⟨none, none⟩

/-- Functions that change shape and structure. -/
def structural : List Entry :=
  [⟨"⍴", some fun _ _ x => .ok x.shapeVector, some fun _ _ a x => x.reshape a⟩,
    ⟨",", some fun _ _ x => x.ravel, some fun c k a x => Item.catenate [a, x] k false c.origin⟩,
    ⟨"⍪", some fun _ _ x => x.table, some fun c k a x => Item.catenate [a, x] k true c.origin⟩,
    ⟨"↑", some fun _ _ x => .ok x.mix, some fun c k a x => x.take a k c.origin⟩,
    ⟨"↓", some fun c k x => x.split k c.origin, some fun c k a x => x.drop a k c.origin⟩,
    ⟨"⍉", some fun _ _ x => x.permute none (.int 0),
      some fun c _ a x => x.permute (some a) c.origin⟩,
    ⟨"⌽", some fun c k x => .ok (x.rotate none (axisArgument k) false c.origin),
      some fun c k a x => .ok (x.rotate (some a) (axisArgument k) false c.origin)⟩,
    ⟨"⊖", some fun c k x => .ok (x.rotate none (axisArgument k) true c.origin),
      some fun c k a x => .ok (x.rotate (some a) (axisArgument k) true c.origin)⟩,
    ⟨"/", none, some fun c k a x => x.replicate a (axisArgument k) false c.origin⟩,
    ⟨"⌿", none, some fun c k a x => x.replicate a (axisArgument k) true c.origin⟩,
    ⟨"⊂", some fun c k x => x.enclose k c.origin,
      some fun c k a x => x.partition .counts a k c.origin⟩,
    ⟨"⊆", none, some fun c k a x => x.partition .keys a k c.origin⟩,
    ⟨"⊃", some fun _ _ x => .ok x.first, some fun c _ a x => x.pick a noChange c.origin⟩,
    ⟨"≢", some fun _ _ x => .ok x.tally, none⟩,
    ⟨"≡", some fun _ _ x => .ok x.depthOf, none⟩,
    ⟨"⊣", some fun _ _ x => .ok x.lift, some fun _ _ a _ => .ok a.lift⟩,
    ⟨"⊢", some fun _ _ x => .ok x.lift, some fun _ _ _ x => .ok x.lift⟩]

/-- Functions that look at all of their arguments at once. -/
def whole : List Entry :=
  [⟨"⍋", some fun c _ x => .ok (x.grade none false c.origin),
      some fun c _ a x => .ok (x.grade (some a) false c.origin)⟩,
    ⟨"⍒", some fun c _ x => .ok (x.grade none true c.origin),
      some fun c _ a x => .ok (x.grade (some a) true c.origin)⟩,
    ⟨"⊤", none, some fun _ _ a x => .ok (a.encode x)⟩,
    ⟨"⊥", none, some fun _ _ a x => .ok (a.decode x)⟩,
    ⟨"⌹", some fun _ _ x => .ok x.inverse, some fun _ _ a x => .ok (a.matrixDivide x)⟩,
    ⟨"?", some fun c _ x => .ok (x.roll c.origin c.chance),
      some fun c _ a x => a.deal x c.origin c.chance⟩,
    ⟨"⍳", some fun c _ x => x.iota c.origin,
      some fun c _ a x => .ok (a.indexOf x c.origin c.tolerance)⟩,
    ⟨"∊", none, some fun c _ a x => .ok (a.membership x c.tolerance)⟩,
    ⟨"⍷", none, some fun c _ a x => .ok (a.occurrencesOf x c.tolerance)⟩,
    ⟨"∩", none, some fun c _ a x => .ok (a.intersection x c.tolerance)⟩,
    ⟨"∪", some fun c _ x => .ok (x.unique c.tolerance),
      some fun c _ a x => .ok (a.union x c.tolerance)⟩,
    ⟨"~", eachOne Item.negate (.fixed EType.bit),
      some fun c _ a x => .ok (a.without x c.tolerance)⟩,
    ⟨"⍸", some fun c _ x => .ok (x.whereOnes c.origin), none⟩]

/-- Scalar functions. -/
def scalar : List Entry :=
  [⟨"+", eachOne Item.conjugate .numeric, eachTwo Item.add .numeric⟩,
    ⟨"-", eachOne Item.neg .numeric, eachTwo Item.sub .numeric⟩,
    ⟨"×", eachOne Item.direction .numeric, eachTwo Item.mul .numeric⟩,
    ⟨"÷", eachOne Item.reciprocal realType, eachTwo Item.divide realType⟩,
    ⟨"⌈", eachOne (Item.roundedBy Number.ceiling) integralType, eachTwo Item.maximum .numeric⟩,
    ⟨"⌊", eachOne (Item.roundedBy Number.floor) integralType, eachTwo Item.minimum .numeric⟩,
    ⟨"|", eachOne Item.abs .numeric, eachTwo Item.residue .numeric⟩,
    ⟨"*", eachOne (Item.withNumber Number.exp) realType, eachTwo Item.pow .numeric⟩,
    ⟨"∨", none, eachTwo (Item.withWholes Int.gcd) .numeric⟩,
    ⟨"∧", none, eachTwo (Item.withWholes Int.lcm) .numeric⟩,
    ⟨"=", none, comparison Item.near⟩,
    ⟨"≠", none, comparison (denied Item.near)⟩,
    ⟨"<", none, comparison Item.clearlyLess⟩,
    ⟨">", none, comparison fun ct a b => Item.clearlyLess ct b a⟩,
    ⟨"≤", none, comparison (denied fun ct a b => Item.clearlyLess ct b a)⟩,
    ⟨"≥", none, comparison (denied Item.clearlyLess)⟩]

def entries : List Entry := structural ++ whole ++ scalar

def find? (glyph : String) : Option Entry := entries.find? (·.glyph == glyph)

def monadic (glyph : String) : Except Fault MonadicForm :=
  match find? glyph with
  | none => .error (.missing (.glyph glyph))
  | some e =>
    match e.monadic with
    | none => .error (.missing (.form glyph false))
    | some f => .ok f

def dyadic (glyph : String) : Except Fault DyadicForm :=
  match find? glyph with
  | none => .error (.missing (.glyph glyph))
  | some e =>
    match e.dyadic with
    | none => .error (.missing (.form glyph true))
    | some f => .ok f

end Vocabulary
end LazyApl
