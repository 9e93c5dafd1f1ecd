import LazyApl.Primitive.Search
import LazyApl.Primitive.Radix
import LazyApl.Text.Written
import LazyApl.Chance.Source
/-!
# Roll and deal

The content of a random array is drawn once. Until then every question that needs it fails with what
has to be drawn, under the label of the array; after that the content is given.
-/

namespace LazyApl

abbrev Contents := Label → Option (List Scalar)

/-- The place of a random array among all expressions, its source, and what has been drawn so
far. -/
structure Chance where
  label : Label
  source : SourceRef
  contents : Contents

namespace Chance

/-- The content of a random array, if it has been drawn. -/
def content (c : Chance) : Option (List Item) :=
  (c.contents c.label).map fun xs => xs.map Item.scalar

/-- The content of a random array; if it has not been drawn, what has to be drawn for it. -/
def drawn (c : Chance) (draw : Demand → Except Fault Draw) : Lazy (List Item) := Lazy.keep fun d =>
  match c.content with
  | some xs => .ok xs
  | none => do .error (.undrawn c.label c.source (← draw d))

end Chance

namespace Item

/-- The die for an item: a positive whole number is a bound, and zero or a positive double gives a
double. -/
def die : Item → Die
  | scalar (.int n) =>
    if 0 < n then .below n else if n = 0 then .scaled 1 else .refused (toString n)
  | scalar (.real x) =>
    if x == 0 then .scaled 1 else if 0 < x then .scaled x else .refused (written (real x))
  | x => .refused x.written

def roll (base : Item) (origin : Origin) (chance : Chance) : View Item :=
  let v := base.based
  let content := chance.drawn fun _ => do
    return .roll origin ((← (view base.lift).numbers).map die)
  View.whole "Roll" content (.delay fun _ => v.shape)
    (.delay fun _ => do return (EType.joinValues none (← content.get)).getD EType.bit)
    (Lazy.pure (int 0)) [("base", Lazy.pure v.shown), ("io", Lazy.pure (scalar origin))]

/-- An argument that has to be one whole number and not negative. -/
def count (x : Item) (role : String) : Except Fault Int := do
  let n ← x.asInt role
  if n < 0 then .error (.domain (.negativeArgument role)) else return n

/-- The deck of so many cards from the origin on, of which some are to be drawn. It has to be held
as a whole, and its first card has to be a whole number. -/
def deck [Platform] (few many : Int) (origin : Origin) : Except Fault Draw := do
  let last ← (← origin.count many).number
  match origin.whole?, last with
  | some start, .int _ =>
    let _ ← Platform.room.times 1 many
    return .deal start few many
  | _, _ => .error .operandType

/-- Some distinct numbers out of the first so many. -/
def deal [Platform] (few many : Item) (origin : Origin) (chance : Chance) :
    Except Fault (View Item) := do
  let k ← count few "left argument of ?"
  let n ← count many "right argument of ?"
  if n < k then .error (.domain (.undealable k n))
  else
    return View.whole "Deal" (chance.drawn fun _ => deck k n origin) (Lazy.pure [(k : Number)])
      (.delay fun _ => EType.counted origin (.int (max (n - 1) 0))) (Lazy.pure (int 0))
      [("count", Lazy.pure (int k)), ("n", Lazy.pure (int n)), ("io", Lazy.pure (scalar origin))]

end Item
end LazyApl
