import LazyApl.Transform
import LazyApl.Grid
/-!
# The text of items

How values and arrays are written: arrays by a letter for their rank (`S`, `V`, `A`), their shape
and their cells as a list; views by the name of the operation that made them, and arrays at hand
that stand as views with the array itself.
-/

namespace LazyApl

def bracketed (texts : List String) : String := "[" ++ ", ".intercalate texts ++ "]"

namespace Item

/-- An array as it is written, from the texts of its cells. -/
def writtenArray (shape : Shape) (cells : List String) : String :=
  let extents := bracketed (shape.map toString)
  match shape with
  | [] => "S(" ++ bracketed cells ++ ")"
  | [_] => "V(" ++ extents ++ ", " ++ bracketed cells ++ ")"
  | _ => "A(" ++ extents ++ ", " ++ bracketed cells ++ ")"

mutual

def written : Item → String
  | scalar s => s.written
  | list xs => bracketed (writtenAll xs)
  | array g => writtenGrid g
  | view v => writtenView v

def writtenAll : List Item → List String
  | [] => []
  | x :: xs => written x :: writtenAll xs

def writtenGrid : Grid Item → String
  | ⟨shape, items, _⟩ => writtenArray shape (writtenAll items)

def writtenView : View Item → String
  | ⟨_, s :: _⟩ => s.name ++ "()"
  | ⟨r, []⟩ => writtenRoot r

def writtenRoot : Root Item → String
  | .concrete g => "Literal(" ++ writtenGrid g ++ ")"
  | .computed f => f.form.name ++ "()"

end

/-- An item as it stands in a message: text without quotes. -/
def display : Item → String
  | scalar s => s.display
  | x => written x

def asAxis : Item → AxisArgument
  | scalar (.int n) => .whole n
  | scalar s => .other s
  | x => .other (.text x.display)

end Item

def axisArgument : Option Item → Option AxisArgument
  | some (.scalar .nothing) | none => none
  | some x => some x.asAxis

end LazyApl
