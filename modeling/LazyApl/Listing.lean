import LazyApl.Grid
/-!
# Lists and arrays

A list of items becomes an array by being given a shape, and an array becomes lists within lists,
one level for each axis and further levels for the arrays in its cells.
-/

namespace LazyApl
namespace Item

def sequence : Item → Except Fault (List Item)
  | list xs => .ok xs
  | scalar (.text s) => .ok (s.toList.map fun c => text (String.ofList [c]))
  | _ => .error .operandType

/-- A vector of the members of a list. The vector of a text has a blank as its fill. -/
def toVector : Item → Except Fault Item
  | scalar (.text s) => .ok (characters s)
  | x => do return array (Grid.ofList (← x.sequence))

def toShape (shape : Shape) (x : Item) : Except Fault Item := do
  return array (Grid.of shape (← x.sequence) none)

/-- Cells in rows, with one level of lists for each axis. -/
def rows : Shape → List Item → Except Fault Item
  | [], [] => .error .offEnd
  | [], x :: _ => .ok x
  | n :: s, cells => do
    let step := (Shape.size s).toNat
    return list (← (upTo n).mapM fun i => rows s ((cells.drop (i.toNat * step)).take step))

mutual

/-- An array as lists within lists; other items as they are. -/
def unraveled : Item → Except Fault Item
  | array ⟨shape, items, _⟩ => do rows shape (← unraveledAll items)
  | x => .ok x

def unraveledAll : List Item → Except Fault (List Item)
  | [] => .ok []
  | x :: xs => do
    let y ← unraveled x
    let ys ← unraveledAll xs
    return y :: ys

end

end Item
end LazyApl
