import LazyApl.Item
/-!
# Arrays at hand

An array at hand holds its cells row by row. It never holds a simple scalar in a box, nor a text
that is not a single character: on construction such a box is opened, and such a text becomes a
vector of characters.
-/

namespace LazyApl

namespace Item

def isGrid : Item → Bool
  | array _ => true
  | _ => false

/-- The characters of a text as a vector, whose fill is a blank. -/
def characters (s : String) : Item :=
  array ⟨[s.length], s.toList.map fun c => text (String.ofList [c]), some blank⟩

def isBox (g : Grid Item) : Bool :=
  match g.shape, g.items with
  | [], [x] => !x.isGrid
  | _, _ => false

def stored : Item → Item
  | scalar (.text s) => if s.length = 1 then text s else characters s
  | array g =>
    match g.shape, g.items with
    | [], [x] => if x.isGrid then array g else x
    | _, _ => array g
  | x => x

end Item

namespace Grid

def of (shape : Shape) (items : List Item) (fill : Option Item) : Grid Item :=
  ⟨shape, items.map Item.stored, fill⟩

def ofScalar (x : Item) : Grid Item := of [] [x] none

def ofList (xs : List Item) : Grid Item := of [xs.length] xs none

def ofText (s : String) : Grid Item :=
  ⟨[s.length], s.toList.map fun c => Item.text (String.ofList [c]), some Item.blank⟩

def ofInts (xs : List Int) : Grid Item := of [xs.length] (xs.map Item.int) none

variable (g : Grid Item)

def rank : Int := g.shape.length

def size : Int := Shape.size g.shape

def isNested : Bool := g.items.any Item.isGrid

/-- The array itself, or the value in it if it is a simple scalar. -/
def unboxed : Item :=
  match g.shape, g.items with
  | [], [x] => if x.isGrid then .array g else x
  | _, _ => .array g

end Grid

namespace Item

mutual

/-- The fill made from an item: numbers become 0, characters blank, arrays likewise cell by
cell. -/
def typify : Item → Item
  | array ⟨shape, items, fill⟩ =>
    array ⟨shape, typifyAll items, if items.isEmpty then some (fill.getD (int 0)) else none⟩
  | scalar (.text _) => blank
  | _ => int 0

def typifyAll : List Item → List Item
  | [] => []
  | x :: xs => (typify x).stored :: typifyAll xs

end

mutual

/-- Equality of items: numbers by value, texts letter by letter, arrays by shape and by as many
cells as the shape says. -/
def same : Item → Item → Except Fault Bool
  | scalar a, scalar b => .ok (a.eq b)
  | list xs, list ys => if xs.length = ys.length then sameAll xs ys else .ok false
  | array ⟨s, xs, _⟩, array ⟨t, ys, _⟩ =>
    if s = t then sameFirst (Shape.size s).toNat xs ys else .ok false
  | _, _ => .ok false

def sameAll : List Item → List Item → Except Fault Bool
  | [], [] => .ok true
  | x :: xs, y :: ys => do if ← same x y then sameAll xs ys else return false
  | _, _ => .ok false

/-- Equality of the first cells of two arrays; it fails at a cell that is missing. -/
def sameFirst : Nat → List Item → List Item → Except Fault Bool
  | 0, _, _ => .ok true
  | n + 1, x :: xs, y :: ys => do if ← same x y then sameFirst n xs ys else return false
  | _ + 1, _, _ => .error .offEnd

end

mutual

/-- The depth of nesting: 0 for a simple scalar, and one more than the deepest cell of an array. -/
def depth : Item → Int
  | array ⟨shape, items, fill⟩ =>
    if isBox ⟨shape, items, fill⟩ then 0 else 1 + deepest items
  | _ => 0

def deepest : List Item → Int
  | [] => 0
  | x :: xs => max (depth x) (deepest xs)

end

/-- An item as an array: itself, or a scalar holding it. -/
def enclosed : Item → Grid Item
  | array g => g
  | x => Grid.ofScalar x

/-- Structural equality, in which a simple value equals the scalar that holds it. -/
def matched (a b : Item) : Except Fault Bool := same (array a.enclosed) (array b.enclosed)

/-- A truth value as the whole number it counts as; other items as they are. -/
def counted : Item → Item
  | scalar (.truth b) => int (if b then 1 else 0)
  | x => x

/-- The element type of an item as a cell; arrays and lists are of no simple type. -/
def etype : Item → EType
  | scalar s => s.etype
  | _ => EType.mixed

end Item

namespace EType

/-- The join of the types of some items. They are gone through until one of them makes it mixed. -/
def joinValues (acc : Option EType) : List Item → Option EType
  | [] => acc
  | x :: xs =>
    let t := joinOptions acc (some x.etype)
    if t.kind = .mixed then some t else joinValues (some t) xs

theorem etype_eq_mixed {x : Item} (h : x.etype.kind = .mixed) : x.etype = mixed := by
  cases x with
  | scalar s =>
    cases s with
    | truth b => cases b <;> cases h
    | int n => rcases kind_integer n n with h' | h' <;> cases h'.symm.trans h
    | nothing => rfl
    | real _ | complex _ | text _ => cases h
  | list _ | array _ | view _ => rfl

theorem foldl_join_mixed (ts : List EType) : ts.foldl join mixed = mixed := by
  induction ts with
  | nil => rfl
  | cons t ts ih => exact ih

/-- What comes after the type has become mixed does not change it any more. -/
theorem joinValues_none (xs : List Item) : joinValues none xs = joinAll (xs.map Item.etype) := by
  have hfrom (xs : List Item) (t : EType) (ht : t.kind = .mixed → t = mixed) :
      (if t.kind = .mixed then some t else joinValues (some t) xs) =
        some ((xs.map Item.etype).foldl join t) := by
    induction xs generalizing t with
    | nil => split <;> rfl
    | cons x xs ih =>
      split
      case isTrue h => rw [ht h, foldl_join_mixed]
      case isFalse => exact ih (join t x.etype) eq_mixed_of_join
  cases xs with
  | nil => rfl
  | cons x xs => rw [List.map_cons, joinAll_cons]; exact hfrom xs x.etype etype_eq_mixed

end EType

namespace Grid

variable (g : Grid Item)

/-- The fill: made from the first cell, or the one given if there is no cell. -/
def prototype : Item :=
  match g.items with
  | [] => g.fill.getD (.int 0)
  | x :: _ => x.typify

def etype : EType :=
  if g.isNested then EType.mixed
  else
    match g.items, g.fill with
    | [], some (.scalar (.text " ")) => EType.char
    | items, _ => (EType.joinValues none items).getD EType.bit

/-- The cells, one for all positions in a scalar. A scalar has to have that one. -/
def generator : Except Fault (Gen Item) :=
  match g.shape, g.items with
  | [], x :: _ => .ok (.single x)
  | [], [] => .error .offEnd
  | _, _ => .ok (.indexed (pickBy g.items))

def facts : Facts Item where
  shape := Lazy.pure (.ofShape g.shape)
  etype := .delay fun _ => .ok g.etype
  prototype := fun _ => .ok g.prototype
  generator := fun _ => g.generator
  form := ⟨"Literal",
    [("array", Lazy.pure (.array g)), ("base", Lazy.pure Item.nothing)], false, none⟩

def depth : Int := Item.depth (.array g)

def asList : Except Fault (List Item) :=
  if 1 < g.shape.length then .error (.rank .notVector)
  else if g.items.any Item.isGrid then .error (.domain .notScalars)
  else .ok g.items

end Grid
end LazyApl
