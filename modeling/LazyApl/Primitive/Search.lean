import LazyApl.Arithmetic
import LazyApl.Primitive.Amend
/-!
# Searching

Membership, occurrences of a pattern, positions, and the set functions on vectors. Items are equal
when they are the same text, numbers within the comparison tolerance, or arrays of one shape with
equal cells. A lookup finds the first of its items that is equal to a probe; while all of its items
are whole numbers or text it keeps a table of them, since tolerance makes no difference there.
-/

namespace LazyApl

/-- How far apart numbers may be to count as equal, relative to the larger. It is kept as it was
given, and matters only where two numbers differ. -/
abbrev Tolerance := Item

/-- A value that is compared exactly, whatever the tolerance. -/
inductive Exact
  | whole (n : Int)
  | text (s : String)
  deriving DecidableEq, Repr

def defaultTolerance : Tolerance := .real (Float.ofScientific 1 true 14)

variable [Platform]

namespace Scalar

/-- Equality within a tolerance. Two whole numbers are equal only if they are the same. -/
def near (ct : Tolerance) (a b : Scalar) : Except Fault Bool := do
  match a, b with
  | text s, text t => return s == t
  | text _, _ | _, text _ => return false
  | _, _ =>
    if a.eq b then return true
    else
      match a, b with
      | int _, int _ => return false
      | _, _ => do
        let x ← a.number
        let y ← b.number
        let distance ← (← x.sub y).abs
        let size ← (← x.abs).greater (← y.abs)
        distance.le (← (← ct.mul (Item.ofNumber size)).number)

end Scalar

namespace Item

mutual

/-- Equality of items within a tolerance. -/
def near (ct : Tolerance) : Item → Item → Except Fault Bool
  | array ⟨s, xs, _⟩, array ⟨t, ys, _⟩ => if s == t then nearAll ct xs ys else .ok false
  | array _, _ => .ok false
  | _, array _ => .ok false
  | scalar a, scalar b => Scalar.near ct a b
  | list xs, list ys => do
    if ← same (list xs) (list ys) then return true else .error .operandType
  | scalar (.text _), _ => .ok false
  | _, scalar (.text _) => .ok false
  | _, _ => .error .operandType

/-- Equality of lists of items within a tolerance, as far as both go. -/
def nearAll (ct : Tolerance) : List Item → List Item → Except Fault Bool
  | x :: xs, y :: ys => do if ← near ct x y then nearAll ct xs ys else return false
  | _, _ => .ok true

end

def members (x : Item) (role : String) : Except Fault (List Item) := do
  if 1 < (← x.lift.rank) then .error (.rank (.scalarOrVector role)) else x.items

/-- The value of an item that is compared exactly: a whole number or text. -/
def exactValue : Item → Option Exact
  | scalar (.int n) => some (.whole n)
  | scalar (.text s) => some (.text s)
  | _ => none

end Item

/-- A list of items to be searched for the first one equal to a probe, with the first position of
each whole number and of each text in a table. -/
structure Lookup where
  values : List Item
  tolerance : Tolerance
  first : List (Exact × Int)
  /-- Whether some item is neither a whole number nor text, so that probes have to be compared
  within the tolerance. -/
  isInexact : Bool

namespace Lookup

/-- A lookup with one more item at the end. A value that is in the table stays where it is. -/
def add (l : Lookup) (x : Item) : Lookup :=
  let values := l.values ++ [x]
  match x.exactValue with
  | none => { l with values := values, isInexact := true }
  | some e =>
    if (l.first.lookup e).isSome then { l with values := values }
    else { l with values := values, first := (e, (l.values.length : Int)) :: l.first }

def ofList (values : List Item) (ct : Tolerance) : Lookup := values.foldl add ⟨[], ct, [], false⟩

/-- The first position of an item that satisfies a test. -/
def firstWhere (test : Item → Except Fault Bool) (i : Int) : List Item → Except Fault (Option Int)
  | [] => .ok none
  | v :: vs => do if ← test v then return some i else firstWhere test (i + 1) vs

/-- The first position of an item equal to a probe: from the table while the table has all items,
and otherwise by comparing one after the other. -/
def find (l : Lookup) (probe : Item) : Except Fault (Option Int) :=
  match probe.exactValue, l.isInexact with
  | some e, false => .ok (l.first.lookup e)
  | _, _ => firstWhere (Item.near l.tolerance probe) 0 l.values

def has (l : Lookup) (probe : Item) : Except Fault Bool := return (← l.find probe).isSome

end Lookup

namespace View

/-- An array made as a whole: its content is computed when the first cell is asked for. -/
def whole (name : String) (content : Lazy (List Item)) (shape : Lazy Extents) (etype : Lazy EType)
    (prototype : Lazy Item) (details : List (String × Lazy Item)) : View Item :=
  computed
    { shape := shape
      etype := etype
      prototype := prototype.run
      generator := fun _ => do
        let cells := (← content.get).toArray
        return .indexed (pickFrom cells)
      form := ⟨name, details, true, none⟩ }

end View

namespace Item

def ofBool (b : Bool) : Item := int (if b then 1 else 0)

def lengthOf (content : Lazy (List Item)) : Lazy Extents := .delay fun _ => do
  return [((← content.get).length : Number)]

/-- The shape of one of two operands that may only be scalars or vectors. -/
def flatShape (left right result : View Item) (refusal : RankCause) :
    Lazy Extents :=
  .delay fun _ => do
    if 1 < (← left.rank) then .error (.rank refusal)
    else if 1 < (← right.rank) then .error (.rank refusal)
    else result.shape

/-- What a search shows of itself: its operands and its tolerance. -/
def searchDetails (left right : View Item) (ct : Tolerance) : List (String × Lazy Item) :=
  [("left", Lazy.pure (view left)), ("right", Lazy.pure (view right)), ("ct", Lazy.pure ct)]

def keepWhere (test : Item → Except Fault Bool) : List Item → Except Fault (List Item)
  | [] => .ok []
  | x :: xs => do
    let keep ← test x
    let rest ← keepWhere test xs
    return if keep then x :: rest else rest

def membership (left right : Item) (ct : Tolerance) : View Item :=
  let a := left.lift
  let b := right.lift
  View.whole "Membership"
    (.delay fun _ => do
      let found := Lookup.ofList (← (view b).members "argument") ct
      (← (view a).members "argument").mapM fun x => do return ofBool (← found.has x))
    (flatShape a b a .membership) (Lazy.pure EType.bit) (Lazy.pure (int 0)) (searchDetails a b ct)

def startsWith (ct : Tolerance) : List Item → List Item → Except Fault Bool
  | [], _ => .ok true
  | _, [] => .ok false
  | p :: ps, t :: ts => do if ← near ct p t then startsWith ct ps ts else return false

/-- For each position whether a pattern stands there. A pattern longer than the rest is not
compared. -/
def occurrences (ct : Tolerance) (pattern : List Item) : List Item → Except Fault (List Item)
  | [] => .ok []
  | t :: ts => do
    let here ← if (t :: ts).length < pattern.length then pure false
      else startsWith ct pattern (t :: ts)
    let rest ← occurrences ct pattern ts
    return ofBool here :: rest

def occurrencesOf (left right : Item) (ct : Tolerance) : View Item :=
  let a := left.lift
  let b := right.lift
  View.whole "Find"
    (.delay fun _ => do
      let pattern ← (view a).members "argument"
      occurrences ct pattern (← (view b).members "argument"))
    (flatShape a b b .pattern) (Lazy.pure EType.bit) (Lazy.pure (int 0)) (searchDetails a b ct)

/-- The first position in the left of each item of the right, or one past the end. -/
def indexOf (left right : Item) (origin : Origin) (ct : Tolerance) : View Item :=
  let a := left.lift
  let b := right.lift
  View.whole "IndexOf"
    (.delay fun _ => do
      let lookup := Lookup.ofList (← (view a).members "argument") ct
      (← (view b).items).mapM fun x => do
        let place := (← lookup.find x).getD lookup.values.length
        return scalar (← origin.count place))
    (.delay fun _ => do if 1 < (← a.rank) then .error (.rank .searched) else b.shape)
    (.delay fun _ => do EType.counted origin (← a.size))
    (Lazy.pure (int 0)) (("io", Lazy.pure (scalar origin)) :: searchDetails a b ct)

def intersection (left right : Item) (ct : Tolerance) : View Item :=
  let a := left.lift
  let b := right.lift
  let content : Lazy (List Item) := Lazy.keep fun _ => do
    let found := Lookup.ofList (← (view b).members "argument") ct
    keepWhere found.has (← (view a).members "argument")
  View.whole "Intersection" content (lengthOf content) (.delay fun _ => a.etype)
    (.delay fun _ => a.prototype) (searchDetails a b ct)

/-- The left, and then the items of the right that are not found in the left. -/
def union (left right : Item) (ct : Tolerance) : View Item :=
  let a := left.lift
  let b := right.lift
  let content : Lazy (List Item) := Lazy.keep fun _ => do
    let front ← (view a).members "argument"
    let found := Lookup.ofList front ct
    let others ← keepWhere (fun x => do return !(← found.has x)) (← (view b).members "argument")
    return front ++ others
  View.whole "Union" content (lengthOf content)
    (.delay fun _ => do return (← a.etype).join (← b.etype)) (.delay fun _ => a.prototype)
    (searchDetails a b ct)

/-- The items of the left that are not found in the right. -/
def without (left right : Item) (ct : Tolerance) : View Item :=
  let a := left.lift
  let b := right.lift
  let content : Lazy (List Item) := Lazy.keep fun _ => do
    let front ← (view a).members "left argument of ~"
    let found := Lookup.ofList (← (view b).items) ct
    keepWhere (fun x => do return !(← found.has x)) front
  View.whole "Without" content (lengthOf content) (.delay fun _ => a.etype)
    (.delay fun _ => a.prototype) (searchDetails a b ct)

def distinct (seen : Lookup) : List Item → Except Fault (List Item)
  | [] => .ok seen.values
  | x :: xs => do
    if ← seen.has x then distinct seen xs else distinct (seen.add x) xs

def unique (base : Item) (ct : Tolerance) : View Item :=
  let v := base.lift
  let content : Lazy (List Item) := Lazy.keep fun _ => do
    distinct (Lookup.ofList [] ct) (← (view v).members "argument")
  View.whole "Unique" content (lengthOf content) (.delay fun _ => v.etype)
    (.delay fun _ => v.prototype)
    [("base", Lazy.pure (view v)), ("ct", Lazy.pure ct)]

end Item
end LazyApl
