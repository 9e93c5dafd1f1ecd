import LazyApl.Scalar
import LazyApl.Shape
/-!
# Extents and places of any kind

Extents, positions and coordinates are whole numbers as long as everything they are reckoned from
is whole. An origin that is a double makes doubles of them; such a position reaches a cell that is
reckoned from it, but it addresses no list. Whole extents are a shape, and everything about them is
reckoned as for a shape; this file adds the same reckoning for the other kinds of numbers.
-/

namespace LazyApl

/-- The extents of the axes of an array as they came about, outermost axis first. -/
abbrev Extents := List Number

namespace Number

def wholes? : List Number → Option (List Int)
  | [] => some []
  | int n :: xs => (wholes? xs).map (n :: ·)
  | _ :: _ => none

@[simp] theorem wholes?_map (ns : List Int) : wholes? (ns.map int) = some ns := by
  induction ns with
  | nil => rfl
  | cons n ns ih => simp [wholes?, ih]

theorem eq_map_of_wholes? {xs : List Number} {ns : List Int} (h : wholes? xs = some ns) :
    xs = ns.map int := by
  induction xs generalizing ns with
  | nil => simp_all [wholes?]
  | cons x xs ih =>
    cases x with
    | int n =>
      simp only [wholes?, Option.map_eq_some_iff] at h
      obtain ⟨ms, hm, rfl⟩ := h
      simp [ih hm]
    | _ => simp [wholes?] at h

def allEq : List Number → List Number → Bool
  | [], [] => true
  | x :: xs, y :: ys => x.eq y && allEq xs ys
  | _, _ => false

@[simp] theorem allEq_map (ms ns : List Int) : allEq (ms.map int) (ns.map int) = (ms == ns) := by
  induction ms generalizing ns with
  | nil => cases ns <;> rfl
  | cons m ms ih => cases ns <;> simp [allEq, ih]

/-- The product of numbers with a number in front, from the left. -/
def product (acc : Number) : List Number → Except Fault Number
  | [] => .ok acc
  | x :: xs => do product (← acc.mul x) xs

/-- The sum of products of numbers in pairs with a number in front, from the left. -/
def weigh (acc : Number) : List Number → List Number → Except Fault Number
  | x :: xs, f :: fs => do weigh (← acc.add (← x.mul f)) xs fs
  | _, _ => .ok acc

end Number

namespace Extents

open Number (wholes?)

def ofShape (s : Shape) : Extents := s.map Number.int

@[simp] theorem wholes?_ofShape (s : Shape) : wholes? (ofShape s) = some s := Number.wholes?_map s

@[simp] theorem length_ofShape (s : Shape) : (ofShape s).length = s.length := List.length_map _

def shape (s : Extents) : Except Fault Shape :=
  match wholes? s with
  | some s => .ok s
  | none => .error .operandType

@[simp] theorem shape_ofShape (s : Shape) : shape (ofShape s) = .ok s := by simp [shape]

def size (s : Extents) : Except Fault Number :=
  match wholes? s with
  | some s => .ok (.int (Shape.size s))
  | none => Number.product (.int 1) s

@[simp] theorem size_ofShape (s : Shape) : size (ofShape s) = .ok (.int (Shape.size s)) := by
  simp [size]

/-- The number of cells as a length; there are so many only if it is whole. -/
def count (s : Extents) : Except Fault Int := do (← size s).index

@[simp] theorem count_ofShape (s : Shape) : count (ofShape s) = .ok (Shape.size s) := by
  simp [count, bind, Except.bind]

/-- The size of the axes together with the distances along them. -/
def sizeAndStrides : Extents → Except Fault (Number × List Number)
  | [] => .ok (1, [])
  | n :: s => do
    let (u, fs) ← sizeAndStrides s
    return (← u.mul n, u :: fs)

def strides (s : Extents) : Except Fault (List Number) :=
  match wholes? s with
  | some s => .ok ((Shape.strides s).map .int)
  | none => return (← sizeAndStrides s).2

@[simp] theorem strides_ofShape (s : Shape) :
    strides (ofShape s) = .ok ((Shape.strides s).map .int) := by
  simp [strides]

/-- Coordinates of a position, with what is left over above the first axis. An axis of extent zero
has coordinate zero and takes nothing from the position. -/
def split : Extents → Number → Except Fault (Number × List Number)
  | [], i => .ok (i, [])
  | n :: s, i => do
    let (q, c) ← split s i
    if n.isZero then return (q, 0 :: c) else return (← q.floorDiv n, (← q.mod n) :: c)

def coordinates (s : Extents) (i : Number) : Except Fault (List Number) :=
  match wholes? s, i with
  | some s, .int i => .ok ((Shape.coordinates s i).map .int)
  | _, _ => return (← split s i).2

@[simp] theorem coordinates_ofShape (s : Shape) (i : Int) :
    coordinates (ofShape s) (.int i) = .ok ((Shape.coordinates s i).map .int) := by
  simp [coordinates]

/-- The weighted sum of coordinates: the position of a cell, given the distances along the axes of
its array. -/
def dot (c factors : List Number) : Except Fault Number :=
  match wholes? c, wholes? factors with
  | some c, some factors => .ok (.int (Shape.dot c factors))
  | _, _ => Number.weigh (.int 0) c factors

@[simp] theorem dot_map (c factors : List Int) :
    dot (c.map .int) (factors.map .int) = .ok (.int (Shape.dot c factors)) := by
  simp [dot]

/-- Horner evaluation of coordinates in the radix system of the extents, from a running value. -/
def horner : Number → Extents → List Number → Except Fault Number
  | acc, [], _ => .ok acc
  | acc, _ :: _, [] => .ok acc
  | acc, [_], c :: _ => acc.add c
  | acc, _ :: m :: s, c :: cs => do horner (← (← acc.add c).mul m) (m :: s) cs

def position (s : Extents) (c : List Number) : Except Fault Number :=
  match wholes? s, wholes? c with
  | some s, some c => .ok (.int (Shape.position s c))
  | _, _ => horner (.int 0) s c

@[simp] theorem position_ofShape (s : Shape) (c : List Int) :
    position (ofShape s) (c.map .int) = .ok (.int (Shape.position s c)) := by
  simp [position]

def eq (s t : Extents) : Bool := Number.allEq s t

@[simp] theorem eq_ofShape (s t : Shape) : eq (ofShape s) (ofShape t) = (s == t) :=
  Number.allEq_map s t

end Extents
end LazyApl
