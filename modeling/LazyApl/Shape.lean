/-!
# Shapes and positions

A shape lists the extent of each axis. The cells of an array are numbered row by row, so a cell
has two names: its linear position, and its coordinates along the axes. This file converts
between the two, in both directions, and enumerates all coordinates in order.
-/

namespace LazyApl

/-- The extents of the axes of an array, outermost axis first. -/
abbrev Shape := List Int

/-- The item at a position, where a negative position counts back from the end. -/
def nth? {α : Type} (xs : List α) (i : Int) : Option α :=
  if i < 0 then
    if i + xs.length < 0 then none else xs[(i + xs.length).toNat]?
  else xs[i.toNat]?

/-- The positions `0, 1, …` below a bound; none when the bound is not positive. -/
def upTo (n : Int) : List Int := (List.range n.toNat).map Int.ofNat

@[simp] theorem length_upTo (n : Int) : (upTo n).length = n.toNat := by simp [upTo]

theorem mem_upTo {n i : Int} : i ∈ upTo n ↔ 0 ≤ i ∧ i < n := by
  simp only [upTo, List.mem_map, List.mem_range]
  constructor
  · rintro ⟨k, hk, rfl⟩
    simp only [Int.ofNat_eq_natCast]
    omega
  · intro h
    exact ⟨i.toNat, by omega, by simp only [Int.ofNat_eq_natCast]; omega⟩

namespace Shape

/-- The number of cells: the product of the extents. A scalar has one cell. -/
def size : Shape → Int
  | [] => 1
  | n :: s => n * size s

@[simp] theorem size_nil : size [] = 1 := rfl

@[simp] theorem size_cons (n : Int) (s : Shape) : size (n :: s) = n * size s := rfl

theorem size_append (s t : Shape) : size (s ++ t) = size s * size t := by
  induction s with
  | nil => simp
  | cons n s ih => simp [ih, Int.mul_assoc]

/-- The distance between neighbours along each axis: the size of the axes further in. -/
def strides : Shape → List Int
  | [] => []
  | _ :: s => size s :: strides s

@[simp] theorem length_strides (s : Shape) : (strides s).length = s.length := by
  induction s with
  | nil => rfl
  | cons n s ih => simp [strides, ih]

/-- Coordinates of a linear position, with what is left over above the first axis. An axis of
extent zero has coordinate zero and takes nothing from the position. -/
def split : Shape → Int → Int × List Int
  | [], i => (i, [])
  | n :: s, i =>
    let (q, c) := split s i
    if n = 0 then (q, 0 :: c) else (q.fdiv n, q.fmod n :: c)

def coordinates (s : Shape) (i : Int) : List Int := (split s i).2

@[simp] theorem length_coordinates (s : Shape) (i : Int) :
    (coordinates s i).length = s.length := by
  induction s with
  | nil => rfl
  | cons n s ih =>
    simp only [coordinates, split] at ih ⊢
    split <;> simp [ih]

/-- The weighted sum of coordinates: the position of a cell, given the strides of its array. -/
def dot : List Int → List Int → Int
  | c :: cs, f :: fs => c * f + dot cs fs
  | _, _ => 0

/-- Horner evaluation of coordinates in the radix system of the shape, from a running value.
It stops early when coordinates run out. -/
def horner : Int → Shape → List Int → Int
  | acc, [], _ => acc
  | acc, _ :: _, [] => acc
  | acc, [_], c :: _ => acc + c
  | acc, _ :: m :: s, c :: cs => horner ((acc + c) * m) (m :: s) cs

/-- The linear position of the cell at the given coordinates. -/
def position (s : Shape) (c : List Int) : Int := horner 0 s c

/-- One step of the odometer over inner axes: the new coordinates, and whether the axis to the
left has to advance. -/
def carry (origin : Int) : Shape → List Int → List Int × Bool
  | n :: s, c :: cs =>
    match carry origin s cs with
    | (cs', false) => (c :: cs', false)
    | (cs', true) => if c + 1 = n + origin then (origin :: cs', true) else ((c + 1) :: cs', false)
  | _, _ => ([], true)

/-- The coordinates after the given ones. The first axis is never reset. -/
def advance (origin : Int) : Shape → List Int → List Int
  | _ :: s, c :: cs =>
    match carry origin s cs with
    | (cs', false) => c :: cs'
    | (cs', true) => (c + 1) :: cs'
  | _, _ => []

/-- The given coordinates and as many of their successors as asked for. -/
def run (origin : Int) (s : Shape) : Nat → List Int → List (List Int)
  | 0, c => [c]
  | k + 1, c => c :: run origin s k (advance origin s c)

/-- All coordinates of an array, in row-major order, counted from the origin. -/
def odometer (s : Shape) (origin : Int) : List (List Int) :=
  if size s = 0 then [] else run origin s (size s - 1).toNat (s.map fun _ => origin)

end Shape

end LazyApl
