import LazyApl.Extents
/-!
# Links

A link is a map from the cells of a result to the cells of its source, where a cell of the result
may have no source: it then shows the fill. Links name cells by linear position or by coordinates,
whichever suits them, and a chain of links is composed into one map between positions, converting
between the two names only where neighbours differ.
-/

namespace LazyApl

/-- How a link names cells. -/
inductive Encoding
  | linear
  | decoded
  deriving DecidableEq, Repr

def Encoding.name : Encoding → String
  | linear => "LINEAR"
  | decoded => "DECODED"

/-- A cell, by its linear position or by its coordinates. -/
inductive Place
  | linear (i : Number)
  | decoded (c : List Number)
  deriving DecidableEq, Repr

/-- A map from result cells to source cells, none where the result shows the fill. -/
inductive LinkMap
  | linear (f : Number → Except Fault (Option Number))
  | decoded (f : List Number → Except Fault (Option (List Number)))
  /-- Takes coordinates and gives a position. -/
  | flatten (f : List Number → Except Fault (Option Number))

/-- A map between the cells of two shapes. -/
structure Link where
  map : LinkMap
  outShape : Extents
  inShape : Extents

namespace Place

/-- The linear position of a place in an array of some extents. -/
def toLinear (s : Extents) : Place → Except Fault Number
  | linear i => .ok i
  | decoded c => do Extents.dot c (← s.strides)

/-- The coordinates of a place in an array of some extents. -/
def toCoordinates (s : Extents) : Place → Except Fault (List Number)
  | linear i => s.coordinates i
  | decoded c => .ok c

end Place

namespace Link

def encoding (l : Link) : Encoding :=
  match l.map with
  | .linear _ => .linear
  | .decoded _ | .flatten _ => .decoded

def output (l : Link) : Encoding :=
  match l.map with
  | .linear _ | .flatten _ => .linear
  | .decoded _ => .decoded

/-- The source place of a place, converted to the encoding that the link takes. -/
def apply (l : Link) (p : Place) : Except Fault (Option Place) :=
  match l.map with
  | .linear f => do return (← f (← p.toLinear l.outShape)).map .linear
  | .decoded f => do return (← f (← p.toCoordinates l.outShape)).map .decoded
  | .flatten f => do return (← f (← p.toCoordinates l.outShape)).map .linear

/-- The place reached by following links, outermost first. -/
def follow : List Link → Place → Except Fault (Option Place)
  | [], p => .ok (some p)
  | l :: ls, p => do
    match ← l.apply p with
    | none => return none
    | some q => follow ls q

@[simp] theorem follow_singleton (l : Link) (p : Place) : follow [l] p = l.apply p := by
  simp only [follow]
  cases l.apply p with
  | error e => rfl
  | ok q => cases q <;> rfl

def innerShape (ls : List Link) : Extents := (ls.getLast?.map inShape).getD []

/-- The composed map of a chain of links, outermost first, between linear positions. -/
def compose (ls : List Link) (i : Number) : Except Fault (Option Number) := do
  match ← follow ls (.linear i) with
  | none => return none
  | some p => return some (← p.toLinear (innerShape ls))

/-- The link between the same cells in two arrays of the same extents. -/
def identity (s : Extents) : Link := ⟨.linear fun i => .ok (some i), s, s⟩

/-- A view of evenly spaced source cells: the cell at coordinates `c` is the source cell
`offset + Σ cᵢ * stepᵢ`. Where the offset is no number there is no such cell. -/
def affine (offset : Scalar) (dims : List (Number × Number)) (source : Extents) : Link :=
  let extents := dims.map Prod.fst
  match dims with
  | [(_, step)] =>
    ⟨.linear fun i => do return some (← (← offset.number).add (← i.mul step)), extents, source⟩
  | _ =>
    ⟨.flatten fun c => do
        return some (← (← offset.number).add (← Extents.dot c (dims.map Prod.snd))),
      extents, source⟩

end Link
end LazyApl
