import LazyApl.Extents
/-!
# Spans

A span says how one axis of a take or drop is laid out: some fill cells, then a run of source
cells, then some fill cells. A span of a span is again one span, so a tower of takes and drops needs
a single bounds check per axis. The spans of whole extents are reckoned in whole numbers; extents of
another kind give spans of numbers of that kind.
-/

namespace LazyApl

/-- `before` fill cells, the source cells from `start` up to `stop`, and `after` fill cells. -/
structure Span where
  start : Int
  stop : Int
  before : Int
  after : Int
  deriving DecidableEq, Repr

namespace Span

def whole (n : Int) : Span := ⟨0, n, 0, 0⟩

def length (s : Span) : Int := s.stop - s.start

def extent (s : Span) : Int := s.before + s.length + s.after

def isPadded (s : Span) : Bool := s.before != 0 || s.after != 0

/-- The source cell shown at a cell; none for a fill cell. -/
def locate (s : Span) (c : Int) : Option Int :=
  let x := c - s.before
  if x < 0 ∨ s.length ≤ x then none else some (x + s.start)

/-- The first cells of an axis of `n`, or the last ones when the count is negative, filled up when
there are too few. -/
def take (count n : Int) : Span :=
  if 0 ≤ count then ⟨0, min count n, 0, max 0 (count - n)⟩
  else ⟨max 0 (n + count), n, max 0 (-count - n), 0⟩

/-- What is left of an axis of `n` without its first cells, or without its last ones when the
count is negative. -/
def drop (count n : Int) : Span :=
  if 0 ≤ count then ⟨min count n, n, 0, 0⟩ else ⟨0, max 0 (n + count), 0, 0⟩

/-- The span that shows what `outer` shows of what `inner` shows. -/
def merge (inner outer : Span) : Span :=
  let lo := max outer.start inner.before
  let hi := min outer.stop (inner.before + inner.length)
  if hi ≤ lo then ⟨inner.start, inner.start, outer.before + outer.length, outer.after⟩
  else
    ⟨lo - inner.before + inner.start, hi - inner.before + inner.start,
      outer.before + (lo - outer.start), outer.after + (outer.stop - hi)⟩

@[simp] theorem extent_whole (n : Int) : (whole n).extent = n := by
  simp [whole, extent, length]

@[simp] theorem isPadded_whole (n : Int) : (whole n).isPadded = false := rfl

theorem locate_whole {n c : Int} (h : 0 ≤ c) (hn : c < n) : (whole n).locate c = some c := by
  simp [locate, whole, length]
  omega

@[simp] theorem isPadded_drop (count n : Int) : (drop count n).isPadded = false := by
  unfold drop
  split <;> rfl

end Span

/-- The span of an axis of any kind. One of four whole numbers is a span. -/
inductive AxisSpan
  | whole (s : Span)
  | uneven (start stop before after : Number)
  deriving DecidableEq, Repr

namespace AxisSpan

def of (start stop before after : Number) : AxisSpan :=
  match start, stop, before, after with
  | .int s, .int e, .int b, .int a => whole ⟨s, e, b, a⟩
  | _, _, _, _ => uneven start stop before after

def start : AxisSpan → Number
  | whole s => .int s.start
  | uneven s _ _ _ => s

/-- The source cell that the run of source cells stops at. -/
def stop : AxisSpan → Number
  | whole s => .int s.stop
  | uneven _ e _ _ => e

def before : AxisSpan → Number
  | whole s => .int s.before
  | uneven _ _ b _ => b

def after : AxisSpan → Number
  | whole s => .int s.after
  | uneven _ _ _ a => a

def all (n : Number) : AxisSpan := of 0 n 0 0

def length (s : AxisSpan) : Except Fault Number := s.stop.sub s.start

def extent : AxisSpan → Except Fault Number
  | whole s => .ok (.int s.extent)
  | s => do (← s.before.add (← s.length)).add s.after

def isPadded : AxisSpan → Bool
  | whole s => s.isPadded
  | s => !s.before.isZero || !s.after.isZero

/-- The source cell shown at a cell; none for a fill cell. -/
def locate (s : AxisSpan) (c : Number) : Except Fault (Option Number) :=
  match s, c with
  | whole s, .int c => .ok ((s.locate c).map .int)
  | s, c => do
    let x ← c.sub s.before
    if ← x.lt 0 then return none
    else if ← (← s.length).le x then return none
    else return some (← x.add s.start)

/-- The first cells of an axis, or the last ones when the count is negative, filled up when there
are too few. -/
def take (count n : Number) : Except Fault AxisSpan :=
  match count, n with
  | .int k, .int n => .ok (whole (Span.take k n))
  | count, n => do
    if ← (0 : Number).le count then
      return of 0 (← count.lesser n) 0 (← (0 : Number).greater (← count.sub n))
    else
      let count := count.neg
      let start ← (0 : Number).greater (← n.sub count)
      return of start n (← (0 : Number).greater (← count.sub n)) 0

/-- What is left of an axis without its first cells, or without its last ones when the count is
negative. -/
def drop (count n : Number) : Except Fault AxisSpan :=
  match count, n with
  | .int k, .int n => .ok (whole (Span.drop k n))
  | count, n => do
    if ← (0 : Number).le count then return of (← count.lesser n) n 0 0
    else return of 0 (← (0 : Number).greater (← n.add count)) 0 0

/-- The span that shows what `outer` shows of what `inner` shows. -/
def merge (inner outer : AxisSpan) : Except Fault AxisSpan :=
  match inner, outer with
  | whole s, whole t => .ok (whole (Span.merge s t))
  | inner, outer => do
    let lo ← outer.start.greater inner.before
    let hi ← outer.stop.lesser (← inner.before.add (← inner.length))
    if ← hi.le lo then
      return of inner.start inner.start (← outer.before.add (← outer.length)) outer.after
    else
      let shift (x : Number) : Except Fault Number := do
        (← x.sub inner.before).add inner.start
      return of (← shift lo) (← shift hi) (← outer.before.add (← lo.sub outer.start))
        (← outer.after.add (← outer.stop.sub hi))

@[simp] theorem all_int (n : Int) : all (.int n) = whole (Span.whole n) := rfl

@[simp] theorem extent_whole (s : Span) : (whole s).extent = .ok (.int s.extent) := rfl

@[simp] theorem locate_whole (s : Span) (c : Int) :
    (whole s).locate (.int c) = .ok ((s.locate c).map .int) := rfl

@[simp] theorem take_int (k n : Int) : take (.int k) (.int n) = .ok (whole (Span.take k n)) := rfl

@[simp] theorem drop_int (k n : Int) : drop (.int k) (.int n) = .ok (whole (Span.drop k n)) := rfl

@[simp] theorem merge_whole (s t : Span) :
    (whole s).merge (whole t) = .ok (whole (Span.merge s t)) := rfl

end AxisSpan

abbrev Layout := List AxisSpan

namespace Layout

def all (s : Extents) : Layout := s.map AxisSpan.all

def extents (l : Layout) : Except Fault Extents := l.mapM AxisSpan.extent

def merge : Layout → Layout → Except Fault Layout
  | s :: inner, t :: outer => do
    let own ← s.merge t
    let rest ← merge inner outer
    return own :: rest
  | _, _ => .ok []

def isPadded (l : Layout) : Bool := l.any AxisSpan.isPadded

/-- The source coordinates shown at the given coordinates; none if an axis shows fill there. -/
def locate : Layout → List Number → Except Fault (Option (List Number))
  | s :: l, c :: cs => do
    match ← s.locate c with
    | none => return none
    | some x => return (← locate l cs).map (x :: ·)
  | _, _ => .ok (some [])

@[simp] theorem extents_cons (s : AxisSpan) (l : Layout) :
    extents (s :: l) = (do return (← s.extent) :: (← extents l)) := by
  simp [extents, List.mapM_cons]

end Layout
end LazyApl
