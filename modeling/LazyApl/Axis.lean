import LazyApl.Extents
/-!
# Axes as arguments

An axis is given by the caller as a whole number counted from the index origin. Anything else is
refused, and the refusal shows what was given. An origin that is a double gives a double for the
axis, which picks nothing out of a shape.
-/

namespace LazyApl

/-- An axis as given: a whole number, or something else. -/
inductive AxisArgument
  | whole (n : Int)
  | other (x : Scalar)
  deriving DecidableEq, Repr

namespace AxisArgument

def text : AxisArgument → String
  | whole n => toString n
  | other x => x.display

/-- Whether a whole number lies among so many from the origin on. -/
def isAmong (n rank : Int) (origin : Number) : Except Fault Bool := do
  if ← origin.le (.int n) then (Number.int n).lt (← (Number.int rank).add origin) else return false

/-- The axis counted from zero, if it is one of the axes of an array of the given rank. -/
def located (a : AxisArgument) (rank : Int) (origin : Origin) : Except Fault Number :=
  match a with
  | whole n => do
    if ← isAmong n rank (← origin.number) then origin.strip n
    else .error (.rank (.invalidAxis a.text))
  | other x => .error (.rank (.invalidAxis x.display))

/-- The axis counted from zero, which has to be whole to be of any use. -/
def check (a : AxisArgument) (rank : Int) (origin : Origin) : Except Fault Int := do
  (← a.located rank origin).index

theorem isAmong_int (n rank o : Int) :
    isAmong n rank (.int o) = .ok (decide (o ≤ n ∧ n < rank + o)) := by
  by_cases h : o ≤ n <;>
    simp [isAmong, Number.add, Number.pair, h, bind, Except.bind, pure, Except.pure]

end AxisArgument

/-- The value at a position of a list; there is none past its ends. -/
def pickAt {α : Type} (xs : List α) (i : Int) : Except Fault α :=
  match nth? xs i with
  | some x => .ok x
  | none => .error .offEnd

/-- The value that a number addresses in a list; only whole numbers address one. -/
def pickBy {α : Type} (xs : List α) (i : Number) : Except Fault α := do pickAt xs (← i.index)

@[simp] theorem pickBy_int {α : Type} (xs : List α) (i : Int) : pickBy xs (.int i) = pickAt xs i :=
  rfl

/-- The place of a position in a list of a length, where negative positions count from the end. -/
def placeIn (length : Nat) (i : Int) : Option Nat :=
  if i < 0 then
    if i + length < 0 then none else some (i + length).toNat
  else some i.toNat

/-- The value that a number addresses in an array of values. -/
def pickFrom {α : Type} (xs : Array α) (i : Number) : Except Fault α := do
  match placeIn xs.size (← i.index) with
  | none => .error .offEnd
  | some k =>
    match xs[k]? with
    | some x => return x
    | none => .error .offEnd

/-- An array of values with what becomes of the value at a position. There has to be one. -/
def changeAt {α : Type} (xs : Array α) (i : Int) (f : α → α) : Except Fault (Array α) :=
  match placeIn xs.size i with
  | none => .error .offEnd
  | some k => if h : k < xs.size then .ok (xs.set k (f xs[k])) else .error .offEnd

/-- An array of values with one put in the place of that at a position. -/
def putAt {α : Type} (xs : Array α) (i : Int) (x : α) : Except Fault (Array α) :=
  changeAt xs i fun _ => x

def without {α : Type} (xs : List α) (axis : Int) : List α := xs.eraseIdx axis.toNat

def replaced {α : Type} (xs : List α) (axis : Int) (x : α) : List α := xs.set axis.toNat x

def inserted {α : Type} (xs : List α) (axis : Int) (x : α) : List α :=
  xs.take axis.toNat ++ x :: xs.drop axis.toNat

end LazyApl
