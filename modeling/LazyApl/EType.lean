import LazyApl.Scalar
/-!
# Element types

An element type says what the cells of an array can hold, without looking at them: bits, whole
numbers in a range, doubles, complex numbers, characters, or anything at all. Types are joined to
the least type that covers both; whole numbers keep the range seen.
-/

namespace LazyApl

/-- The kinds of elements, from the narrowest numbers to anything. -/
inductive Kind
  | bit
  | int
  | float
  | complex
  | char
  | mixed
  deriving DecidableEq, Repr

namespace Kind

def isNumeric : Kind → Bool
  | bit | int | float | complex => true
  | char | mixed => false

def name : Kind → String
  | bit => "BIT"
  | int => "INT"
  | float => "FLOAT"
  | complex => "COMPLEX"
  | char => "CHAR"
  | mixed => "MIXED"

end Kind

/-- A kind of elements, with a range for whole numbers. A bound is kept as it was given. -/
structure EType where
  kind : Kind
  low : Option Scalar
  high : Option Scalar
  deriving DecidableEq, Repr

namespace EType

def ofKind (k : Kind) : EType := ⟨k, none, none⟩

def bit : EType := ⟨.bit, some (.int 0), some (.int 1)⟩

def float : EType := ofKind .float

def complex : EType := ofKind .complex

def char : EType := ofKind .char

def mixed : EType := ofKind .mixed

def unbounded : EType := ofKind .int

def isNumeric (t : EType) : Bool := t.kind.isNumeric

/-- Whole numbers in a range. Ranges inside `0..1` are bits, but keep their bounds. -/
def integer (low high : Int) : EType :=
  ⟨if 0 ≤ low ∧ high ≤ 1 then .bit else .int, some (.int low), some (.int high)⟩

theorem kind_integer (low high : Int) :
    (integer low high).kind = .bit ∨ (integer low high).kind = .int := by
  unfold integer
  dsimp only
  split
  · exact .inl rfl
  · exact .inr rfl

/-- Whether a bound is at most another; bounds without an order are not. -/
def atMost (a b : Scalar) : Bool :=
  match a, b with
  | .int a, .int b => decide (a ≤ b)
  | a, b =>
    match a.number?, b.number? with
    | some x, some y => (x.le y).toOption.getD false
    | _, _ => false

/-- Whether a bound is less than another; bounds without an order are not. -/
def isBelow (a b : Scalar) : Bool :=
  match a, b with
  | .int a, .int b => decide (a < b)
  | a, b => (a.lt b).toOption.getD false

/-- The lesser of two bounds, the first one unless the second is strictly less. -/
def lesser (a b : Scalar) : Scalar := if isBelow b a then b else a

/-- The greater of two bounds, the first one unless the second is strictly greater. -/
def greater (a b : Scalar) : Scalar := if isBelow a b then b else a

def range (low high : Scalar) : EType :=
  ⟨if atMost (.int 0) low && atMost high (.int 1) then .bit else .int, some low, some high⟩

def between (low high : Scalar) : Except Fault EType := do
  -- the upper bound is looked at only if the lower one allows bits
  if ← (Number.int 0).le (← low.number) then
    let _ ← (← high.number).le (.int 1)
    return range low high
  else return range low high

def counted (origin : Origin) (last : Number) : Except Fault EType := do
  between origin (← origin.count last)

theorem range_int (low high : Int) : range (.int low) (.int high) = integer low high := by
  simp [range, integer, atMost]

theorem lesser_int (a b : Int) : lesser (.int a) (.int b) = .int (min a b) := by
  simp only [lesser, isBelow, decide_eq_true_eq]
  split <;> simp only [Scalar.int.injEq] <;> omega

theorem greater_int (a b : Int) : greater (.int a) (.int b) = .int (max a b) := by
  simp only [greater, isBelow, decide_eq_true_eq]
  split <;> simp only [Scalar.int.injEq] <;> omega

theorem counted_int (origin last : Int) :
    counted (.int origin) (.int last) = .ok (integer origin (last + origin)) := by
  by_cases h : 0 ≤ origin <;>
    simp [counted, between, range_int, h, bind, Except.bind, pure, Except.pure]

/-- The range covering two ranges of whole numbers; none if one of them is unknown. -/
def joinRanges : EType → EType → EType
  | ⟨_, some l, some h⟩, ⟨_, some l', some h'⟩ => range (lesser l l') (greater h h')
  | _, _ => unbounded

def join (a b : EType) : EType :=
  if a.kind = .mixed ∨ b.kind = .mixed then mixed
  else if a.kind = .char ∨ b.kind = .char then
    if a.kind = b.kind then char else mixed
  else if a.kind = .complex ∨ b.kind = .complex then complex
  else if a.kind = .float ∨ b.kind = .float then float
  else joinRanges a b

theorem eq_mixed_of_join {a b : EType} (h : (a.join b).kind = .mixed) : a.join b = mixed := by
  have hranges : (joinRanges a b).kind ≠ .mixed := by
    unfold joinRanges range
    split
    · dsimp only
      split <;> simp
    · simp [unbounded, ofKind]
  unfold join at h ⊢
  split
  · rfl
  · split
    · split
      · simp_all [char, ofKind]
      · rfl
    · split
      · simp_all [complex, ofKind]
      · split
        · simp_all [float, ofKind]
        · simp_all

/-- The join of types that may be absent; an absent one adds nothing, and two make bits. -/
def joinOptions : Option EType → Option EType → EType
  | none, none => bit
  | none, some b => b
  | some a, none => a
  | some a, some b => join a b

def joinAll (ts : List EType) : Option EType :=
  ts.foldl (fun acc t => some (joinOptions acc (some t))) none

theorem joinAll_cons (t : EType) (ts : List EType) :
    joinAll (t :: ts) = some (ts.foldl join t) := by
  have hfold (a : EType) : ts.foldl (fun acc t => some (joinOptions acc (some t))) (some a) =
      some (ts.foldl join a) := by
    induction ts generalizing a with
    | nil => rfl
    | cons t ts ih => exact ih (join a t)
  exact hfold t

def text (t : EType) : String :=
  match t.kind, t.low with
  | .int, some low =>
    "INT[" ++ low.display ++ ".." ++ (t.high.getD .nothing).display ++ "]"
  | k, _ => k.name

end EType

def Scalar.etype : Scalar → EType
  | .truth b => let n : Int := if b then 1 else 0; EType.integer n n
  | .int n => EType.integer n n
  | .real _ => EType.float
  | .complex _ => EType.complex
  | .text _ => EType.char
  | .nothing => EType.mixed

end LazyApl
