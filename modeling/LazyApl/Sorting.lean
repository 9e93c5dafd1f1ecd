import LazyApl.Fault
/-!
# Sorting by runs

A list is cut into runs that are in order already, and neighbouring runs are merged until one is
left. Short runs are lengthened by insertion; runs of very different lengths are kept apart as long
as possible; and where one of two runs wins again and again, the place of the other's next item is
searched for by leaps. Items that are not less than each other keep their order.

Under an order that is total the outcome is the only stable one. Under a comparison that is no order
the outcome shows which items have been compared, so the choice of comparisons is part of what is
said here.
-/

namespace LazyApl
namespace Sorting

variable {α : Type}

/-- The place for an item in a sorted list: after all items that it is not less than, found by
halving the interval in which it must lie. -/
def bisect (less : α → α → Except Fault Bool) (x : α) (xs : Array α) (lo hi : Nat) :
    Except Fault Nat :=
  if lo < hi then
    let mid := (lo + hi) / 2
    match xs[mid]? with
    | none => .ok lo
    | some y => do
      if ← less x y then bisect less x xs lo mid else bisect less x xs (mid + 1) hi
  else .ok lo
termination_by hi - lo

/-- The remaining items put one by one into a sorted list. -/
def insertAll (less : α → α → Except Fault Bool) : List α → Array α → Except Fault (Array α)
  | [], done => .ok done
  | x :: rest, done => do
    let k ← bisect less x done 0 done.size
    insertAll less rest (done.toList.take k ++ x :: done.toList.drop k).toArray

/-- The stretch at the start of a list in which each item is in the given relation to the one before
it, reversed, and the rest. -/
def stretch (next : α → α → Except Fault Bool) (before : α) (done : List α) :
    List α → Except Fault (List α × List α)
  | [] => .ok (done, [])
  | x :: rest => do
    if ← next x before then stretch next x (x :: done) rest else return (done, x :: rest)

/-- The run at the start of a list, in order, and the rest: a stretch that does not fall, or a
falling one turned around. -/
def firstRun (less : α → α → Except Fault Bool) : List α → Except Fault (List α × List α)
  | a :: b :: rest => do
    if ← less b a then stretch less b [b, a] rest
    else
      let (rising, others) ← stretch (fun x y => do return !(← less x y)) b [b, a] rest
      return (rising.reverse, others)
  | xs => .ok (xs, [])

/-- A run of a list that starts at a position, and how deep its border to the next run lies. -/
structure Run (α : Type) where
  start : Nat
  items : List α
  border : Nat

/-- The least length of a run: the whole of a short list, and otherwise between half of 64 and 64,
so that a power of two of such runs is little more than the list. -/
def leastLength (n : Nat) : Nat := go n n 0
where
  go : Nat → Nat → Nat → Nat
    | 0, n, odd => n + odd
    | fuel + 1, n, odd => if n < 64 then n + odd else go fuel (n / 2) (max odd (n % 2))

/-- The depth of the border between neighbouring runs: how often the whole has to be halved until
the middles of the two runs lie in different parts. -/
def depth (n : Nat) : Nat → Nat → Nat → Nat
  | 0, _, _ => 1
  | fuel + 1, a, b =>
    if n ≤ a then depth n fuel (2 * (a - n)) (2 * (b - n)) + 1
    else if n ≤ b then 1
    else depth n fuel (2 * a) (2 * b) + 1

/-- The middle of an interval of whole numbers, seen from the front or from the back. -/
def middle (isBackward : Bool) (lo hi : Nat) : Nat :=
  if isBackward then hi - 1 - (hi - lo) / 2 else lo + (hi - lo) / 2

theorem middle_mem (isBackward : Bool) {lo hi : Nat} (h : lo < hi) :
    lo ≤ middle isBackward lo hi ∧ middle isBackward lo hi < hi := by
  unfold middle
  split <;> omega

/-- The number of items at the front of a list that satisfy a test, if it is between the two bounds
and those that do stand before those that do not. -/
def halve (isBackward : Bool) (test : α → Except Fault Bool) (xs : List α) (lo hi : Nat) :
    Except Fault Nat :=
  if _h : lo < hi then
    match xs[middle isBackward lo hi]? with
    | none => .ok lo
    | some x => do
      if ← test x then halve isBackward test xs (middle isBackward lo hi + 1) hi
      else halve isBackward test xs lo (middle isBackward lo hi)
  else .ok lo
termination_by hi - lo
decreasing_by
  all_goals
    have := middle_mem isBackward _h
    omega

/-- Bounds for the number of items at the front that satisfy a test: the distance tried last, and
the next one after it, each about twice the one before. -/
def leapFrom (test : α → Except Fault Bool) (xs : List α) :
    Nat → Nat → Nat → Except Fault (Nat × Nat)
  | 0, last, next => .ok (last, next)
  | fuel + 1, last, next =>
    match xs[next]? with
    | none => .ok (last, xs.length)
    | some x => do
      if ← test x then leapFrom test xs fuel next (2 * next + 1) else return (last, next)

/-- The number of items at the front of a list that satisfy a test, found by leaps. -/
def leap (isBackward : Bool) (test : α → Except Fault Bool) (xs : List α) : Except Fault Nat := do
  match xs with
  | [] => return 0
  | x :: _ =>
    if ← test x then
      let (last, next) ← leapFrom test xs xs.length 0 1
      halve isBackward test xs (last + 1) next
    else return 0

/-- Two runs that are being merged from one end: what has been taken, the last one first, and what
is left of the shorter and of the longer run. -/
structure Pair (α : Type) where
  done : List α
  short : List α
  long : List α

namespace Pair

def takeShort (k : Nat) (p : Pair α) : Pair α :=
  ⟨(p.short.take k).reverse ++ p.done, p.short.drop k, p.long⟩

def takeLong (k : Nat) (p : Pair α) : Pair α :=
  ⟨(p.long.take k).reverse ++ p.done, p.short, p.long.drop k⟩

/-- The merged run, once one of the runs is used up. The last item of the shorter run comes last of
all: it has been seen to belong there before merging began. -/
def settled (p : Pair α) : Option (List α) :=
  match p.short, p.long with
  | [], rest => some (p.done.reverse ++ rest)
  | rest, [] => some (p.done.reverse ++ rest)
  | [s], rest => some (p.done.reverse ++ rest ++ [s])
  | _, _ => none

def isSettled (p : Pair α) : Bool := p.settled.isSome

end Pair

/-- How two runs are compared. Merging forward, the shorter run is the first one; merging backward,
it is the second one, and both are turned around. -/
structure Contest (α : Type) where
  isBackward : Bool
  less : α → α → Except Fault Bool

namespace Contest

/-- Whether the item of the longer run is to be taken first. -/
def longWins (c : Contest α) (s l : α) : Except Fault Bool :=
  if c.isBackward then c.less s l else c.less l s

/-- As many items of the shorter run as come before the next one of the longer. -/
def leapShort (c : Contest α) (p : Pair α) : Except Fault (Pair α × Nat) := do
  match p.long with
  | [] => return (p, 0)
  | l :: _ =>
    let k ← leap c.isBackward (fun s => do return !(← c.longWins s l)) p.short
    return (p.takeShort k, k)

/-- As many items of the longer run as come before the next one of the shorter. -/
def leapLong (c : Contest α) (p : Pair α) : Except Fault (Pair α × Nat) := do
  match p.short with
  | [] => return (p, 0)
  | s :: _ =>
    let k ← leap c.isBackward (c.longWins s) p.long
    return (p.takeLong k, k)

/-- The number of wins in a row that makes leaps worth while. -/
def manyWins : Nat := 7

/-- A leap in either run, each followed by the item that stopped it, and whether leaps were worth
while. The leap in the first run is made first. -/
def leapBoth (c : Contest α) (p : Pair α) : Except Fault (Pair α × Bool) := do
  let (p, k) ← if c.isBackward then c.leapLong p else c.leapShort p
  if p.isSettled then return (p, true)
  else
    let p := if c.isBackward then p.takeShort 1 else p.takeLong 1
    if p.isSettled then return (p, true)
    else
      let (p, k') ← if c.isBackward then c.leapShort p else c.leapLong p
      if p.isSettled then return (p, true)
      else
        let p := if c.isBackward then p.takeLong 1 else p.takeShort 1
        return (p, p.isSettled || manyWins ≤ k || manyWins ≤ k')

/-- How merging goes on: one item after the other, with the wins in a row of either run, or by
leaps. -/
inductive Pace
  | single (shortWins longWins : Nat)
  | leaps
  deriving DecidableEq, Repr

/-- The merged run, and how many wins in a row it takes from now on to try leaps: fewer while they
are worth while, more when they are not. -/
def merge (c : Contest α) : Nat → Pace → Nat → Pair α → Except Fault (List α × Nat)
  | 0, _, patience, p => .ok (p.settled.getD [], patience)
  | fuel + 1, pace, patience, p =>
    match p.settled, p.short, p.long with
    | some xs, _, _ => .ok (xs, patience)
    | none, s :: _, l :: _ =>
      match pace with
      | .single shortWins longWins => do
        let won ← c.longWins s l
        let after := if won then p.takeLong 1 else p.takeShort 1
        let wins := (if won then longWins else shortWins) + 1
        if patience ≤ wins && !after.isSettled then merge c fuel .leaps (patience + 1) after
        else merge c fuel (if won then .single 0 wins else .single wins 0) patience after
      | .leaps => do
        let patience := max 1 (patience - 1)
        let (after, isWorthwhile) ← c.leapBoth p
        if isWorthwhile then merge c fuel .leaps patience after
        else merge c fuel (.single 0 0) (patience + 1) after
    | none, _, _ => .ok (p.settled.getD [], patience)

end Contest

/-- Two neighbouring runs merged. Items of the first that come before all of the second, and items
of the second that come after all of the first, are left where they are. -/
def mergeRuns (less : α → α → Except Fault Bool) (patience : Nat) (a b : List α) :
    Except Fault (List α × Nat) := do
  match b with
  | [] => return (a, patience)
  | first :: _ =>
    let k ← leap false (fun x => do return !(← less first x)) a
    let front := a.take k
    let a := a.drop k
    match a.getLast? with
    | none => return (front ++ b, patience)
    | some last =>
      let k ← leap true (fun x => do return !(← less x last)) b.reverse
      let back := b.drop (b.length - k)
      let b := b.take (b.length - k)
      let fuel := 2 * (a.length + b.length)
      if b.isEmpty then return (front ++ a ++ back, patience)
      else if a.length ≤ b.length then
        let p := (Pair.mk [] a b).takeLong 1
        let (merged, patience) ← Contest.merge ⟨false, less⟩ fuel (.single 0 0) patience p
        return (front ++ merged ++ back, patience)
      else
        let p := (Pair.mk [] b.reverse a.reverse).takeLong 1
        let (merged, patience) ← Contest.merge ⟨true, less⟩ fuel (.single 0 0) patience p
        return (front ++ merged.reverse ++ back, patience)

/-- The runs that wait to be merged, the last one first. -/
structure Pending (α : Type) where
  runs : List (Run α)
  patience : Nat

namespace Pending

def joined (less : α → α → Except Fault Bool) (patience : Nat) (lower upper : Run α)
    (border : Nat) : Except Fault (Run α × Nat) := do
  let (items, patience) ← mergeRuns less patience lower.items upper.items
  return (⟨lower.start, items, border⟩, patience)

/-- Runs merged as long as the border before the last one lies deeper than a new border. -/
def mergeDeeper (less : α → α → Except Fault Bool) (border : Nat) :
    Nat → Pending α → Except Fault (Pending α)
  | 0, s => .ok s
  | fuel + 1, s =>
    match s.runs with
    | upper :: lower :: rest =>
      if border < lower.border then do
        let (run, patience) ← joined less s.patience lower upper lower.border
        mergeDeeper less border fuel ⟨run :: rest, patience⟩
      else .ok s
    | _ => .ok s

/-- A new run after those that wait, in a list of a length. -/
def add (less : α → α → Except Fault Bool) (length : Nat) (items : List α) (s : Pending α) :
    Except Fault (Pending α) := do
  match s.runs with
  | [] => return ⟨[⟨0, items, 0⟩], s.patience⟩
  | last :: _ =>
    let a := 2 * last.start + last.items.length
    let border := depth length (length.log2 + 2) a (a + last.items.length + items.length)
    let start := last.start + last.items.length
    let s ← mergeDeeper less border s.runs.length s
    match s.runs with
    | last :: rest =>
      return ⟨⟨start, items, 0⟩ :: { last with border := border } :: rest, s.patience⟩
    | [] => return ⟨[⟨start, items, 0⟩], s.patience⟩

/-- All runs merged, from the last ones on; the shorter neighbour of the last but one goes first. -/
def mergeAll (less : α → α → Except Fault Bool) : Nat → Pending α → Except Fault (List α)
  | 0, s => .ok (s.runs.reverse.flatMap Run.items)
  | fuel + 1, s =>
    match s.runs with
    | [] => .ok []
    | [run] => .ok run.items
    | upper :: middle :: lower :: rest => do
      if lower.items.length < upper.items.length then
        let (run, patience) ← joined less s.patience lower middle lower.border
        mergeAll less fuel ⟨upper :: run :: rest, patience⟩
      else
        let (run, patience) ← joined less s.patience middle upper middle.border
        mergeAll less fuel ⟨run :: lower :: rest, patience⟩
    | [upper, lower] => do
      let (run, _) ← joined less s.patience lower upper lower.border
      return run.items

end Pending

/-- The runs of a list, each lengthened to the least length, after those that wait. -/
def collect (less : α → α → Except Fault Bool) (length least : Nat) :
    Nat → List α → Pending α → Except Fault (Pending α)
  | 0, _, s => .ok s
  | fuel + 1, xs, s => do
    if xs.isEmpty then return s
    else
      let (run, rest) ← firstRun less xs
      let missing := least - run.length
      let run ← insertAll less (rest.take missing) run.toArray
      let s ← s.add less length run.toList
      collect less length least fuel (rest.drop missing) s

/-- The items in order; items that are not less than each other keep their order. -/
def sort (less : α → α → Except Fault Bool) (xs : List α) : Except Fault (List α) := do
  let n := xs.length
  if n < 2 then return xs
  else
    let s ← collect less n (leastLength n) n xs ⟨[], Contest.manyWins⟩
    s.mergeAll less s.runs.length

end Sorting
end LazyApl
