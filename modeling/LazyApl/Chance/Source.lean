import LazyApl.Fault
import LazyApl.Scalar
import LazyApl.Shape
import LazyApl.Number.Double
import LazyApl.Chance.Twister
/-!
# Sources of random numbers

A source is a script of numbers to be used one by one, or a seeded generator. A request takes its
numbers from the source and leaves the source as it is after them, also when it fails half-way.
-/

namespace LazyApl

/-- Where random numbers come from. -/
inductive Source
  | script (draws : List Nat)
  | seeded (t : Twister)

namespace Source

/-- A source at its start. Where nothing is said about it any stream would do, and the one of seed
zero is taken. -/
def start : Seeding → Source
  | .script draws => script draws
  | .seed n => seeded (Twister.ofSeed n)
  | .arbitrary => seeded (Twister.ofSeed 0)

def below (s : Source) (bound : Nat) : Except Fault Nat × Source :=
  match s with
  | script [] => (.error .exhausted, s)
  | script (v :: rest) => (.ok (v % bound), script rest)
  | seeded t =>
    let (r, t) := t.below bound
    (.ok r, seeded t)

def fraction (s : Source) : Except Fault Nat × Source :=
  match s with
  | script [] => (.error .exhausted, s)
  | script (v :: rest) => (.ok (v % twoTo 53), script rest)
  | seeded t =>
    let (r, t) := t.fraction
    (.ok r, seeded t)

/-- A fraction of one that is not zero; zeros are skipped. -/
def positive : Nat → Source → Except Fault Nat × Source
  | 0, s => s.fraction
  | tries + 1, s =>
    match s.fraction with
    | (.ok 0, s) => positive tries s
    | other => other

/-- How often a zero may be skipped: as often as a script lasts. -/
def patience : Source → Nat
  | script draws => draws.length
  | seeded _ => 10000

def throwDie (s : Source) (origin : Origin) : Die → Except Fault Scalar × Source
  | .refused text => (.error (.domain (.unrollable text)), s)
  | .below n =>
    let (r, s) := s.below n.toNat
    (r.bind fun k => origin.count k, s)
  | .scaled x =>
    let (r, s) := s.positive s.patience
    (r.map fun k => .real ((Double.ofRatio k (twoTo 53)).getD 0 * x), s)

/-- Throws one after the other, up to the first that fails. -/
def throwAll (origin : Origin) : List Die → Source → Except Fault (List Scalar) × Source
  | [], s => (.ok [], s)
  | d :: ds, s =>
    match s.throwDie origin d with
    | (.error e, s) => (.error e, s)
    | (.ok x, s) =>
      match throwAll origin ds s with
      | (.error e, s) => (.error e, s)
      | (.ok xs, s) => (.ok (x :: xs), s)

def exchange (deck : Array Int) (i j : Nat) : Array Int :=
  let a := deck.getD i 0
  let b := deck.getD j 0
  (deck.setIfInBounds i b).setIfInBounds j a

/-- The first places of a deck settled one by one, each with a card drawn from those that are
left. -/
def shuffle (size : Nat) : Nat → Nat → Array Int → Source → Except Fault (Array Int) × Source
  | 0, _, deck, s => (.ok deck, s)
  | k + 1, i, deck, s =>
    match s.below (size - i) with
    | (.error e, s) => (.error e, s)
    | (.ok r, s) => shuffle size k (i + 1) (exchange deck i (i + r)) s

def draw (s : Source) : Draw → Except Fault (List Scalar) × Source
  | .roll origin dice => throwAll origin dice s
  | .deal first count size =>
    let deck := ((upTo size).map (· + first)).toArray
    let (r, s) := shuffle size.toNat count.toNat 0 deck s
    (r.map fun deck => (deck.toList.take count.toNat).map .int, s)

end Source
end LazyApl
