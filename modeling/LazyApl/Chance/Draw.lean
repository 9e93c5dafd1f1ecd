import LazyApl.Value
/-!
# What is to be drawn

A random array asks for its content all at once: one throw of a die for each cell, or some cards
from the top of a shuffled deck. It says where the numbers are to come from: from a source that it
shares with others, or from one of its own.
-/

namespace LazyApl

/-- One throw: a whole number below a bound, or a double between zero and a limit. What cannot be
thrown is refused with its text. -/
inductive Die
  | below (n : Int)
  | scaled (x : Float)
  | refused (text : String)
  deriving DecidableEq, Repr

/-- The content that a random array asks for: throws, which count from the origin, or the first
cards of a deck that starts with the given one. -/
inductive Draw
  | roll (origin : Origin) (dice : List Die)
  | deal (first count deck : Int)
  deriving DecidableEq, Repr

/-- How a source of random numbers starts: with a script of numbers to be used one by one, with a
seed, or in any way. -/
inductive Seeding
  | script (draws : List Nat)
  | seed (n : Int)
  | arbitrary
  deriving DecidableEq, Repr

/-- The source that a random array draws from. -/
inductive SourceRef
  | shared (id : Nat)
  | own (start : Seeding)
  deriving DecidableEq, Repr

/-- What a random array is known by: the place of its expression among all that were given. -/
abbrev Label := List Nat

end LazyApl
