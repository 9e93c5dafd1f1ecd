import LazyApl.Text.Written
import LazyApl.Arithmetic
import LazyApl.Chance.Digest
import LazyApl.Primitive.Search
/-!
# Settings

The index origin, the comparison tolerance and the seed that calls are made under. The origin is
equal to 0 or 1, and the tolerance is not negative. All of them are kept as they were given: an
origin that is a truth value or a double shows in everything that is counted from it.
-/

namespace LazyApl

namespace Seeding

/-- The prime that doubles are reduced by to make a seed. -/
def modulus : Nat := twoTo 61 - 1

/-- The seed that a double stands for: its value modulo a prime, in 64 bits, where a negative value
counts from the top. A whole double stands for its value if that is small. -/
def ofDouble (x : Float) : Nat :=
  let (isNegative, size) := match Double.parts? x with
    | some p =>
      let (num, den) := p.ratio
      -- a power of two is inverted by going round the cycle of 61 bits
      (p.negative, num.natAbs * twoTo ((61 - den.log2 % 61) % 61) % modulus)
    | none => (Double.isNegative x, if x.isNaN then 0 else 314159)
  if !isNegative || size = 0 then size
  else twoTo 64 - (if size = 1 then 2 else size)

/-- The whole number that a seed stands for; nothing stands for none. -/
def number? : Item → Except Fault (Option Int)
  | .scalar .nothing => .ok none
  | .scalar (.int n) => .ok (some n)
  | .scalar (.truth b) => .ok (some (if b then 1 else 0))
  | .scalar (.real x) => .ok (some (ofDouble x))
  | .scalar (.text s) => .ok (some (Digest.seed s))
  | _ => .error .operandType

/-- How a source of random numbers starts, given a seed. -/
def ofSeed (seed : Item) : Except Fault Seeding := do
  return (← number? seed).elim .arbitrary .seed

/-- How a source of random numbers starts: where there is a script, the seed is not looked at. -/
def of (script : Option (List Nat)) (seed : Item) : Except Fault Seeding :=
  match script with
  | some draws => .ok (.script draws)
  | none => ofSeed seed

end Seeding

/-- The settings as they were given. -/
structure Config where
  origin : Item
  tolerance : Tolerance
  seed : Item
  /-- Numbers to be used one by one instead of a generator. -/
  script : Option (List Nat)

namespace Config

/-- Counting from zero, with the usual tolerance, and random numbers from anywhere. -/
def standard : Config := ⟨.int 0, defaultTolerance, .nothing, none⟩

def given (origin tolerance seed : Option Item) (script : Option (List Nat)) : Config :=
  { origin := origin.getD standard.origin
    tolerance := tolerance.getD standard.tolerance
    seed := seed.getD standard.seed
    script := script }

/-- How the source of random numbers starts. The seed has to be one also where there is a script. -/
def seeding (c : Config) : Except Fault Seeding := do
  let start ← Seeding.ofSeed c.seed
  return c.script.elim start .script

def origin? (c : Config) : Option Origin :=
  match c.origin with
  | .scalar s => if s.eq (.int 0) || s.eq (.int 1) then some s else none
  | _ => none

def check (c : Config) : Except Fault Config := do
  if c.origin?.isNone then .error (.domain (.origin c.origin.display))
  else if ← c.tolerance.lt (.int 0) then .error (.domain .tolerance)
  else
    let _ ← c.seeding
    return c

end Config
end LazyApl
