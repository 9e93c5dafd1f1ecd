import LazyApl.Number.Power
/-!
# The Mersenne twister

A generator of 32-bit words with a state of 624 words, seeded from a list of words. Each time the
state is used up it is twisted as a whole; every word is tempered when it is given out.
-/

namespace LazyApl

/-- The state words, and how many of them have been given out. -/
structure Twister where
  words : Array UInt32
  used : Nat

namespace Twister

def length : Nat := 624

def middle : Nat := 397

def word (words : Array UInt32) (i : Nat) : UInt32 := words.getD (i % length) 0

/-- The words of a linear recurrence that starts with the given one. -/
def linear : Nat → UInt32 → Nat → List UInt32
  | 0, _, _ => []
  | k + 1, w, i =>
    w :: linear k ((1812433253 : UInt32) * (w ^^^ (w >>> 30)) + UInt32.ofNat (i + 1)) (i + 1)

def ofNumber (n : UInt32) : Array UInt32 := (linear length n 0).toArray

/-- The position after another one; past the end it goes back to 1, and the last word is copied to
the front. -/
def forward (words : Array UInt32) (i : Nat) : Array UInt32 × Nat :=
  if length ≤ i + 1 then (words.setIfInBounds 0 (word words (length - 1)), 1) else (words, i + 1)

def mixKey (key : Array UInt32) : Nat → Array UInt32 → Nat → Nat → Array UInt32 × Nat
  | 0, words, i, _ => (words, i)
  | steps + 1, words, i, j =>
    let before := word words (i - 1)
    let mixed := (word words i ^^^ ((before ^^^ (before >>> 30)) * 1664525)) +
      key.getD j 0 + UInt32.ofNat j
    let (words, i) := forward (words.setIfInBounds i mixed) i
    mixKey key steps words i (if key.size ≤ j + 1 then 0 else j + 1)

def mixPositions : Nat → Array UInt32 → Nat → Array UInt32
  | 0, words, _ => words
  | steps + 1, words, i =>
    let before := word words (i - 1)
    let mixed := (word words i ^^^ ((before ^^^ (before >>> 30)) * 1566083941)) - UInt32.ofNat i
    let (words, i) := forward (words.setIfInBounds i mixed) i
    mixPositions steps words i

def ofKey (key : Array UInt32) : Twister :=
  let (words, i) := mixKey key (max length key.size) (ofNumber 19650218) 1 0
  let words := mixPositions (length - 1) words i
  ⟨words.setIfInBounds 0 0x80000000, length⟩

/-- The 32-bit words of a number, least significant first. -/
def wordsOf : Nat → Nat → List UInt32
  | 0, _ => []
  | _, 0 => []
  | steps + 1, n => UInt32.ofNat n :: wordsOf steps (n / twoTo 32)

def ofSeed (seed : Int) : Twister :=
  let n := seed.natAbs
  ofKey (if n = 0 then #[0] else (wordsOf (n.log2 + 1) n).toArray)

def twistFrom : Nat → Nat → Array UInt32 → Array UInt32
  | 0, _, words => words
  | steps + 1, i, words =>
    let y := (word words i &&& 0x80000000) ||| (word words (i + 1) &&& 0x7fffffff)
    let mixed := word words (i + middle) ^^^ (y >>> 1) ^^^ (if y &&& 1 = 1 then 0x9908b0df else 0)
    twistFrom steps (i + 1) (words.setIfInBounds i mixed)

def temper (y : UInt32) : UInt32 :=
  let y := y ^^^ (y >>> 11)
  let y := y ^^^ ((y <<< 7) &&& 0x9d2c5680)
  let y := y ^^^ ((y <<< 15) &&& 0xefc60000)
  y ^^^ (y >>> 18)

def next (t : Twister) : Nat × Twister :=
  let t := if length ≤ t.used then ⟨twistFrom length 0 t.words, 0⟩ else t
  ((temper (word t.words t.used)).toNat, { t with used := t.used + 1 })

/-- A number of the given count of bits, from whole words with the least significant first; the last
word gives its upper bits. -/
def bits : Nat → Nat → Twister → Nat × Twister
  | 0, _, t => (0, t)
  | fuel + 1, k, t =>
    if k = 0 then (0, t)
    else
      let (w, t) := t.next
      if k ≤ 32 then (w >>> (32 - k), t)
      else
        let (rest, t) := bits fuel (k - 32) t
        (w + rest * twoTo 32, t)

/-- Numbers of some bits until one is below the bound; after very many misses a remainder. -/
def belowWith (bound k : Nat) : Nat → Twister → Nat × Twister
  | 0, t =>
    let (r, t) := bits (k / 32 + 1) k t
    (r % bound, t)
  | tries + 1, t =>
    let (r, t) := bits (k / 32 + 1) k t
    if r < bound then (r, t) else belowWith bound k tries t

def below (t : Twister) (bound : Nat) : Nat × Twister :=
  belowWith bound (bound.log2 + 1) 10000 t

def fraction (t : Twister) : Nat × Twister :=
  let (a, t) := t.next
  let (b, t) := t.next
  ((a >>> 5) * 67108864 + (b >>> 6), t)

end Twister
end LazyApl
