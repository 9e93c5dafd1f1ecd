import LazyApl.Number.Power
/-!
# Digests

The digest of a text of bytes: 512 bits that depend on every byte of it. The bytes are padded to
whole blocks, and the blocks go one after the other into a state of eight words, each in eighty
rounds. The words that the state starts with and those that the rounds mix in are the fractions of
roots of the first primes, cut off after 64 bits, so that nothing has to be written down in a table.
-/

namespace LazyApl

/-- The state that the blocks go into. -/
structure Digest where
  a : UInt64
  b : UInt64
  c : UInt64
  d : UInt64
  e : UInt64
  f : UInt64
  g : UInt64
  h : UInt64
  deriving DecidableEq, Repr

namespace Digest

def isPrime (n : Nat) : Bool := 2 ≤ n && (List.range n).all fun d => d < 2 || n % d != 0

def primes : List Nat := (List.range 410).filter isPrime

/-- The greatest number that fits, found bit by bit below a power of two. -/
def greatest (fits : Nat → Bool) : Nat → Nat → Nat
  | 0, r => r
  | bit + 1, r =>
    let s := r + twoTo bit
    greatest fits bit (if fits s then s else r)

/-- The first 64 bits of the fraction of the square root of a number less than `2 ^ 16`. -/
def squareRoot (n : Nat) : UInt64 :=
  UInt64.ofNat (greatest (fun s => s * s ≤ n * twoTo 128) 72 0)

/-- The first 64 bits of the fraction of the cube root of a number less than `2 ^ 24`. -/
def cubeRoot (n : Nat) : UInt64 :=
  UInt64.ofNat (greatest (fun s => s * s * s ≤ n * twoTo 192) 72 0)

def roundWords : List UInt64 := primes.map cubeRoot

def initial : Digest :=
  let w (k : Nat) := squareRoot (primes.getD k 0)
  ⟨w 0, w 1, w 2, w 3, w 4, w 5, w 6, w 7⟩

/-- A word with its bits moved down, where those that fall off come in at the top. -/
def turned (x : UInt64) (k : UInt64) : UInt64 := (x >>> k) ||| (x <<< (64 - k))

/-- The words of a block, and further words made from them. -/
def schedule : Nat → Array UInt64 → Array UInt64
  | 0, w => w
  | steps + 1, w =>
    let back (k : Nat) := w.getD (w.size - k) 0
    let x := back 15
    let y := back 2
    let lower := turned x 1 ^^^ turned x 8 ^^^ (x >>> 7)
    let upper := turned y 19 ^^^ turned y 61 ^^^ (y >>> 6)
    schedule steps (w.push (back 16 + lower + back 7 + upper))

def round (s : Digest) (mixed : UInt64) : Digest :=
  let upper := turned s.e 14 ^^^ turned s.e 18 ^^^ turned s.e 41
  let choice := (s.e &&& s.f) ^^^ (~~~s.e &&& s.g)
  let first := s.h + upper + choice + mixed
  let lower := turned s.a 28 ^^^ turned s.a 34 ^^^ turned s.a 39
  let majority := (s.a &&& s.b) ^^^ (s.a &&& s.c) ^^^ (s.b &&& s.c)
  ⟨first + lower + majority, s.a, s.b, s.c, s.d + first, s.e, s.f, s.g⟩

def plus (s t : Digest) : Digest :=
  ⟨s.a + t.a, s.b + t.b, s.c + t.c, s.d + t.d, s.e + t.e, s.f + t.f, s.g + t.g, s.h + t.h⟩

def block (s : Digest) (words : Array UInt64) : Digest :=
  let mixed := List.zipWith (· + ·) roundWords (schedule 64 words).toList
  s.plus (mixed.foldl round s)

/-- The number that bytes stand for, the most significant byte first. -/
def number (bytes : List UInt8) : Nat := bytes.foldl (fun n b => n * 256 + b.toNat) 0

/-- The bytes of a number, the most significant byte first. -/
def bytesOf : Nat → Nat → List UInt8
  | 0, _ => []
  | k + 1, n => bytesOf k (n / 256) ++ [UInt8.ofNat n]

/-- The number of zeros that fill the last block, given the number of bytes. -/
def filling (length : Nat) : Nat := (239 - length % 128) % 128

/-- Bytes padded to whole blocks: by a mark, by zeros, and by their number of bits. -/
def padded (bytes : List UInt8) : List UInt8 :=
  bytes ++ 128 :: List.replicate (filling bytes.length) 0 ++ bytesOf 16 (8 * bytes.length)

def wordAt (bytes : Array UInt8) (i : Nat) : UInt64 :=
  (List.range 8).foldl (fun w k => (w <<< 8) ||| (bytes.getD (8 * i + k) 0).toUInt64) 0

def ofBytes (bytes : List UInt8) : Digest :=
  let all := (padded bytes).toArray
  (List.range (all.size / 128)).foldl
    (fun s j => s.block ((Array.range 16).map fun k => wordAt all (16 * j + k))) initial

/-- The number that the words of a state make up, the first one the most significant. -/
def toNat (s : Digest) : Nat :=
  [s.a, s.b, s.c, s.d, s.e, s.f, s.g, s.h].foldl (fun n w => n * twoTo 64 + w.toNat) 0

/-- The number that a text stands for as a seed: its bytes, followed by their digest. -/
def seed (s : String) : Nat :=
  let bytes := s.toUTF8.toList
  number bytes * twoTo 512 + (ofBytes bytes).toNat

end Digest
end LazyApl
