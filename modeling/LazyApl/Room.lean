import LazyApl.Fault
import LazyApl.Number.Power
/-!
# Room

How long a list or a text may get by being repeated. A number of times that does not fit into 64
bits with a sign is refused as too large, even if it is negative; one that fits is refused if the
result would be too long to be held. A number that is not positive leaves nothing.
-/

namespace LazyApl

/-- The length beyond which no list is held. One member can be. -/
structure Room where
  limit : Nat
  pos : 0 < limit

namespace Room

variable {α : Type}

/-- Whether a whole number fits into 64 bits with a sign. -/
def fits (n : Int) : Bool := -(twoTo 63 : Int) ≤ n && n < twoTo 63

/-- The number of times as a length, if so many things of a size have room. -/
def times (room : Room) (size : Nat) (n : Int) : Except Fault Nat :=
  if !fits n then .error .overflow
  else if room.limit < size * n.toNat then .error .noRoom
  else .ok n.toNat

theorem times_eq_ok {room : Room} {size : Nat} {n : Int} (h : size * n.toNat ≤ room.limit)
    (hn : fits n = true) : room.times size n = .ok n.toNat := by
  simp [times, hn, Nat.not_lt.2 h]

def repeated (room : Room) (xs : List α) (n : Int) : Except Fault (List α) := do
  let k ← room.times xs.length n
  return if xs.isEmpty then [] else (List.replicate k xs).flatten

def copies (room : Room) (x : α) (n : Int) : Except Fault (List α) := do
  return List.replicate (← room.times 1 n) x

/-- A text a number of times. One that could never be addressed is too large in itself. -/
def repeatedText (room : Room) (s : String) (n : Int) : Except Fault String :=
  if fits n && !fits (s.length * n.toNat : Nat) then .error .overflow
  else do
    let k ← room.times s.length n
    return if s.isEmpty then "" else String.join (List.replicate k s)

/-- The room that there is beside a list that is held: another one as long has room, too. -/
def beside (room : Room) (held : Nat) : Room :=
  ⟨max room.limit held, Nat.lt_of_lt_of_le room.pos (Nat.le_max_left ..)⟩

/-- The length of a list after so many more things have been put at its end. -/
def grown (room : Room) (length more : Nat) : Except Fault Nat :=
  if room.limit < length + more then .error .noRoom else .ok (length + more)

end Room
end LazyApl
