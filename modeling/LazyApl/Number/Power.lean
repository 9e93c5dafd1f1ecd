/-!
# Powers of two and ten

Doubles are scaled by powers of two, and written with powers of ten.
-/

namespace LazyApl

def twoTo (k : Nat) : Nat := Nat.pow 2 k

theorem twoTo_succ (k : Nat) : twoTo (k + 1) = twoTo k * 2 := rfl

theorem twoTo_pos (k : Nat) : 0 < twoTo k := by
  induction k with
  | zero => decide
  | succ k ih => rw [twoTo_succ]; omega

def tenTo (k : Nat) : Nat := Nat.pow 10 k

end LazyApl
