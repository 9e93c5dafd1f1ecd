import LazyApl.Proofs.Positions
import Mathlib.Tactic.LinearCombination
/-!
# The odometer runs through the coordinates in order

One step of the odometer leads from the coordinates of a position to those of the next one, whatever
the origin is from which they are counted. The run from the first position therefore lists the
coordinates of all positions in increasing order.
-/
namespace LazyApl.Shape

variable {s : Shape} {c : List Int} {i : Int}

def countedFrom (o : Int) (c : List Int) : List Int := c.map (· + o)

theorem countedFrom_cons (o x : Int) (c : List Int) :
    countedFrom o (x :: c) = (x + o) :: countedFrom o c := rfl

/-- A step over inner axes leads to the next position, or back to the first one with the size of
these axes carried. -/
theorem Within.exists_carry (h : Within s c) (o : Int) : ∃ d full,
    carry o s (countedFrom o c) = (countedFrom o d, full) ∧ Within s d ∧
      dot c (strides s) + 1 = dot d (strides s) + if full then size s else 0 := by
  induction h with
  | nil => exact ⟨[], true, rfl, within_nil, rfl⟩
  | @cons n x s c hx _ ih =>
      obtain ⟨d, full, hcarry, hd, hdot⟩ := ih
      simp only [countedFrom_cons, carry, hcarry, dot, strides, size_cons]
      cases full with
      | false =>
          refine ⟨x :: d, false, rfl, within_cons.mpr ⟨hx, hd⟩, ?_⟩
          simp only [dot, Bool.false_eq_true, if_false] at hdot ⊢
          omega
      | true =>
          simp only [if_true] at hdot
          by_cases hlast : x + 1 = n
          · refine ⟨0 :: d, true, ?_, within_cons.mpr ⟨by omega, hd⟩, ?_⟩
            · simp only [if_pos (show x + o + 1 = n + o by omega), countedFrom_cons, Int.zero_add]
            · simp only [dot, if_true, ← hlast]
              linear_combination hdot
          · refine ⟨(x + 1) :: d, false, ?_, within_cons.mpr ⟨by omega, hd⟩, ?_⟩
            · simp only [if_neg (show x + o + 1 ≠ n + o by omega), countedFrom_cons,
                Int.add_right_comm]
            · simp only [dot, Bool.false_eq_true, if_false]
              linear_combination hdot

/-- The coordinates after those of a position are those of the next position. -/
theorem advance_coordinates (hs : IsProper s) (hi : 0 ≤ i) (h : i + 1 < size s) (o : Int) :
    advance o s (countedFrom o (coordinates s i)) = countedFrom o (coordinates s (i + 1)) := by
  have hc := coordinates_within hs ⟨hi, by omega⟩
  have hi' := dot_coordinates hs ⟨hi, by omega⟩
  -- it is enough to find coordinates of the next position
  suffices hnext : ∃ d, advance o s (countedFrom o (coordinates s i)) = countedFrom o d ∧
      Within s d ∧ dot d (strides s) = i + 1 by
    obtain ⟨d, hadvance, hd, hdot⟩ := hnext
    rw [hadvance, ← hdot, coordinates_dot hd]
  generalize coordinates s i = c at hc hi'
  cases hc with
  | nil =>
      simp only [dot] at hi'
      simp only [size_nil] at h
      omega
  | @cons n x s c hx hc =>
      obtain ⟨d, full, hcarry, hd, hdot⟩ := Within.exists_carry hc o
      simp only [countedFrom_cons, advance, hcarry]
      simp only [dot, strides, size_cons] at hi' h
      cases full with
      | false =>
          refine ⟨x :: d, rfl, within_cons.mpr ⟨hx, hd⟩, ?_⟩
          simp only [dot, strides, Bool.false_eq_true, if_false] at hdot ⊢
          omega
      | true =>
          simp only [if_true] at hdot
          have hplace : (x + 1) * size s + dot d (strides s) = i + 1 := by
            linear_combination hi' - hdot
          have hfirst : x + 1 < n := by
            have hb := hd.holds
            unfold Holds at hb
            nlinarith
          refine ⟨(x + 1) :: d, ?_, within_cons.mpr ⟨by omega, hd⟩, hplace⟩
          rw [countedFrom_cons, Int.add_right_comm]

theorem map_range_succ {α : Type} (f : Int → α) (i : Int) (k : Nat) :
    ((List.range (k + 1)).map fun (j : Nat) => f (i + j)) =
      f i :: (List.range k).map fun (j : Nat) => f (i + 1 + j) := by
  rw [List.range_succ_eq_map, List.map_cons, List.map_map]
  congr 1
  · simp
  · refine List.map_congr_left fun j _ => ?_
    simp only [Function.comp, Nat.succ_eq_add_one, Nat.cast_add, Nat.cast_one]
    rw [show i + 1 + (j : Int) = i + (j + 1) by ring]

theorem run_coordinates (hs : IsProper s) {k : Nat} (hi : 0 ≤ i) (h : i + k < size s) (o : Int) :
    run o s k (countedFrom o (coordinates s i)) =
      (List.range (k + 1)).map fun (j : Nat) => countedFrom o (coordinates s (i + j)) := by
  induction k generalizing i with
  | zero => simp [run]
  | succ k ih =>
      push_cast at h
      rw [run, advance_coordinates hs hi (by omega), ih (by omega) (by omega),
        map_range_succ (fun i => countedFrom o (coordinates s i)) i (k + 1)]

theorem coordinates_zero (s : Shape) : coordinates s 0 = s.map fun _ => 0 := by
  have hsplit : split s 0 = (0, s.map fun _ => 0) := by
    induction s with
    | nil => rfl
    | cons n s ih =>
        simp only [split, ih, List.map_cons, Int.zero_fdiv, Int.zero_fmod]
        split <;> rfl
  rw [coordinates, hsplit]

/-- The odometer lists the coordinates of all positions in order. -/
theorem odometer_coordinates (hs : IsProper s) (o : Int) :
    odometer s o = (upTo (size s)).map fun i => countedFrom o (coordinates s i) := by
  unfold odometer
  split
  case isTrue h0 => rw [h0]; rfl
  case isFalse h0 =>
    have hsize := size_nonneg hs
    have hstart : (s.map fun _ => o) = countedFrom o (coordinates s 0) := by
      rw [coordinates_zero, countedFrom, List.map_map]
      exact List.map_congr_left fun _ _ => (Int.zero_add o).symm
    have hcount : (size s - 1).toNat + 1 = (size s).toNat := by omega
    rw [hstart, run_coordinates hs le_rfl (by omega), hcount, upTo, List.map_map]
    refine List.map_congr_left fun j _ => ?_
    rw [Int.zero_add]
    rfl

end LazyApl.Shape
