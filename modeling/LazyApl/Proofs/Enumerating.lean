import LazyApl.Primitive.Where
import LazyApl.Proofs.Odometers
/-!
# The odometer enumerates the cells of an array

Every origin that is a whole number or a truth value gives the same list, up to how such an origin
is written: one entry for each cell, and at each position the coordinates of that position, counted
from the origin. An axis starts with the origin as it was given; every further coordinate is a whole
number.
-/
namespace LazyApl
namespace Where

open Shape

variable {origin : Origin} {o i n : Int} {s : Shape} {c : List Int}

/-- A coordinate counted from an origin, which is the whole number `o` or counts as it. -/
def shown (origin : Origin) (o x : Int) : Scalar := if x = 0 then origin else .int (x + o)

@[simp] theorem shown_zero (origin : Origin) (o : Int) : shown origin o 0 = origin := if_pos rfl

theorem whole?_shown (ho : origin.whole? = some o) (x : Int) :
    (shown origin o x).whole? = some (x + o) := by
  unfold shown
  split
  case isTrue h0 => rw [h0, Int.zero_add, ho]
  case isFalse => rfl

@[simp] theorem shown_int (o x : Int) : shown (.int o) o x = .int (x + o) := by
  unfold shown
  split
  case isTrue h0 => rw [h0, Int.zero_add]
  case isFalse => rfl

theorem number_of_whole? {a : Scalar} (h : a.whole? = some n) : a.number = .ok (.int n) := by
  cases a with
  | int m => rw [Scalar.number_int, Option.some.inj h]
  | truth b =>
      rw [← Option.some.inj h]
      rfl
  | _ => cases h

theorem count_shown (ho : origin.whole? = some o) {x : Int} (hx : 0 ≤ x) :
    (shown origin o x).count 1 = .ok (shown origin o (x + 1)) := by
  have hnext : shown origin o (x + 1) = .int (x + 1 + o) := if_neg (by omega)
  have hnumber := number_of_whole? (whole?_shown ho x)
  rw [Scalar.count, hnumber, hnext]
  simp only [bind, Except.bind, pure, Except.pure, Number.ofNat_eq, Number.add_int, Number.scalar]
  congr 2
  omega

theorem count_eq_end (ho : origin.whole? = some o) (n : Int) :
    origin.count n = .ok (.int (n + o)) := by
  rw [Scalar.count, number_of_whole? ho]
  rfl

/-- A step over inner axes does the same whatever the origin is. -/
theorem exists_carry (ho : origin.whole? = some o) (h : Within s c) : ∃ d full,
    Shape.carry o s (countedFrom o c) = (countedFrom o d, full) ∧
      carry origin s (c.map (shown origin o)) = .ok (d.map (shown origin o), full) := by
  induction h with
  | nil => exact ⟨[], true, rfl, rfl⟩
  | @cons n x s c hx _ ih =>
      obtain ⟨d, full, hwhole, hcarry⟩ := ih
      simp only [List.map_cons, countedFrom_cons, Shape.carry, carry, hwhole, hcarry]
      cases full with
      | false => exact ⟨x :: d, false, rfl, rfl⟩
      | true =>
          have hnext : shown origin o (x + 1) = .int (x + 1 + o) := if_neg (by omega)
          have hend : (shown origin o (x + 1)).eq (.int (n + o)) = decide (x + o + 1 = n + o) := by
            rw [hnext, Int.add_right_comm]
            rfl
          simp only [bind, Except.bind, pure, Except.pure, if_true, count_shown ho hx.1,
            count_eq_end ho, hend, decide_eq_true_eq]
          by_cases hlast : x + o + 1 = n + o
          · refine ⟨0 :: d, true, ?_, ?_⟩
            · rw [if_pos hlast, countedFrom_cons, Int.zero_add]
            · rw [if_pos hlast, List.map_cons, shown_zero]
          · refine ⟨(x + 1) :: d, false, ?_, ?_⟩
            · rw [if_neg hlast, countedFrom_cons, Int.add_right_comm]
            · rw [if_neg hlast, List.map_cons]

/-- The coordinates after those of a position are those of the next one, as they are shown. -/
theorem advance_shown (ho : origin.whole? = some o) (hs : IsProper s) (hi : 0 ≤ i)
    (h : i + 1 < s.size) : advance origin s ((s.coordinates i).map (shown origin o)) =
      .ok ((s.coordinates (i + 1)).map (shown origin o)) := by
  have hwhole := advance_coordinates hs hi h o
  have hc := coordinates_within hs ⟨hi, by omega⟩
  have hinj {c d : List Int} (h : countedFrom o c = countedFrom o d) : c = d :=
    List.map_injective_iff.mpr (add_left_injective o) h
  generalize s.coordinates i = c at hc hwhole
  generalize s.coordinates (i + 1) = d at hwhole
  cases hc with
  | nil =>
      obtain rfl : [] = d := hinj hwhole
      rfl
  | @cons n x s c hx hc =>
      obtain ⟨e, full, hcarry, hshown⟩ := exists_carry ho hc
      simp only [countedFrom_cons, Shape.advance, hcarry] at hwhole
      simp only [List.map_cons, advance, hshown, bind, Except.bind, pure, Except.pure]
      cases full with
      | false =>
          obtain rfl : x :: e = d := hinj hwhole
          rfl
      | true =>
          obtain rfl : (x + 1) :: e = d := hinj <| by
            rw [countedFrom_cons, ← hwhole, Int.add_right_comm]
          rw [if_pos rfl, count_shown ho hx.1]
          rfl

theorem run_shown (ho : origin.whole? = some o) (hs : IsProper s) {k : Nat} (hi : 0 ≤ i)
    (h : i + k < s.size) : run origin s k ((s.coordinates i).map (shown origin o)) =
      .ok ((List.range (k + 1)).map fun (j : Nat) =>
        (s.coordinates (i + j)).map (shown origin o)) := by
  induction k generalizing i with
  | zero => simp [run]
  | succ k ih =>
      push_cast at h
      have hrest := ih (by omega) (show i + 1 + k < s.size by omega)
      rw [run, advance_shown ho hs hi (by omega),
        map_range_succ (fun i => (s.coordinates i).map (shown origin o))]
      simp only [bind, Except.bind, pure, Except.pure, hrest]

/-- The odometer shows the coordinates of all positions in order. -/
theorem odometer_shown (ho : origin.whole? = some o) (hs : IsProper s) :
    odometer s origin =
      .ok ((upTo s.size).map fun i => (s.coordinates i).map (shown origin o)) := by
  unfold odometer
  split
  case h_1 o' =>
    obtain rfl : o' = o := Option.some.inj ho
    have hshown : shown (.int o') o' = fun x => .int (x + o') := funext (shown_int o')
    rw [odometer_coordinates hs, List.map_map, hshown]
    refine congrArg Except.ok (List.map_congr_left fun i _ => ?_)
    rw [Function.comp, countedFrom, List.map_map]
    rfl
  case h_2 =>
    split
    case isTrue h0 =>
      rw [h0]
      rfl
    case isFalse h0 =>
      have hsize := size_nonneg hs
      have hstart : (s.map fun _ => origin) = (s.coordinates 0).map (shown origin o) := by
        rw [coordinates_zero, List.map_map]
        exact List.map_congr_left fun _ _ => (shown_zero origin o).symm
      have hcount : (s.size - 1).toNat + 1 = s.size.toNat := by omega
      rw [hstart, run_shown ho hs le_rfl (by omega), hcount, upTo, List.map_map]
      refine congrArg Except.ok (List.map_congr_left fun j _ => ?_)
      rw [Int.zero_add]
      rfl

/-- The odometer has one entry for each cell. The entry at a position is the list of its
coordinates, with the origin added to each. -/
theorem odometer_enumerates (ho : origin.whole? = some o) (hs : IsProper s) :
    ∃ cs, odometer s origin = .ok cs ∧ (cs.length : Int) = s.size ∧
      (∀ i, s.Holds i → cs[i.toNat]? = some ((s.coordinates i).map (shown origin o))) ∧
      ∀ x, (shown origin o x).whole? = some (x + o) := by
  refine ⟨_, odometer_shown ho hs, ?_, fun i hi => ?_, whole?_shown ho⟩
  · rw [List.length_map, length_upTo]
    exact Int.toNat_of_nonneg (size_nonneg hs)
  · obtain ⟨h0, hlt⟩ := hi
    have hplace : (upTo s.size)[i.toNat]? = some i := by
      rw [upTo, List.getElem?_map, List.getElem?_range (by omega)]
      exact congrArg some (Int.toNat_of_nonneg h0)
    rw [List.getElem?_map, hplace, Option.map_some]

/-- Both axes of two rows of two, with an axis of one cell between them, start anew in the third
entry. The origin is a truth value and is shown as such. -/
theorem truth_odometer_enumerates :
    (Scalar.truth true).whole? = some 1 ∧ IsProper [2, 1, 2] ∧
      ∃ cs, odometer [2, 1, 2] (.truth true) = .ok cs ∧ cs.length = 4 ∧
        cs[2]? = some [.int 2, .truth true, .truth true] := by
  have hs : IsProper [2, 1, 2] := by
    unfold IsProper
    decide
  have ho : (Scalar.truth true).whole? = some 1 := rfl
  obtain ⟨cs, hcs, hlen, hentry, _⟩ := odometer_enumerates ho hs
  refine ⟨ho, hs, cs, hcs, Int.ofNat.inj hlen, ?_⟩
  rw [show cs[2]? = cs[(2 : Int).toNat]? from rfl, hentry 2 (by decide)]
  rfl

end Where
end LazyApl
