import LazyApl.Platform.Usual
import LazyApl.Primitive.Radix
import LazyApl.Proofs.Buffers
import LazyApl.Proofs.Contents
import LazyApl.Proofs.Rooms
import Mathlib.Algebra.BigOperators.Ring.List
import Mathlib.Data.List.GetD
import Mathlib.Tactic.IntervalCases
/-!
# Encoding and decoding whole numbers

The digits of a whole number and what is left of it add up to the number again, whatever the
radices. Nothing is left if a radix is zero, and otherwise a multiple of the product of the radices
is. Digits in range are a normal form: they are the digits of the number that they make up. Where
the radices are the extents of an array, digits are coordinates, and the number is a position.
Between arrays, encoding lays out the digits of all values place by place, which is how decoding
picks them up again.
-/

namespace LazyApl

open Outcome

theorem Outcome.anyM_of_forall {α : Type} {f : α → Except Fault Bool} {xs : List α}
    (h : ∀ x ∈ xs, f x = .ok false) : xs.anyM f = .ok false := by
  induction xs with
  | nil => rfl
  | cons x xs ih =>
      obtain ⟨hx, hxs⟩ := List.forall_mem_cons.mp h
      simp only [List.anyM_cons, hx, bind, Except.bind]
      exact ih hxs

namespace Radix

/-- What is left of a whole number above its digits, and the digits. -/
def digits : List Int → Int → Int × List Int
  | [], v => (v, [])
  | r :: rs, v =>
    let (q, ds) := digits rs v
    if r = 0 then (0, q :: ds) else (q.fdiv r, q.fmod r :: ds)

theorem length_digits (rs : List Int) (v : Int) : (digits rs v).2.length = rs.length := by
  induction rs with
  | nil => rfl
  | cons r rs ih =>
      simp only [digits]
      split <;> simp [ih]

section

variable [Platform]

theorem split_ints (rs : List Int) (v : Int) :
    split (rs.map Item.int) (.int v) =
      .ok (.int (digits rs v).1, (digits rs v).2.map Item.int) := by
  induction rs with
  | nil => rfl
  | cons r rs ih =>
      have hzero : (Item.int r).isZero = (r == 0) := rfl
      rw [List.map_cons, split, ih, digits]
      simp only [bind, Except.bind, hzero, beq_iff_eq]
      by_cases hr : r = 0
      · simp only [if_pos hr]
        rfl
      · have hmod : (Item.int (digits rs v).1).mod (.int r) =
            .ok (.int ((digits rs v).1.fmod r)) := by
          simp [Item.mod, Item.withNumbers, Number.mod, Number.pair, hr, bind, Except.bind, pure,
            Except.pure]
        -- the digit has been taken off before the division, which comes to the same
        have hquotient : (digits rs v).1 - (digits rs v).1.fmod r =
            (digits rs v).1.fdiv r * r := by
          have := Int.mul_fdiv_add_fmod (digits rs v).1 r
          rw [Int.mul_comm] at this
          omega
        simp only [if_neg hr, hmod, quotient, hquotient, pure, Except.pure,
          Int.mul_fdiv_cancel _ hr, List.map_cons]

theorem encode_ints (rs : List Int) (v : Int) :
    encode (rs.map Item.int) (.int v) = .ok ((digits rs v).2.map Item.int) := by
  rw [encode, split_ints]
  rfl

theorem weights_ints (rs : List Int) :
    weights (rs.map Item.int) = .ok ((Shape.strides rs).map Item.int) := by
  induction rs with
  | nil => rfl
  | cons r rs ih =>
      cases rs with
      | nil => rfl
      | cons r' rs =>
          simp only [List.map_cons] at ih ⊢
          have hmul : (Item.int (Shape.size rs)).mul (.int r') =
              .ok (.int (Shape.size rs * r')) := rfl
          rw [weights, ih]
          simp only [Shape.strides, List.map_cons, bind, Except.bind, hmul, pure, Except.pure,
            Shape.size_cons, Int.mul_comm]

theorem total_ints (acc : Int) (ds ws : List Int) :
    total (.int acc) (ds.map Item.int) (ws.map Item.int) =
      .ok (.int (acc + Shape.dot ds ws)) := by
  induction ds generalizing acc ws with
  | nil => simp [total, Shape.dot]
  | cons d ds ih =>
      cases ws with
      | nil => simp [total, Shape.dot]
      | cons w ws =>
          refine (ih (acc + d * w) ws).trans ?_
          rw [Shape.dot, Int.add_assoc]

theorem decode_ints (rs ds : List Int) :
    decode (rs.map Item.int) (ds.map Item.int) = .ok (.int (Shape.dot ds (Shape.strides rs))) := by
  rw [decode, weights_ints]
  refine (total_ints 0 ds (Shape.strides rs)).trans ?_
  rw [Int.zero_add]

end

theorem digits_spec (rs : List Int) (v : Int) :
    v = (digits rs v).1 * Shape.size rs + Shape.dot (digits rs v).2 (Shape.strides rs) := by
  induction rs with
  | nil => simp [digits, Shape.dot]
  | cons r rs ih =>
      simp only [digits]
      by_cases hr : r = 0
      · simp only [if_pos hr, Shape.strides, Shape.dot]
        omega
      · simp only [if_neg hr, Shape.strides, Shape.dot, Shape.size_cons]
        calc v = (digits rs v).1 * Shape.size rs +
                Shape.dot (digits rs v).2 (Shape.strides rs) := ih
          _ = (r * (digits rs v).1.fdiv r + (digits rs v).1.fmod r) * Shape.size rs +
                Shape.dot (digits rs v).2 (Shape.strides rs) := by
              rw [Int.mul_fdiv_add_fmod]
          _ = (digits rs v).1.fdiv r * (r * Shape.size rs) +
                ((digits rs v).1.fmod r * Shape.size rs +
                  Shape.dot (digits rs v).2 (Shape.strides rs)) := by
              ring

theorem within_digits {rs : List Int} (h : ∀ r ∈ rs, 0 < r) (v : Int) :
    Shape.Within rs (digits rs v).2 := by
  induction rs with
  | nil => exact Shape.within_nil
  | cons r rs ih =>
      obtain ⟨hr, hrs⟩ := List.forall_mem_cons.mp h
      simp only [digits, if_neg hr.ne']
      exact Shape.within_cons.mpr
        ⟨⟨Int.fmod_nonneg_of_pos _ hr, Int.fmod_lt_of_pos _ hr⟩, ih hrs⟩

theorem size_eq_prod (rs : List Int) : Shape.size rs = rs.prod := by
  induction rs with
  | nil => rfl
  | cons r rs ih => rw [Shape.size_cons, List.prod_cons, ih]

/-- What decoding makes of the digits of a whole number. -/
def restored (rs : List Int) (v : Int) : Int := if 0 ∈ rs then v else v.fmod rs.prod

theorem dot_digits {rs : List Int} (h : ∀ r ∈ rs, 0 ≤ r) (v : Int) :
    Shape.dot (digits rs v).2 (Shape.strides rs) = restored rs v := by
  have hv := digits_spec rs v
  rw [size_eq_prod] at hv
  unfold restored
  split
  case isTrue h0 =>
    rw [List.prod_eq_zero h0] at hv
    omega
  case isFalse h0 =>
    have hpos : ∀ r ∈ rs, 0 < r := fun r hr =>
      lt_of_le_of_ne (h r hr) fun hr0 => h0 (hr0 ▸ hr)
    have hwithin := (within_digits hpos v).holds
    rw [Shape.Holds, size_eq_prod] at hwithin
    rw [Int.fmod_eq_emod_of_nonneg _ (by omega)]
    conv_rhs => rw [hv]
    rw [Int.add_comm, Int.add_mul_emod_self_right]
    exact (Int.emod_eq_of_lt hwithin.1 hwithin.2).symm

/-- One digit for each radix. A digit of a positive radix is below it, and that of a radix of zero
may be any number. -/
def IsNormal (rs ds : List Int) : Prop := List.Forall₂ (fun r d => 0 < r → 0 ≤ d ∧ d < r) rs ds

theorem isNormal_digits (rs : List Int) (v : Int) : IsNormal rs (digits rs v).2 := by
  induction rs with
  | nil => exact .nil
  | cons r rs ih =>
      simp only [digits]
      by_cases hr : r = 0
      · rw [if_pos hr]
        exact .cons (fun hpos => absurd hr hpos.ne') ih
      · rw [if_neg hr]
        exact .cons (fun hpos => ⟨Int.fmod_nonneg_of_pos _ hpos, Int.fmod_lt_of_pos _ hpos⟩) ih

theorem restored_of_holds {rs : List Int} {v : Int} (h : Shape.Holds rs v) : restored rs v = v := by
  unfold restored
  split
  case isTrue => rfl
  case isFalse =>
    rw [Shape.Holds, size_eq_prod] at h
    exact Int.fmod_eq_of_lt h.1 h.2

theorem digits_dot {rs ds : List Int} (h : Shape.Within rs ds) :
    (digits rs (Shape.dot ds (Shape.strides rs))).2 = ds := by
  refine (within_digits h.extent_pos _).dot_inj h ?_
  rw [dot_digits fun r hr => (h.extent_pos r hr).le, restored_of_holds h.holds]

/-- The digits of any whole number are normal and decode to it, modulo the product of the radices
unless one of them is zero. Conversely digits in range decode to a number below the product of the
radices, of which they are the digits. -/
theorem normal_form [Platform] {rs : List Int} (h : ∀ r ∈ rs, 0 ≤ r) :
    (∀ v, ∃ ds, encode (rs.map Item.int) (.int v) = .ok (ds.map Item.int) ∧ IsNormal rs ds ∧
      decode (rs.map Item.int) (ds.map Item.int) = .ok (.int (restored rs v))) ∧
    ∀ ds, Shape.Within rs ds → ∃ v, Shape.Holds rs v ∧
      decode (rs.map Item.int) (ds.map Item.int) = .ok (.int v) ∧
      encode (rs.map Item.int) (.int v) = .ok (ds.map Item.int) := by
  constructor
  · intro v
    refine ⟨(digits rs v).2, encode_ints rs v, isNormal_digits rs v, ?_⟩
    rw [decode_ints, dot_digits h]
  · intro ds hds
    refine ⟨_, hds.holds, decode_ints rs ds, ?_⟩
    rw [encode_ints, digits_dot hds]

open scoped Usual in
/-- A number before zero keeps its value if the number of days is not limited, and hours and minutes
in range are found again. -/
theorem daysHoursMinutes_normal_form :
    (∃ ds, encode (([0, 24, 60] : List Int).map Item.int) (.int (-1)) = .ok (ds.map Item.int) ∧
      IsNormal [0, 24, 60] ds ∧
      decode (([0, 24, 60] : List Int).map Item.int) (ds.map Item.int) = .ok (.int (-1))) ∧
    ∃ v, Shape.Holds [24, 60] v ∧
      decode (([24, 60] : List Int).map Item.int) (([23, 59] : List Int).map Item.int) =
        .ok (.int v) ∧
      encode (([24, 60] : List Int).map Item.int) (.int v) =
        .ok (([23, 59] : List Int).map Item.int) :=
  ⟨(normal_form (by decide)).1 (-1), (normal_form (by decide)).2 [23, 59] (by decide)⟩

theorem digits_eq_split {rs : List Int} (h : ∀ r ∈ rs, r ≠ 0) (v : Int) :
    digits rs v = Shape.split rs v := by
  induction rs with
  | nil => rfl
  | cons r rs ih =>
      obtain ⟨hr, hrs⟩ := List.forall_mem_cons.mp h
      simp only [digits, Shape.split, ih hrs, if_neg hr]

/-- An array of positive extents finds the coordinates of a position, in range or not, as the digits
of that number in its extents. For any extents the position of coordinates, one along each axis, is
the value of them as digits. -/
theorem agrees_with_positions [Platform] :
    (∀ s : Shape, (∀ n ∈ s, 0 < n) → ∀ i : Int, ∃ c : List Int,
      Extents.coordinates (.ofShape s) (.int i) = .ok (c.map Number.int) ∧
      encode (s.map Item.int) (.int i) = .ok (c.map Item.int)) ∧
    ∀ s c : List Int, c.length = s.length → ∃ v : Int,
      Extents.position (.ofShape s) (c.map Number.int) = .ok (.int v) ∧
      decode (s.map Item.int) (c.map Item.int) = .ok (.int v) := by
  constructor
  · intro s hs i
    refine ⟨Shape.coordinates s i, Extents.coordinates_ofShape s i, ?_⟩
    rw [encode_ints, digits_eq_split fun n hn => (hs n hn).ne']
    rfl
  · intro s c hc
    refine ⟨Shape.position s c, Extents.position_ofShape s c, ?_⟩
    rw [decode_ints, Shape.position_eq_dot hc]

open scoped Usual in
/-- A position before the first one has coordinates all the same, and coordinates along an axis of
extent zero and one of negative extent have a position. -/
theorem stray_agrees_with_positions :
    (∃ c : List Int, Extents.coordinates (.ofShape [24, 60]) (.int (-1)) = .ok (c.map Number.int) ∧
      encode (([24, 60] : Shape).map Item.int) (.int (-1)) = .ok (c.map Item.int)) ∧
    ∃ v : Int,
      Extents.position (.ofShape [2, 0, -3]) (([1, -5, 7] : List Int).map Number.int) =
        .ok (.int v) ∧
      decode (([2, 0, -3] : List Int).map Item.int) (([1, -5, 7] : List Int).map Item.int) =
        .ok (.int v) :=
  ⟨agrees_with_positions.1 [24, 60] (by decide) (-1),
    agrees_with_positions.2 [2, 0, -3] [1, -5, 7] rfl⟩

end Radix

namespace View

/-- The array has whole extents, and its items are whole numbers. -/
structure HasInts (v : View Item) (s : Shape) (ns : List Int) : Prop where
  proper : s.IsProper
  length_eq : (ns.length : Int) = s.size
  shape : v.shape = .ok (.ofShape s)
  items : (Item.view v).items = .ok (ns.map Item.int)

/-- The array has whole extents and offers items that are whole numbers. -/
structure OffersInts (v : View Item) (s : Shape) (ns : List Int) : Prop where
  proper : s.IsProper
  length_eq : (ns.length : Int) = s.size
  offers : v.Offers s fun i => .int (ns.getD i.toNat 0)

/-- The array has whole extents and hands out cells that are whole numbers. -/
structure HandsOutInts (v : View Item) (s : Shape) (ns : List Int) : Prop where
  proper : s.IsProper
  length_eq : (ns.length : Int) = s.size
  shape : v.shape = .ok (.ofShape s)
  cells : ∃ gen, v.generator = .ok gen ∧
    ∀ i, s.Holds i → gen.cell (.int i) = .ok (.int (ns.getD i.toNat 0))

variable {v : View Item} {s : Shape} {ns : List Int}

theorem OffersInts.hasInts (h : v.OffersInts s ns) : v.HasInts s ns := by
  refine ⟨h.proper, h.length_eq, h.offers.shape, ?_⟩
  rw [Item.items_of_offers h.offers]
  conv_rhs => rw [← map_getD_upTo ns 0 h.length_eq, List.map_map]
  rfl

theorem HandsOutInts.offersInts (h : v.HandsOutInts s ns) (he : ∃ e, v.etype = .ok e) :
    v.OffersInts s ns := by
  obtain ⟨gen, hgen, hcell⟩ := h.cells
  refine ⟨h.proper, h.length_eq, h.shape, he, gen, hgen, fun i hi => ?_⟩
  rw [hcell i hi]
  rfl

theorem HandsOutInts.hasInts (h : v.HandsOutInts s ns) : v.HasInts s ns := by
  obtain ⟨gen, hgen, hcell⟩ := h.cells
  refine ⟨h.proper, h.length_eq, h.shape, ?_⟩
  rw [Item.items_of_cells (f := fun i => .int (ns.getD i.toNat 0)) h.shape hgen fun i hi => by
    rw [hcell i hi]
    rfl]
  conv_rhs => rw [← map_getD_upTo ns 0 h.length_eq, List.map_map]
  rfl

theorem exists_cells_ofInts (hl : (ns.length : Int) = s.size) :
    ∃ gen, (ofGrid ⟨s, ns.map Item.int, none⟩).generator = .ok gen ∧
      ∀ i, s.Holds i → gen.cell (.int i) = .ok (.int (ns.getD i.toNat 0)) := by
  cases s with
  | nil =>
      obtain ⟨n, rfl⟩ : ∃ n, ns = [n] := List.length_eq_one_iff.mp (by simpa using hl)
      refine ⟨_, rfl, fun i hi => ?_⟩
      obtain rfl : i = 0 := by
        have hi : 0 ≤ i ∧ i < 1 := hi
        omega
      rfl
  | cons d s =>
      refine ⟨_, rfl, fun i hi => ?_⟩
      have hlt : i.toNat < ns.length := by
        unfold Shape.Holds at hi
        omega
      rw [Gen.cell_indexed, pickBy_int, pickAt_ok hi.1, List.getElem?_map,
        List.getElem?_eq_getElem hlt, List.getD_eq_getElem _ _ hlt]
      rfl

theorem offersInts_ofGrid (ns : List Int) (hs : s.IsProper) (hl : (ns.length : Int) = s.size) :
    (ofGrid ⟨s, ns.map Item.int, none⟩).OffersInts s ns := by
  obtain ⟨gen, hgen, hcell⟩ := exists_cells_ofInts hl
  refine ⟨hs, hl, rfl, ⟨_, rfl⟩, gen, hgen, fun i hi => ?_⟩
  rw [hcell i hi]
  rfl

theorem handsOutInts_ofGrid (ns : List Int) (hs : s.IsProper) (hl : (ns.length : Int) = s.size) :
    (ofGrid ⟨s, ns.map Item.int, none⟩).HandsOutInts s ns :=
  ⟨hs, hl, rfl, exists_cells_ofInts hl⟩

theorem HasInts.numbers (h : v.HasInts s ns) : (Item.view v).numbers = .ok (ns.map Item.int) := by
  rw [Item.numbers, h.items]
  refine (mapM_ok (g := id) fun x hx => ?_).trans (by simp)
  obtain ⟨n, -, rfl⟩ := List.mem_map.mp hx
  rfl

theorem OffersInts.render (h : v.OffersInts s ns) (hready : v.IsReady) (hne : ¬ ∃ g, v = ofGrid g)
    (hfill : v.prototype = .ok (.int 0)) :
    (Item.view v).render = .ok (.array ⟨s, ns.map Item.int,
      if s.size = 0 then some (.int 0) else none⟩) := by
  obtain ⟨e, he⟩ := h.offers.etype
  have hstored : ((ns.map Item.int).map (Item.countedFor e.kind)).map Item.stored =
      ns.map Item.int := by
    rw [List.map_map, List.map_map]
    refine List.map_congr_left fun n _ => ?_
    have hn : (Item.int n).countedFor e.kind = .int n := Item.countedFor_eq_self (by simp) _
    exact congrArg Item.stored hn
  rw [render_eq hne, Item.collect_settled hready h.offers.shape, h.hasInts.items, he, hfill]
  simp only [bind, Except.bind, Functor.map, Except.map, Grid.of, hstored]
  by_cases h0 : s.size = 0
  · simp only [if_pos h0]
  · simp only [if_neg h0]

end View

namespace Radix

section

variable {rs vs : List Int} {rows columns c : Nat}

theorem filterMap_zipIdx_eq {α : Type} (xs : List α) (i c : Nat) :
    ((xs.zipIdx i).filterMap fun p => if p.2 = i + c then some p.1 else none) =
      xs[c]?.toList := by
  induction xs generalizing i c with
  | nil => rfl
  | cons x xs ih =>
      rw [List.zipIdx_cons]
      cases c with
      | zero =>
          have hrest : ((xs.zipIdx (i + 1)).filterMap fun p =>
              if p.2 = i + 0 then some p.1 else none) = [] := by
            refine List.filterMap_eq_nil_iff.mpr fun p hp => if_neg ?_
            have := List.le_snd_of_mem_zipIdx hp
            omega
          rw [List.filterMap_cons, hrest]
          simp
      | succ c =>
          have hi : ¬ i = i + (c + 1) := by omega
          rw [List.filterMap_cons, if_neg hi, ← Nat.add_assoc, Nat.add_right_comm, ih]
          rfl

/-- Of a row and the rows below, every so manyth item is one of the row and those below. -/
theorem everyNth_append {row rest : List Item} (hrow : row.length = columns) (hc : c < columns) :
    everyNth (row ++ rest) c columns = row[c]?.toList ++ everyNth rest c columns := by
  have hfirst : ∀ p ∈ row.zipIdx, (if c ≤ p.2 ∧ (p.2 - c) % columns = 0 then some p.1 else none) =
      if p.2 = 0 + c then some p.1 else none := by
    intro p hp
    have hlt := List.snd_lt_of_mem_zipIdx hp
    have hmod : (p.2 - c) % columns = p.2 - c := Nat.mod_eq_of_lt (by omega)
    congr 1
    rw [hmod, eq_iff_iff]
    omega
  have hlater (i : Nat) : (c ≤ i + columns ∧ (i + columns - c) % columns = 0) ↔
      (c ≤ i ∧ (i - c) % columns = 0) := by
    by_cases hi : c ≤ i
    · rw [Nat.sub_add_comm hi, Nat.add_mod_right]
      omega
    · rw [Nat.mod_eq_of_lt (by omega)]
      omega
  rw [everyNth, List.zipIdx_append, List.filterMap_append, Nat.zero_add, hrow]
  congr 1
  · rw [List.filterMap_congr hfirst, filterMap_zipIdx_eq]
  · have hshift : rest.zipIdx columns = rest.zipIdx.map fun p => (p.1, p.2 + columns) := by
      simp only [List.zipIdx_eq_map_add (i := columns), Nat.add_comm]
    rw [everyNth, hshift, List.filterMap_map]
    exact List.filterMap_congr fun p _ => if_congr (hlater p.2) rfl rfl

def columnOf (rs : List Int) (rows columns c : Nat) : List Int :=
  (List.range rows).map fun k => rs.getD (k * columns + c) 0

@[simp] theorem length_columnOf (rs : List Int) (rows columns c : Nat) :
    (columnOf rs rows columns c).length = rows := by
  simp [columnOf]

theorem columnOf_succ (rs : List Int) (rows columns c : Nat) :
    columnOf rs (rows + 1) columns c =
      rs.getD c 0 :: columnOf (rs.drop columns) rows columns c := by
  have hbelow (k : Nat) : (rs.drop columns).getD (k * columns + c) 0 =
      rs.getD ((k + 1) * columns + c) 0 := by
    rw [List.getD_eq_getElem?_getD, List.getElem?_drop, List.getD_eq_getElem?_getD, Nat.succ_mul]
    congr 2
    omega
  simp only [columnOf, List.range_succ_eq_map, List.map_cons, List.map_map, Function.comp_def,
    Nat.zero_mul, Nat.zero_add, hbelow, Nat.succ_eq_add_one]

theorem everyNth_eq_columnOf (hl : rs.length = rows * columns) (hc : c < columns) :
    everyNth (rs.map Item.int) c columns = (columnOf rs rows columns c).map Item.int := by
  induction rows generalizing rs with
  | zero =>
      obtain rfl := List.length_eq_zero_iff.mp (by simpa using hl)
      rfl
  | succ n ih =>
      rw [Nat.succ_mul] at hl
      have hrow : ((rs.take columns).map Item.int).length = columns := by
        rw [List.length_map, List.length_take]
        omega
      have hrest : (rs.drop columns).length = n * columns := by
        rw [List.length_drop]
        omega
      have hfirst : ((rs.take columns).map Item.int)[c]? = some (.int (rs.getD c 0)) := by
        rw [List.getElem?_map, List.getElem?_take_of_lt hc, List.getElem?_eq_getElem (by omega),
          List.getD_eq_getElem _ _ (by omega)]
        rfl
      conv_lhs => rw [← List.take_append_drop columns rs, List.map_append]
      rw [everyNth_append hrow hc, hfirst, ih hrest, columnOf_succ]
      rfl

theorem columnOf_vector (rs : List Int) : columnOf rs rs.length 1 0 = rs := by
  refine List.ext_getElem (by simp) fun k hk hk' => ?_
  simp [columnOf, List.getElem?_eq_getElem hk']

/-- The digits of values place by place, and in each place column by column of the radices. -/
def digitTable (rs : List Int) (rows columns : Nat) (vs : List Int) : List Int :=
  (List.range rows).flatMap fun k => (List.range columns).flatMap fun c =>
    vs.map fun v => (digits (columnOf rs rows columns c) v).2.getD k 0

theorem fillCells_ints [Platform] {n : Nat} (hl : rs.length = rows * columns) (vs : List Int)
    (hn : n = rows * (columns * vs.length)) :
    fillCells rows columns (rs.map Item.int) (vs.map Item.int) (Array.replicate n (.int 0)) =
      .ok ((digitTable rs rows columns vs).map Item.int).toArray := by
  have htables : ((List.range columns).mapM fun c => (vs.map Item.int).mapM fun v =>
      encode (everyNth (rs.map Item.int) c columns) v) =
        .ok ((List.range columns).map fun c =>
          vs.map fun v => (digits (columnOf rs rows columns c) v).2.map Item.int) := by
    refine mapM_ok fun c hc => ?_
    rw [everyNth_eq_columnOf hl (List.mem_range.mp hc), List.mapM_map]
    exact mapM_ok fun v _ => encode_ints _ v
  rw [fillCells_eq htables ?_ (by rw [List.length_map, hn])]
  · simp only [laidOut, digitTable, List.map_flatMap, List.flatMap_map, List.map_map,
      Function.comp_def, List.getD_map]
  · intro table htable ds hds
    obtain ⟨c, -, rfl⟩ := List.mem_map.mp htable
    obtain ⟨v, -, rfl⟩ := List.mem_map.mp hds
    rw [List.length_map, length_digits, length_columnOf]

def placeByPlace (rs ns : List Int) : List Int :=
  (List.range rs.length).flatMap fun k => ns.map fun v => (digits rs v).2.getD k 0

theorem fillCells_vector [Platform] {n : Nat} (rs ns : List Int)
    (hn : n = rs.length * ns.length) :
    fillCells rs.length 1 (rs.map Item.int) (ns.map Item.int) (Array.replicate n (.int 0)) =
      .ok ((placeByPlace rs ns).map Item.int).toArray := by
  rw [fillCells_ints (Nat.mul_one _).symm ns (by rw [Nat.one_mul, hn])]
  simp only [digitTable, List.range_one, List.flatMap_singleton, columnOf_vector, placeByPlace]

end

theorem getElem?_placeByPlace {rs ns : List Int} {k j : Nat} (hk : k < rs.length) {v : Int}
    (hj : ns[j]? = some v) :
    (placeByPlace rs ns)[k * ns.length + j]? = some ((digits rs v).2.getD k 0) := by
  obtain ⟨hj', -⟩ := List.getElem?_eq_some_iff.mp hj
  rw [placeByPlace,
    getElem?_flatMap_of_length (n := ns.length) (fun _ _ => List.length_map _) k hj']
  simp [List.getElem?_range hk, hj]

end Radix

namespace Item

open Radix

section

variable {r R V : Item} {rs ns : List Int} {s t : Shape}

variable [Platform]

theorem encode_shape (hR : R.lift.HasInts t rs) (hV : V.lift.HasInts s ns) :
    (encode R V).shape = .ok (.ofShape (t ++ s)) := by
  simp only [encode, View.whole, View.shape_computed, Lazy.get_delay, hR.shape, hV.shape, bind,
    Except.bind, pure, Except.pure, Extents.ofShape, List.map_append]

theorem encode_etype {a b : EType} (ha : R.lift.etype = .ok a)
    (hb : V.lift.etype = .ok b) : ∃ e, (encode R V).etype = .ok e ∧ e.isNumeric = true := by
  simp only [encode, View.whole, View.etype_computed, Lazy.get_delay, ha, hb, bind, Except.bind,
    pure, Except.pure]
  split
  · exact ⟨_, rfl, rfl⟩
  · exact ⟨_, rfl, rfl⟩

/-- The digits of all values, in all columns of the radices, are laid out if there is room for
them. -/
theorem encode_generator_ints (hR : R.lift.HasInts t rs) (h0 : ∀ n ∈ rs, 0 ≤ n)
    (hV : V.lift.HasInts s ns) : (encode R V).generator =
      Platform.room.times 1 (Shape.size (t ++ s)) >>= fun _ =>
        fillCells (t.headD 1).toNat (Shape.size (t.drop 1)).toNat (rs.map int) (ns.map int)
          (Array.replicate (Shape.size (t ++ s)).toNat (int 0)) >>=
          fun cells => .ok (.indexed (pickFrom cells)) := by
  have ht := hR.proper
  have hallowed (bad : Item → Except Fault Bool) (h : ∀ n, 0 ≤ n → bad (int n) = .ok false) :
      (rs.map int).anyM bad = .ok false := by
    refine anyM_of_forall fun x hx => ?_
    obtain ⟨n, hn, rfl⟩ := List.mem_map.mp hx
    exact h n (h0 n hn)
  simp only [encode, View.whole, View.generator_computed, Lazy.get_delay, hR.numbers, hV.numbers,
    hR.shape, hV.shape]
  simp only [bind, Except.bind, Extents.shape_ofShape]
  rw [hallowed]
  case h =>
    intro n hn
    exact congrArg Except.ok (decide_eq_false (not_lt.mpr hn))
  simp only [Bool.false_eq_true, if_false, pure, Except.pure]
  cases hroom : Platform.room.times 1 (Shape.size (t ++ s)) with
  | error e => rfl
  | ok n =>
      obtain rfl := Room.times_spec hroom
      dsimp only
      cases fillCells (t.headD 1).toNat (Shape.size (t.drop 1)).toNat (rs.map int) (ns.map int)
        (Array.replicate (Shape.size (t ++ s)).toNat (int 0)) <;> rfl

theorem encode_generator (hr : r.lift.HasInts [rs.length] rs) (h0 : ∀ n ∈ rs, 0 ≤ n)
    (hV : V.lift.HasInts s ns) : (encode r V).generator =
      Platform.room.times 1 (Shape.size (rs.length :: s)) >>= fun _ =>
        .ok (.indexed (pickFrom ((placeByPlace rs ns).map int).toArray)) := by
  have hn : (Shape.size (rs.length :: s)).toNat = rs.length * ns.length := by
    rw [Shape.size_cons, ← hV.length_eq, ← Nat.cast_mul, Int.toNat_natCast]
  rw [encode_generator_ints hr h0 hV]
  simp only [List.headD_cons, List.drop_one, List.tail_cons, List.singleton_append,
    Shape.size_nil, Int.toNat_natCast, Int.toNat_one, fillCells_vector rs ns hn]
  rfl

end

end Item

namespace Radix

theorem common_same (m : Int) (s : Shape) :
    common (.ofShape [m]) (.ofShape (m :: s)) = .ok (.int m) := by
  by_cases h1 : m = 1
  · subst h1
    rfl
  · simp [common, Extents.ofShape, h1, pure, Except.pure]

theorem rowAndColumn_place {columns row col : Int} (h : 0 ≤ col ∧ col < columns) :
    rowAndColumn (.int columns) (.int (row * columns + col)) = .ok (.int row, .int col) := by
  have hne : columns ≠ 0 := by omega
  have h0 : 0 ≤ columns := by omega
  obtain ⟨hdiv, hmod⟩ := Shape.div_mod_place (k := row) h
  rw [← Int.fdiv_eq_ediv_of_nonneg _ h0] at hdiv
  rw [← Int.fmod_eq_emod_of_nonneg _ h0] at hmod
  simp [rowAndColumn, Number.floorDiv, Number.mod, Number.pair, hne, hdiv, hmod, bind, Except.bind,
    pure, Except.pure]

/-- The coordinate along an axis that is extended if it has only one position. -/
def along (extent k : Int) : Int := if 1 < extent then k else 0

theorem along_eq_self {extent k : Int} (hk : 0 ≤ k ∧ k < extent) : along extent k = k := by
  unfold along
  split
  · rfl
  · omega

/-- The cell of an inner product, if both arrays show whole numbers along their axes. -/
theorem innerCell_ints [Platform] {radices cells : Gen Item} {rs ds : List Int}
    {last first columns row col : Int} (h : 0 ≤ col ∧ col < columns) (hl : ds.length = rs.length)
    (hr : ∀ k : Int, 0 ≤ k ∧ k < rs.length →
      radices.cell (.int (row * last + along last k)) = .ok (.int (rs.getD k.toNat 0)))
    (hd : ∀ k : Int, 0 ≤ k ∧ k < rs.length →
      cells.cell (.int (along first k * columns + col)) = .ok (.int (ds.getD k.toNat 0))) :
    innerCell radices cells (.int last) (.int first) (.int columns) (.int rs.length)
      (.int (row * columns + col)) = .ok (.int (Shape.dot ds (Shape.strides rs))) := by
  have hlast (extent : Int) : (1 : Number).lt (.int extent) = .ok (decide (1 < extent)) := rfl
  have hown (extent k : Int) : (if decide (1 < extent) = true then Number.int k else 0) =
      .int (along extent k) := by
    unfold along
    split <;> simp_all
  have hradices : ((upTo rs.length).mapM fun (k : Int) => do
      let own : Number := if ← (1 : Number).lt (.int last) then k else 0
      (← radices.cell (← (← (Number.int row).mul (.int last)).add own)).simpleNumber) =
        .ok (rs.map Item.int) := by
    conv_rhs => rw [← map_getD_upTo rs 0 rfl, List.map_map]
    refine mapM_ok fun k hk => ?_
    simp only [hlast, bind, Except.bind, hown, Number.mul_int, Number.add_int,
      hr k (mem_upTo.mp hk)]
    rfl
  have hdigits : ((upTo rs.length).mapM fun (k : Int) => do
      let own : Number := if ← (1 : Number).lt (.int first) then k else 0
      (← cells.cell (← (← own.mul (.int columns)).add (.int col))).simpleNumber) =
        .ok (ds.map Item.int) := by
    conv_rhs => rw [← map_getD_upTo ds 0 (congrArg Nat.cast hl), List.map_map]
    refine mapM_ok fun k hk => ?_
    simp only [hlast, bind, Except.bind, hown, Number.mul_int, Number.add_int,
      hd k (mem_upTo.mp hk)]
    rfl
  simp only [innerCell, rowAndColumn_place h, Number.index_int, bind,
    Except.bind] at hradices hdigits ⊢
  rw [hradices, hdigits]
  exact decode_ints rs ds

end Radix

namespace Item

open Radix

variable {r V : Item} {rs ns : List Int} {s : Shape}

section

variable [Platform]

theorem decode_shape (hr : r.lift.HasInts [rs.length] rs) (hV : V.lift.HasInts s ns) :
    (decode r (view (encode r V))).shape = .ok (.ofShape s) := by
  have henc : (view (encode r V)).lift.shape = .ok (.ofShape (rs.length :: s)) :=
    encode_shape hr hV
  simp only [decode, View.shape_computed, Lazy.get_delay, Lazy.get_keep, hr.shape, henc,
    common_same, bind, Except.bind, pure, Except.pure]
  rfl

theorem decode_etype_of_numeric {X Y : Item}
    (hX : ∃ a, X.lift.etype = .ok a ∧ a.isNumeric = true)
    (hY : ∃ b, Y.lift.etype = .ok b ∧ b.isNumeric = true) :
    ∃ e, (decode X Y).etype = .ok e ∧ e.isNumeric = true := by
  obtain ⟨a, ha, hna⟩ := hX
  obtain ⟨b, hb, hnb⟩ := hY
  simp only [decode, View.etype_computed, Lazy.get_delay, ha, hb, hna, hnb, bind, Except.bind,
    Bool.and_self, Bool.not_true, Bool.false_eq_true, if_false]
  split
  · exact ⟨_, rfl, rfl⟩
  · split
    · exact ⟨_, rfl, rfl⟩
    · exact ⟨_, rfl, rfl⟩

theorem decode_etype_of_not_numeric {X Y : Item} {a b : EType}
    (ha : X.lift.etype = .ok a) (hb : Y.lift.etype = .ok b) (h : a.isNumeric = false) :
    (decode X Y).etype = .error (.domain .notNumbers) := by
  simp only [decode, View.etype_computed, Lazy.get_delay, ha, hb, h, bind, Except.bind,
    Bool.false_and, Bool.not_false, if_true]

theorem decode_generator (hr : r.lift.HasInts [rs.length] rs) (h0 : ∀ n ∈ rs, 0 ≤ n)
    (hV : V.lift.HasInts s ns) {radices : Gen Item} (hgen : r.lift.generator = .ok radices) :
    (decode r (view (encode r V))).generator =
      Platform.room.times 1 (Shape.size (rs.length :: s)) >>= fun _ =>
        .ok (.indexed (innerCell radices
          (.indexed (pickFrom ((placeByPlace rs ns).map int).toArray)) (.int rs.length)
          (.int rs.length) (.int s.size) (.int rs.length))) := by
  have hshape : (view (encode r V)).lift.shape = .ok (.ofShape (rs.length :: s)) :=
    encode_shape hr hV
  have henc : (view (encode r V)).lift.generator = _ := encode_generator hr h0 hV
  simp only [decode, View.generator_computed, Lazy.get_keep, hr.shape, hshape, hgen, henc,
    common_same, bind, Except.bind]
  cases Platform.room.times 1 (Shape.size (rs.length :: s)) with
  | error e => rfl
  | ok k =>
      have hsize : Extents.size ((Extents.ofShape (rs.length :: s)).drop 1) =
          .ok (.int s.size) := Extents.size_ofShape s
      simp only [hsize]
      rfl

/-- The digits that are laid out place by place are picked up again value by value. -/
theorem handsOutInts_decode_encode (hr : r.lift.HandsOutInts [rs.length] rs)
    (h0 : ∀ n ∈ rs, 0 ≤ n) (hV : V.lift.HasInts s ns) {size : Nat}
    (hroom : Platform.room.times 1 (Shape.size (rs.length :: s)) = .ok size) :
    (decode r (view (encode r V))).HandsOutInts s (ns.map (restored rs)) := by
  obtain ⟨radices, hgen, hcell⟩ := hr.cells
  have hgenerator := decode_generator hr.hasInts h0 hV hgen
  rw [hroom] at hgenerator
  refine ⟨hV.proper, by simpa using hV.length_eq, decode_shape hr.hasInts hV, _, hgenerator,
    fun i hi => ?_⟩
  have hi' : i.toNat < ns.length := by
    have := hV.length_eq
    unfold Shape.Holds at hi
    omega
  have hn : ns[i.toNat]? = some (ns.getD i.toNat 0) := by
    simp [List.getElem?_eq_getElem hi']
  have hdigits : (digits rs (ns.getD i.toNat 0)).2.length = rs.length := length_digits rs _
  have hrow : i = 0 * s.size + i := by omega
  conv_lhs => rw [hrow]
  rw [Gen.cell_indexed, innerCell_ints hi hdigits, dot_digits h0]
  · simp [List.getElem?_eq_getElem hi']
  · intro k hk
    rw [along_eq_self hk, Int.zero_mul, Int.zero_add]
    exact hcell k (by simpa [Shape.Holds] using hk)
  · intro k hk
    rw [along_eq_self hk]
    obtain ⟨hk0, hk⟩ := hk
    lift k to ℕ using hk0
    lift i to ℕ using hi.1
    have hplace := getElem?_placeByPlace (Int.ofNat_lt.mp hk) hn
    have hposition : (k * s.size + i : Int) = ((k * ns.length + i : ℕ) : Int) := by
      rw [← hV.length_eq]
      push_cast
      rfl
    rw [Int.toNat_natCast] at hplace ⊢
    rw [hposition, Gen.cell_indexed, Replicate.pickFrom_ok (Int.natCast_nonneg _)]
    rw [Int.toNat_natCast, List.getElem?_map, hplace]
    rfl

/-- Encoding whole numbers and decoding the digits gives an array of the same shape, in which each
number is what it was if some radix is zero, and otherwise what it was modulo the product of the
radices. It renders to these numbers if the element type of the radices is numeric, and is refused
if it is not. Should there be no room for the digits, they are refused, and the shape is the
same. -/
theorem decode_encode (hr : r.lift.HandsOutInts [rs.length] rs) (h0 : ∀ n ∈ rs, 0 ≤ n)
    (hV : V.lift.HasInts s ns) :
    (decode r (view (encode r V))).shape = .ok (.ofShape s) ∧
      (∀ k, Platform.room.times 1 (Shape.size (rs.length :: s)) = .ok k →
        (decode r (view (encode r V))).HandsOutInts s (ns.map (restored rs)) ∧
        ∀ a b, r.lift.etype = .ok a → V.lift.etype = .ok b →
          (a.isNumeric = true → ∃ fill, (view (decode r (view (encode r V)))).render =
            .ok (.array ⟨s, (ns.map (restored rs)).map int, fill⟩)) ∧
          (a.isNumeric = false →
            (view (decode r (view (encode r V)))).render = .error (.domain .notNumbers))) ∧
      ∀ e, Platform.room.times 1 (Shape.size (rs.length :: s)) = .error e →
        (decode r (view (encode r V))).generator = .error e := by
  refine ⟨decode_shape hr.hasInts hV, fun k hroom => ?_, fun e hroom => ?_⟩
  · have hout := handsOutInts_decode_encode hr h0 hV hroom
    have hready := View.isReady_of_computed (v := decode r (view (encode r V))) rfl hout.shape
      hout.proper rfl
    have hne : ¬ ∃ g, decode r (view (encode r V)) = View.ofGrid g := by
      rintro ⟨g, ⟨⟩⟩
    refine ⟨hout, fun a b ha hb => ?_⟩
    have hdigits : ∃ e, (view (encode r V)).lift.etype = .ok e ∧ e.isNumeric = true :=
      encode_etype ha hb
    refine ⟨fun hnumeric => ?_, fun hnot => ?_⟩
    · obtain ⟨e, he, -⟩ := decode_etype_of_numeric ⟨a, ha, hnumeric⟩ hdigits
      exact ⟨_, (hout.offersInts ⟨e, he⟩).render hready hne rfl⟩
    · obtain ⟨e, he, -⟩ := hdigits
      rw [View.render_eq hne, collect_settled hready hout.shape, hout.hasInts.items,
        decode_etype_of_not_numeric ha he hnot]
      rfl
  · obtain ⟨radices, hgen, -⟩ := hr.cells
    rw [decode_generator hr.hasInts h0 hV hgen, hroom]
    rfl

end

/-- Two radices, one of a digit that takes two values and one of a digit that takes three. -/
def twoRadices : Item := ints [2, 3]

/-- A column of whole numbers of which one is negative. -/
def column : Item := array ⟨[2, 1], [int (-1), int 7], none⟩

open scoped Usual in
theorem column_decode_encode : (decode twoRadices (view (encode twoRadices column))).HandsOutInts
      [2, 1] [5, 1] ∧
    ∃ fill, (view (decode twoRadices (view (encode twoRadices column)))).render =
      .ok (.array ⟨[2, 1], [int 5, int 1], fill⟩) := by
  have radices : twoRadices.lift.HandsOutInts [([2, 3] : List Int).length] [2, 3] :=
    View.handsOutInts_ofGrid [2, 3] (by simp [Shape.IsProper]) rfl
  have values : column.lift.HandsOutInts [2, 1] [-1, 7] :=
    View.handsOutInts_ofGrid [-1, 7] (by simp [Shape.IsProper]) rfl
  have room : Platform.room.times 1 (Shape.size ((([2, 3] : List Int).length : Int) :: [2, 1])) =
      .ok 4 := rfl
  have answers : ([-1, 7] : List Int).map (restored [2, 3]) = [5, 1] := rfl
  obtain ⟨hout, hrender⟩ := (decode_encode radices (by simp) values.hasInts).2.1 4 room
  rw [answers] at hout hrender
  exact ⟨hout, (hrender _ _ rfl rfl).1 rfl⟩

open scoped Usual in
/-- Two radices behind a character that is dropped are whole numbers, but their element type still
says that there may be a character, so what has been decoded by them is not rendered. -/
theorem behindCharacter_decode_encode :
    ∃ r, drop (list [text "a", int 2, int 3]) (list [int 1]) none (.int 0) = .ok r ∧
      r.HandsOutInts [2] [2, 3] ∧
      (view (decode (view r) (view (encode (view r) (ints [5]))))).render =
        .error (.domain .notNumbers) ∧
      ∀ x, (view (decode (view r) (view (encode (view r) (ints [5]))))).render ≠ .ok x := by
  have hrefused {x : Except Fault Item} (h : x = .error (.domain .notNumbers)) (y : Item) :
      x ≠ .ok y := by
    rw [h]
    exact nofun
  refine ⟨_, rfl, ⟨by simp [Shape.IsProper], rfl, rfl, _, rfl, fun i hi => ?_⟩, rfl, hrefused rfl⟩
  obtain ⟨h0, h2⟩ : 0 ≤ i ∧ i < 2 := hi
  interval_cases i <;> rfl

end Item
end LazyApl
