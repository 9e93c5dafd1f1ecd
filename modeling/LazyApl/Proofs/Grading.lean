import LazyApl.Platform.Usual
import LazyApl.Proofs.Comparing
import LazyApl.Proofs.Contents
/-!
# Grading sorts and keeps the order of equal cells

The major cells of an array are sorted by merging, upwards or downwards. Merging keeps the order of
cells of which each may precede the other, and downwards the comparison is turned around and not the
result, so equal cells stand in the order in which they stood, in both directions.
-/

namespace LazyApl

open Outcome

namespace Grade

section

variable {α : Type} {le : α → α → Bool} {l : List α} {r : α → α → Prop}

/-- Sorting by a total preorder keeps the relation between members each of which may precede the
other. -/
theorem pairwise_mergeSort_of_total
    (htrans : ∀ a b c, le a b = true → le b c = true → le a c = true)
    (htotal : ∀ a b, (le a b || le b a) = true) (hr : l.Pairwise r) :
    (l.mergeSort le).Pairwise fun a b => le a b = true ∧ (le b a = true → r a b) := by
  have hsorted := List.pairwise_mergeSort (List.zipIdxLE_trans htrans)
    (List.zipIdxLE_total htotal) l.zipIdx
  have hperm := List.mergeSort_perm l.zipIdx (List.zipIdxLE le)
  -- the places of the members differ from each other, before sorting and after
  have hplaces : (l.zipIdx.mergeSort (List.zipIdxLE le)).Pairwise fun p q => p.2 ≠ q.2 := by
    rw [hperm.pairwise_iff (fun h => h.symm), ← List.pairwise_map, List.zipIdx_map_snd]
    exact List.nodup_range'
  rw [← List.mergeSort_zipIdx, List.pairwise_map]
  refine (hsorted.and hplaces).imp_of_mem fun {p q} hp hq h => ?_
  obtain ⟨hle, hne⟩ := h
  unfold List.zipIdxLE at hle
  split at hle
  case isFalse => cases hle
  case isTrue hpq =>
    refine ⟨hpq, fun hqp => ?_⟩
    rw [if_pos hqp, decide_eq_true_eq] at hle
    obtain ⟨hp, hp'⟩ := List.getElem?_eq_some_iff.mp
      (List.mem_zipIdx_iff_getElem?.mp (hperm.mem_iff.mp hp))
    obtain ⟨hq, hq'⟩ := List.getElem?_eq_some_iff.mp
      (List.mem_zipIdx_iff_getElem?.mp (hperm.mem_iff.mp hq))
    rw [← hp', ← hq']
    exact List.pairwise_iff_getElem.mp hr _ _ hp hq (by omega)

theorem pairwise_mergeSort
    (htrans : ∀ a ∈ l, ∀ b ∈ l, ∀ c ∈ l, le a b = true → le b c = true → le a c = true)
    (htotal : ∀ a ∈ l, ∀ b ∈ l, (le a b || le b a) = true) (hr : l.Pairwise r) :
    (l.mergeSort le).Pairwise fun a b => le a b = true ∧ (le b a = true → r a b) := by
  have hmap : (l.attach.mergeSort fun a b => le a.1 b.1).map Subtype.val = l.mergeSort le := by
    rw [List.map_mergeSort (s := le) (fun _ _ _ _ => rfl), List.attach_map_subtype_val]
  have hr' : l.attach.Pairwise fun a b => r a.1 b.1 := by
    rw [← List.pairwise_map, List.attach_map_subtype_val]
    exact hr
  rw [← hmap, List.pairwise_map]
  exact pairwise_mergeSort_of_total (fun a b c => htrans a a.2 b b.2 c c.2)
    (fun a b => htotal a a.2 b b.2) hr'

end

variable {a b c : Int × List Item}

theorem exists_order (isDown : Bool) (ha : Item.areExact a.2 = true)
    (hb : Item.areExact b.2 = true) :
    ∃ k, order isDown a b = .ok k ∧ order isDown b a = .ok (-k) := by
  cases isDown with
  | false =>
      obtain ⟨k, hab, hba, -⟩ := (Item.ranks_compareCells ha).opposite b.2 hb
      exact ⟨k, hab, hba⟩
  | true =>
      obtain ⟨k, hba, hab, -⟩ := (Item.ranks_compareCells hb).opposite a.2 ha
      exact ⟨k, hba, hab⟩

theorem mayPrecede_eq {isDown : Bool} {k : Int} (h : order isDown a b = .ok k) :
    mayPrecede isDown a b = decide (k ≤ 0) := by
  simp only [mayPrecede, h]

theorem mayPrecede_total (isDown : Bool) (ha : Item.areExact a.2 = true)
    (hb : Item.areExact b.2 = true) :
    (mayPrecede isDown a b || mayPrecede isDown b a) = true := by
  obtain ⟨k, hab, hba⟩ := exists_order isDown ha hb
  rw [mayPrecede_eq hab, mayPrecede_eq hba, Bool.or_eq_true, decide_eq_true_eq, decide_eq_true_eq]
  omega

theorem compareCells_nonpos_trans {xs ys zs : List Item} {c d : Int}
    (hx : Item.areExact xs = true) (hy : Item.areExact ys = true) (hz : Item.areExact zs = true)
    (hc : Item.compareCells xs ys = .ok c) (hd : Item.compareCells ys zs = .ok d) (hc0 : c ≤ 0)
    (hd0 : d ≤ 0) : ∃ e, Item.compareCells xs zs = .ok e ∧ e ≤ 0 := by
  refine ⟨_, (Item.ranks_compareCells hx).transitive ys zs hy hz c d hc hd hc0 hd0, ?_⟩
  split
  · exact hd0
  · exact hc0

theorem mayPrecede_trans (isDown : Bool) (ha : Item.areExact a.2 = true)
    (hb : Item.areExact b.2 = true) (hc : Item.areExact c.2 = true)
    (hab : mayPrecede isDown a b = true) (hbc : mayPrecede isDown b c = true) :
    mayPrecede isDown a c = true := by
  obtain ⟨j, hj, -⟩ := exists_order isDown ha hb
  obtain ⟨k, hk, -⟩ := exists_order isDown hb hc
  rw [mayPrecede_eq hj, decide_eq_true_eq] at hab
  rw [mayPrecede_eq hk, decide_eq_true_eq] at hbc
  have hac : ∃ e, order isDown a c = .ok e ∧ e ≤ 0 := by
    cases isDown with
    | false => exact compareCells_nonpos_trans ha hb hc hj hk hab hbc
    | true => exact compareCells_nonpos_trans hc hb ha hk hj hbc hab
  obtain ⟨e, he, he0⟩ := hac
  rw [mayPrecede_eq he, decide_eq_true_eq]
  exact he0

/-- A position may stand before another one in the result of a grade: its cell does not come after
the other, and if the cells are equal the position is the lesser one. -/
def StandsBefore (isDown : Bool) (cell : Int → List Item) (i j : Int) : Prop :=
  ∃ c, Item.compareCells (cell i) (cell j) = .ok c ∧ (if isDown then 0 ≤ c else c ≤ 0) ∧
    (c = 0 → i < j)

theorem pairwise_upTo (n : Int) : (upTo n).Pairwise (· < ·) := by
  rw [upTo, List.pairwise_map]
  exact List.pairwise_lt_range.imp fun h => Int.ofNat_lt.mpr h

/-- The permutation of numbered cells sorts them. -/
theorem permutation_spec {n : Int} {cell : Int → List Item}
    (h : ∀ i ∈ upTo n, Item.areExact (cell i) = true) (isDown : Bool) :
    ∃ perm, permutation ((upTo n).map fun i => (i, cell i)) isDown = .ok perm ∧
      perm.Perm (upTo n) ∧ perm.Pairwise (StandsBefore isDown cell) := by
  have hmem : ∀ a ∈ (upTo n).map fun i => (i, cell i),
      a.2 = cell a.1 ∧ Item.areExact a.2 = true := by
    intro a ha
    obtain ⟨i, hi, rfl⟩ := List.mem_map.mp ha
    exact ⟨rfl, h i hi⟩
  have hall : ((upTo n).map fun i => (i, cell i)).all fun a => Item.areExact a.2 :=
    List.all_eq_true.mpr fun a ha => (hmem a ha).2
  have hperm := List.mergeSort_perm ((upTo n).map fun i => (i, cell i)) (mayPrecede isDown)
  have hplaces : ((upTo n).map fun i => (i, cell i)).Pairwise fun a b => a.1 < b.1 :=
    List.pairwise_map.mpr (pairwise_upTo n)
  have hsorted : (((upTo n).map fun i => (i, cell i)).mergeSort (mayPrecede isDown)).Pairwise _ :=
    pairwise_mergeSort
      (fun a ha b hb c hc => mayPrecede_trans isDown (hmem a ha).2 (hmem b hb).2 (hmem c hc).2)
      (fun a ha b hb => mayPrecede_total isDown (hmem a ha).2 (hmem b hb).2) hplaces
  refine ⟨_, by rw [permutation, if_pos hall], ?_, ?_⟩
  · simpa [Function.comp_def] using hperm.map Prod.fst
  · rw [List.pairwise_map]
    refine hsorted.imp_of_mem fun {a b} ha hb hab => ?_
    obtain ⟨hacell, ha⟩ := hmem a (hperm.mem_iff.mp ha)
    obtain ⟨hbcell, hb⟩ := hmem b (hperm.mem_iff.mp hb)
    obtain ⟨k, hk, hk'⟩ := exists_order isDown ha hb
    rw [mayPrecede_eq hk, mayPrecede_eq hk', decide_eq_true_eq, decide_eq_true_eq] at hab
    unfold StandsBefore
    rw [← hacell, ← hbcell]
    cases isDown with
    | false => exact ⟨k, hk, hab.1, fun h0 => hab.2 (by omega)⟩
    | true =>
        refine ⟨-k, hk', ?_, fun h0 => hab.2 (by omega)⟩
        simp only [if_true]
        omega

/-- The items of the cell of an array at a position along its first axis. The cells have the given
shape. -/
def majorCell (s : Shape) (xs : List Item) (i : Int) : List Item :=
  (xs.drop (i.toNat * s.size.toNat)).take s.size.toNat

theorem areExact_majorCell {xs : List Item} (h : Item.areExact xs = true) (s : Shape) (i : Int) :
    Item.areExact (majorCell s xs i) = true :=
  Item.areExact_iff.mpr fun _ hx =>
    Item.areExact_iff.mp h _ (List.mem_of_mem_drop (List.mem_of_mem_take hx))

theorem pieces_eq {n : Int} {s : Shape} {xs : List Item} (hs : Shape.IsProper (n :: s))
    (hl : xs.length = (Shape.size (n :: s)).toNat) :
    pieces n.toNat (if n.toNat = 0 then 0 else xs.length / n.toNat) xs =
      (upTo n).map fun i => (i, majorCell s xs i) := by
  obtain ⟨hn, hs⟩ := Shape.isProper_cons.mp hs
  unfold pieces upTo majorCell
  rw [List.map_map]
  refine List.map_congr_left fun i hi => ?_
  have hpos : 0 < n.toNat := Nat.zero_lt_of_lt (List.mem_range.mp hi)
  -- there is a cell, so the items are shared out evenly
  have hstep : xs.length / n.toNat = s.size.toNat := by
    rw [hl, Shape.size_cons, Int.toNat_mul hn (Shape.size_nonneg hs),
      Nat.mul_div_cancel_left _ hpos]
  rw [if_neg hpos.ne', hstep]
  rfl

end Grade

namespace Item

open Grade

/-- Grading gives the positions of the major cells, counted from the origin, in an order in which no
cell comes after one that follows it, and equal cells keep theirs. It does so for any number of
cells and of items in them. -/
theorem grade_sorts [Platform] (base : Item) (isDown : Bool) (o : Int) {n : Int} {s : Shape}
    {xs : List Item} (hp : Shape.IsProper (n :: s))
    (hs : base.based.shape = .ok (.ofShape (n :: s))) (hx : (view base.based).items = .ok xs)
    (he : areExact xs = true) :
    ∃ (perm : List Int) (fill : Option Item), (view (base.grade none isDown (.int o))).render =
        .ok (.array ⟨[n], perm.map fun i => int (i + o), fill⟩) ∧
      perm.Perm (upTo n) ∧ perm.Pairwise (StandsBefore isDown (majorCell s xs)) := by
  have hl := length_items hs hx
  have hn := (Shape.isProper_cons.mp hp).1
  obtain ⟨perm, hperm, hall, hsorted⟩ := permutation_spec
    (fun i (_ : i ∈ upTo n) => areExact_majorCell he s i) isDown
  have hrender : ∃ fill, (view (base.grade none isDown (.int o))).render =
      .ok (.array ⟨[n], perm.map fun i => int (i + o), fill⟩) := by
    refine View.render_whole (e := EType.integer o (max (n - 1) 0 + o)) ?content ?shape ?etype
      ?length ?proper rfl ?kept
    case content =>
      simp only [Lazy.get_delay, hs, hx, Extents.ofShape, List.map_cons, bind, Except.bind, pure,
        Except.pure, Number.index_int]
      rw [pieces_eq hp hl, hperm]
      exact mapM_ok fun i _ => rfl
    case shape =>
      simp only [Lazy.get_delay, hs, Extents.ofShape, List.map_cons, bind, Except.bind, pure,
        Except.pure, List.map_nil]
    case etype =>
      have hlast : (Number.int n).sub 1 = .ok (.int (n - 1)) := rfl
      have hcount : (Number.int (n - 1)).greater 0 = .ok (.int (max (n - 1) 0)) :=
        Number.greater_int _ 0
      simp only [Lazy.get_delay, hs, Extents.ofShape, List.map_cons, hlast, hcount, bind,
        Except.bind, pure, Except.pure]
      exact EType.counted_int o (max (n - 1) 0)
    case length =>
      rw [List.length_map, hall.length_eq, length_upTo]
      simpa using hn
    case proper => simpa [Shape.isProper_cons, Shape.isProper_nil] using hn
    case kept =>
      intro x hx
      obtain ⟨i, -, rfl⟩ := List.mem_map.mp hx
      exact ⟨rfl, fun b => by simp⟩
  obtain ⟨fill, hfill⟩ := hrender
  exact ⟨perm, fill, hfill, hall, hsorted⟩

/-- Three cells of two items each, the first and the last of which are equal; the one in between has
an array in it. -/
def threeCells : Grid Item :=
  ⟨[3, 2], [text "b", int 2, text "b", array ⟨[1], [int 7], none⟩, text "b", int 2], none⟩

open scoped Usual in
theorem threeCells_grade_sorts : ∃ (perm : List Int) (fill : Option Item),
    (view ((array threeCells).grade none true (.int 1))).render =
        .ok (.array ⟨[3], perm.map fun i => int (i + 1), fill⟩) ∧
      perm.Perm (upTo 3) ∧
        perm.Pairwise (StandsBefore true (majorCell [2] threeCells.items)) := by
  have exact : areExact threeCells.items = true := by
    simp [threeCells, areExact, isExact]
  have proper : Shape.IsProper [3, 2] := by
    simp [Shape.IsProper]
  have kept : threeCells.IsKept := by
    refine ⟨rfl, fun x hx => ?_⟩
    simp only [threeCells, List.mem_cons, List.not_mem_nil, or_false] at hx
    obtain rfl | rfl | rfl | rfl | rfl | rfl := hx <;> rfl
  have cells : (view (array threeCells).based).items = .ok threeCells.items :=
    items_of_isKept kept
  exact grade_sorts (array threeCells) true 1 proper rfl cells exact

end Item
end LazyApl
