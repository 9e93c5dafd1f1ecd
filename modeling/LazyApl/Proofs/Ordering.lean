import LazyApl.Proofs.Comparing
import LazyApl.Proofs.Likeness
/-!
# Items that compare even are those that match

The comparison goes by cells first and by shape last, and matching goes by shape first. On items in
the form in which an array at hand holds them, made of whole numbers and characters at any depth,
both come to the same: a comparison is even exactly if the two items match. So the comparison is a
total order up to matching.
-/

namespace LazyApl

open Outcome

namespace Item

/-- A whole number, a character, or an array at hand of such items: it has as many cells as its
shape says, and it is no box of a simple value. -/
inductive IsOrderly : Item → Prop
  | number (n : Int) : IsOrderly (int n)
  | character {u : String} (h : u.length = 1) : IsOrderly (text u)
  | array {g : Grid Item} (length_eq : g.items.length = g.shape.size.toNat)
      (notBox : isBox g = false) (items : ∀ x ∈ g.items, IsOrderly x) : IsOrderly (array g)

variable {x y a b c : Item} {xs ys : List Item} {s t : Shape}

theorem IsOrderly.isExact (h : x.IsOrderly) : x.isExact = true := by
  induction h with
  | number n => rfl
  | character h => rfl
  | array _ _ _ ih => exact areExact_iff.mpr ih

theorem IsOrderly.enclosed_eq (h : x.IsOrderly) (hx : x.isGrid = false) :
    x.enclosed = ⟨[], [x], none⟩ := by
  cases h with
  | number n => rfl
  | character h => simp [enclosed, Grid.ofScalar, Grid.of, stored, h]
  | array => cases hx

/-- A comparison has an outcome, and it is even exactly if the two are found to be the same. -/
def EvenIfSame (order : Except Fault Int) (same : Except Fault Bool) : Prop :=
  ∃ k, order = .ok k ∧ same = .ok (decide (k = 0))

/-- Two criteria in turn are both even exactly if the first finds the two the same and the second
does so, too. -/
theorem EvenIfSame.thenBy {first second : Except Fault Int} {same same' : Except Fault Bool}
    (h : EvenIfSame first same) (h' : EvenIfSame second same') :
    EvenIfSame (thenBy first second) (do if ← same then same' else return false) := by
  obtain ⟨k, rfl, rfl⟩ := h
  by_cases h0 : k = 0
  · subst h0
    exact h'
  · refine ⟨k, thenBy_of_ne h0 _, ?_⟩
    simp [h0, bind, Except.bind, pure, Except.pure]

theorem sign_eq_zero {α : Type} [LinearOrder α] {x y : α} :
    sign (decide (x < y)) (decide (y < x)) = 0 ↔ x = y := by
  rcases lt_trichotomy x y with h | rfl | h
  · simp [sign_of_lt h, h.ne]
  · rw [sign_self]
    simp
  · simp [sign_of_gt h, h.ne']

theorem compareInts_eq_zero : compareInts s t = 0 ↔ s = t := by
  induction s generalizing t with
  | nil => cases t <;> simp [compareInts, sign]
  | cons m s ih =>
      cases t with
      | nil => simp [compareInts, sign]
      | cons n t =>
          by_cases hmn : m = n
          · simp [compareInts, hmn, ih]
          · simp [compareInts, hmn, sign_eq_zero]

theorem evenIfSame_of_sort_ne (h : x.sort ≠ y.sort) (hs : x.same y = .ok false) :
    EvenIfSame (compare x y) (x.same y) := by
  refine ⟨_, compare_of_sort_ne h, ?_⟩
  rw [hs]
  split <;> rfl

theorem evenIfSame_cells {n : Nat} (hx : xs.length = n) (hy : ys.length = n)
    (h : ∀ x ∈ xs, ∀ y ∈ ys, EvenIfSame (compare x y) (x.same y)) :
    EvenIfSame (compareCells xs ys) (sameFirst n xs ys) := by
  rw [compareCells_eq]
  induction xs generalizing ys n with
  | nil =>
      subst hx
      obtain rfl := List.length_eq_zero_iff.mp hy
      exact ⟨0, lexicographic_nil_nil, rfl⟩
  | cons x xs ih =>
      subst hx
      cases ys with
      | nil => cases hy
      | cons y ys =>
          have hcells := ih rfl (Nat.succ.inj hy) fun x hx y hy =>
            h x (List.mem_cons_of_mem _ hx) y (List.mem_cons_of_mem _ hy)
          exact (h x List.mem_cons_self y List.mem_cons_self).thenBy hcells

/-- Arrays are compared by their cells and are the same only in one shape; where the cells are even
the shapes decide, so the order of the two criteria does not matter. -/
theorem evenIfSame_array {f f' : Option Item} (hx : xs.length = s.size.toNat)
    (hy : ys.length = t.size.toNat) (hxs : areExact xs = true) (hys : areExact ys = true)
    (h : ∀ x ∈ xs, ∀ y ∈ ys, EvenIfSame (compare x y) (x.same y)) :
    EvenIfSame (compare (array ⟨s, xs, f⟩) (array ⟨t, ys, f'⟩))
      (same (array ⟨s, xs, f⟩) (array ⟨t, ys, f'⟩)) := by
  rw [compare_array, same_array]
  by_cases hst : s = t
  · subst hst
    obtain ⟨k, hk, hsame⟩ := evenIfSame_cells hx hy h
    rw [hk, compareInts_eq_zero.mpr rfl, if_pos rfl, hsame]
    refine ⟨k, ?_, rfl⟩
    by_cases h0 : k = 0
    · rw [h0, thenBy_zero]
    · exact thenBy_of_ne h0 _
  · obtain ⟨k, hk, -⟩ := (ranks_compareCells hxs).opposite ys hys
    have hshapes : compareInts s t ≠ 0 := fun h0 => hst (compareInts_eq_zero.mp h0)
    rw [hk, if_neg hst]
    by_cases h0 : k = 0
    · exact ⟨compareInts s t, by rw [h0, thenBy_zero], by rw [decide_eq_false hshapes]⟩
    · exact ⟨k, thenBy_of_ne h0 _, by rw [decide_eq_false h0]⟩

/-- A comparison of orderly items is even exactly if they are the same. -/
theorem IsOrderly.evenIfSame (hx : x.IsOrderly) (hy : y.IsOrderly) :
    EvenIfSame (compare x y) (x.same y) := by
  induction hx generalizing y with
  | number m =>
      cases hy with
      | number n =>
          refine ⟨sign (decide (m < n)) (decide (n < m)), rfl, ?_⟩
          simp only [sign_eq_zero]
          exact congrArg Except.ok (beq_eq_decide m n)
      | character _ => exact evenIfSame_of_sort_ne (by simp [sort]) rfl
      | array => exact evenIfSame_of_sort_ne (by simp [sort]) rfl
  | @character u _ =>
      cases hy with
      | number n => exact evenIfSame_of_sort_ne (by simp [sort]) rfl
      | @character w _ =>
          refine ⟨sign (decide (u < w)) (decide (w < u)), rfl, ?_⟩
          simp only [sign_eq_zero]
          exact congrArg Except.ok (beq_eq_decide u w)
      | array => exact evenIfSame_of_sort_ne (by simp [sort]) rfl
  | @array g hlen hbox hitems ih =>
      cases hy with
      | number n => exact evenIfSame_of_sort_ne (by simp [sort]) rfl
      | character _ => exact evenIfSame_of_sort_ne (by simp [sort]) rfl
      | @array h hlen' hbox' hitems' =>
          exact evenIfSame_array hlen hlen'
            (areExact_iff.mpr fun x hx => (hitems x hx).isExact)
            (areExact_iff.mpr fun y hy => (hitems' y hy).isExact)
            fun x hx y hy => ih x hx (hitems' y hy)

theorem same_boxes (x y : Item) (f f' : Option Item) :
    same (array ⟨[], [x], f⟩) (array ⟨[], [y], f'⟩) = same x y := by
  rw [same_array, if_pos rfl]
  simp only [Shape.size_nil, Int.toNat_one, sameFirst]
  cases same x y with
  | error e => rfl
  | ok b => cases b <;> rfl

theorem same_box_array {g : Grid Item} (hx : ∃ s, x = scalar s)
    (hlen : g.items.length = g.shape.size.toNat) (hbox : isBox g = false) (f : Option Item) :
    same (array ⟨[], [x], f⟩) (array g) = .ok false ∧
      same (array g) (array ⟨[], [x], f⟩) = .ok false := by
  obtain ⟨s, rfl⟩ := hx
  obtain ⟨t, ys, f'⟩ := g
  by_cases ht : t = []
  · subst ht
    obtain ⟨y, rfl⟩ := List.length_eq_one_iff.mp hlen
    obtain ⟨h, rfl⟩ : ∃ h, y = array h := by
      cases y with
      | array h => exact ⟨h, rfl⟩
      | _ => cases hbox
    rw [same_boxes, same_boxes]
    exact ⟨rfl, rfl⟩
  · rw [same_array, same_array, if_neg (Ne.symm ht), if_neg ht]
    exact ⟨rfl, rfl⟩

/-- Orderly items match if they are the same; no box makes an array of a simple item. -/
theorem IsOrderly.matched_eq (hx : x.IsOrderly) (hy : y.IsOrderly) : x.matched y = x.same y := by
  have simple {z : Item} (hz : z.IsOrderly) (h : z.isGrid = false) : ∃ s, z = scalar s := by
    cases hz with
    | number n => exact ⟨_, rfl⟩
    | character _ => exact ⟨_, rfl⟩
    | array => cases h
  cases hgx : x.isGrid with
  | false =>
      rw [matched, hx.enclosed_eq hgx]
      cases hgy : y.isGrid with
      | false => rw [hy.enclosed_eq hgy, same_boxes]
      | true =>
          obtain ⟨s, rfl⟩ := simple hx hgx
          cases hy with
          | array hlen hbox _ => exact (same_box_array ⟨s, rfl⟩ hlen hbox none).1
          | _ => cases hgy
  | true =>
      cases hx with
      | @array g hlen hbox _ =>
          cases hgy : y.isGrid with
          | false =>
              rw [matched, hy.enclosed_eq hgy]
              obtain ⟨s, rfl⟩ := simple hy hgy
              exact (same_box_array ⟨s, rfl⟩ hlen hbox none).2
          | true =>
              cases hy with
              | array => rfl
              | _ => cases hgy
      | _ => cases hgx

/-- The comparison is a total order of the items that arrays hold, up to matching. It has an outcome
of -1, 0 or 1, which is the opposite of the outcome the other way round, and 0 exactly if the items
match; and what comes before or is even with an item that does so with a third one does so with the
third one. -/
theorem compare_orders (ha : a.IsOrderly) (hb : b.IsOrderly) (hc : c.IsOrderly) :
    (∃ k, compare a b = .ok k ∧ compare b a = .ok (-k) ∧ (k = -1 ∨ k = 0 ∨ k = 1) ∧
      a.matched b = .ok (decide (k = 0))) ∧
    ∀ k l, compare a b = .ok k → compare b c = .ok l → k ≤ 0 → l ≤ 0 →
      ∃ m, compare a c = .ok m ∧ m ≤ 0 := by
  have hranks := ranks_compare a ha.isExact
  constructor
  · obtain ⟨k, hab, hba, hlow, hhigh⟩ := hranks.opposite b hb.isExact
    obtain ⟨k', hk', hsame⟩ := ha.evenIfSame hb
    obtain rfl := Except.ok.inj (hab.symm.trans hk')
    exact ⟨k, hab, hba, by omega, by rw [ha.matched_eq hb, hsame]⟩
  · intro k l hk hl hk0 hl0
    refine ⟨_, hranks.transitive b c hb.isExact hc.isExact k l hk hl hk0 hl0, ?_⟩
    split <;> assumption

/-- A character comes before an array in the same place, and of arrays with the same cells the one
with the lesser first extent comes first. They do not match. -/
theorem nested_compare_orders :
    ∃ m, compare (array ⟨[2], [int 1, text "x"], none⟩)
        (array ⟨[2], [int 1, array (Grid.ofInts [3])], none⟩) = .ok m ∧ m ≤ 0 ∧
      matched (array ⟨[1, 2], [int 1, array (Grid.ofInts [3])], none⟩)
        (array ⟨[2], [int 1, array (Grid.ofInts [3])], none⟩) = .ok false := by
  have three : (array (Grid.ofInts [3])).IsOrderly :=
    .array rfl rfl (List.forall_mem_singleton.mpr (.number 3))
  have vector : (array ⟨[2], [int 1, array (Grid.ofInts [3])], none⟩).IsOrderly :=
    .array rfl rfl (by simpa using ⟨.number 1, three⟩)
  have row : (array ⟨[1, 2], [int 1, array (Grid.ofInts [3])], none⟩).IsOrderly :=
    .array rfl rfl (by simpa using ⟨.number 1, three⟩)
  have mixed : (array ⟨[2], [int 1, text "x"], none⟩).IsOrderly :=
    .array rfl rfl (by simpa using ⟨.number 1, .character rfl⟩)
  obtain ⟨m, hm, hle⟩ := (compare_orders mixed row vector).2 (-1) (-1) rfl rfl (by decide)
    (by decide)
  obtain ⟨k, hk, -, -, hmatched⟩ := (compare_orders row vector mixed).1
  obtain rfl : -1 = k := Except.ok.inj hk
  exact ⟨m, hm, hle, hmatched⟩

end Item
end LazyApl
