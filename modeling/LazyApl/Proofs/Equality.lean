import LazyApl.Platform.Usual
import LazyApl.Primitive.Search
import LazyApl.Proofs.Likeness
/-!
# Equality within a tolerance is matching on discrete items

Equality within a tolerance goes through the cells of two arrays as far as both have any, and
matching goes through as many cells as the shape says. On whole numbers, characters and arrays of
them both come to the same, whatever the tolerance, since no two numbers are near each other that
are not the same. Either one tells whether two items are the same once the fills of empty arrays are
left out, so it is an equivalence.
-/

namespace LazyApl

/-- A test has an outcome, and it tells whether a statement holds. -/
def Tells (test : Except Fault Bool) (p : Prop) : Prop := ∃ b, test = .ok b ∧ (b = true ↔ p)

namespace Tells

variable {test test' : Except Fault Bool} {p q : Prop}

theorem eq_true_iff (h : Tells test p) : test = .ok true ↔ p := by
  obtain ⟨b, rfl, hb⟩ := h
  rw [← hb, Except.ok.injEq]

theorem eq_false_iff (h : Tells test p) : test = .ok false ↔ ¬p := by
  obtain ⟨b, rfl, hb⟩ := h
  rw [← hb, Except.ok.injEq, Bool.not_eq_true]

theorem congr (h : Tells test p) (hp : p ↔ q) : Tells test q := by
  obtain ⟨b, hb, hbp⟩ := h
  exact ⟨b, hb, hbp.trans hp⟩

theorem of_not (h : ¬p) : Tells (.ok false) p := ⟨false, rfl, by simp [h]⟩

theorem and (h : Tells test p) (h' : Tells test' q) :
    Tells (do if ← test then test' else return false) (p ∧ q) := by
  obtain ⟨b, rfl, hb⟩ := h
  cases b with
  | true =>
      have hp : p := hb.mp rfl
      exact h'.congr (by simp [hp])
  | false =>
      have hp : ¬p := fun hp => Bool.false_ne_true (hb.mpr hp)
      exact .of_not fun h => hp h.1

end Tells

namespace Item

/-- A whole number, a character, or an array of such items with as many cells as its shape says. -/
inductive IsDiscrete : Item → Prop
  | number (n : Int) : IsDiscrete (int n)
  | character {u : String} (h : u.length = 1) : IsDiscrete (text u)
  | array {g : Grid Item} (length_eq : g.items.length = g.shape.size.toNat)
      (items : ∀ x ∈ g.items, IsDiscrete x) : IsDiscrete (array g)

mutual

/-- An item without the fills of its arrays, to any depth. -/
def unfilled : Item → Item
  | array ⟨s, xs, _⟩ => array ⟨s, unfilledAll xs, none⟩
  | x => x

/-- The items of a list without the fills of their arrays. -/
def unfilledAll : List Item → List Item
  | [] => []
  | x :: xs => unfilled x :: unfilledAll xs

end

variable {x y : Item} {xs ys : List Item} {s t : Shape} {f f' : Option Item} {n : Nat}

theorem unfilledAll_eq_map (xs : List Item) : unfilledAll xs = xs.map unfilled := by
  induction xs with
  | nil => rfl
  | cons x xs ih => rw [unfilledAll, ih, List.map_cons]

theorem unfilled_array_eq_iff : (array ⟨s, xs, f⟩).unfilled = (array ⟨t, ys, f'⟩).unfilled ↔
    s = t ∧ xs.map unfilled = ys.map unfilled := by
  simp [unfilled, unfilledAll_eq_map]

theorem nearAll_eq_sameFirst [Platform] (ct : Tolerance) (hx : xs.length = n) (hy : ys.length = n)
    (h : ∀ x ∈ xs, ∀ y ∈ ys, near ct x y = x.same y) :
    nearAll ct xs ys = sameFirst n xs ys := by
  induction n generalizing xs ys with
  | zero =>
      obtain rfl := List.length_eq_zero_iff.mp hx
      simp [nearAll, sameFirst]
  | succ n ih =>
      obtain ⟨x, xs, rfl⟩ := List.exists_cons_of_length_eq_add_one hx
      obtain ⟨y, ys, rfl⟩ := List.exists_cons_of_length_eq_add_one hy
      have hhead : near ct x y = x.same y := h x List.mem_cons_self y List.mem_cons_self
      have htail : nearAll ct xs ys = sameFirst n xs ys :=
        ih (Nat.succ.inj hx) (Nat.succ.inj hy) fun x hx y hy =>
          h x (List.mem_cons_of_mem _ hx) y (List.mem_cons_of_mem _ hy)
      rw [nearAll, sameFirst, hhead, htail]

/-- No tolerance makes two discrete items equal that are not the same. -/
theorem IsDiscrete.near_eq_same [Platform] (ct : Tolerance) (hx : x.IsDiscrete)
    (hy : y.IsDiscrete) :
    near ct x y = x.same y := by
  induction hx generalizing y with
  | number m =>
      cases hy with
      | number n =>
          by_cases h : m = n
          · simp [near, same, Scalar.near, Scalar.eq, Scalar.number?, h, pure, Except.pure]
          · simp [near, same, Scalar.near, Scalar.eq, Scalar.number?, h, pure, Except.pure]
      | character _ => simp [near, same, Scalar.near, Scalar.eq, Scalar.number?, pure, Except.pure]
      | array => simp [near, same]
  | character _ =>
      cases hy with
      | number n => simp [near, same, Scalar.near, Scalar.eq, Scalar.number?, pure, Except.pure]
      | character _ => simp [near, same, Scalar.near, Scalar.eq, pure, Except.pure]
      | array => simp [near, same]
  | @array g hlen _ ih =>
      cases hy with
      | number n => simp [near, same]
      | character _ => simp [near, same]
      | @array h hlen' hitems' =>
          obtain ⟨s, xs, f⟩ := g
          obtain ⟨t, ys, f'⟩ := h
          rw [near, same_array]
          by_cases hst : s = t
          · subst hst
            have hcells : nearAll ct xs ys = sameFirst s.size.toNat xs ys :=
              nearAll_eq_sameFirst ct hlen hlen' fun x hx y hy => ih x hx (hitems' y hy)
            rw [if_pos rfl, hcells, beq_self_eq_true, if_pos rfl]
          · rw [if_neg hst, if_neg (by simpa using hst)]

theorem tells_sameFirst (hx : xs.length = n) (hy : ys.length = n)
    (h : ∀ x ∈ xs, ∀ y ∈ ys, Tells (x.same y) (x.unfilled = y.unfilled)) :
    Tells (sameFirst n xs ys) (xs.map unfilled = ys.map unfilled) := by
  induction n generalizing xs ys with
  | zero =>
      obtain rfl := List.length_eq_zero_iff.mp hx
      obtain rfl := List.length_eq_zero_iff.mp hy
      exact ⟨true, by rw [sameFirst], by simp⟩
  | succ n ih =>
      obtain ⟨x, xs, rfl⟩ := List.exists_cons_of_length_eq_add_one hx
      obtain ⟨y, ys, rfl⟩ := List.exists_cons_of_length_eq_add_one hy
      have hhead : Tells (x.same y) (x.unfilled = y.unfilled) :=
        h x List.mem_cons_self y List.mem_cons_self
      have htail : Tells (sameFirst n xs ys) (xs.map unfilled = ys.map unfilled) :=
        ih (Nat.succ.inj hx) (Nat.succ.inj hy) fun x hx y hy =>
          h x (List.mem_cons_of_mem _ hx) y (List.mem_cons_of_mem _ hy)
      rw [sameFirst, List.map_cons, List.map_cons]
      exact (hhead.and htail).congr (by simp)

/-- Two discrete items are found to be the same exactly if they differ in nothing but fills. -/
theorem IsDiscrete.tells_same (hx : x.IsDiscrete) (hy : y.IsDiscrete) :
    Tells (x.same y) (x.unfilled = y.unfilled) := by
  induction hx generalizing y with
  | number m =>
      cases hy with
      | number n => exact ⟨m == n, by simp [same, Scalar.eq, Scalar.number?], by simp [unfilled]⟩
      | character _ => exact ⟨false, by simp [same, Scalar.eq, Scalar.number?], by simp [unfilled]⟩
      | array => exact ⟨false, by simp [same], by simp [unfilled]⟩
  | @character u _ =>
      cases hy with
      | number n => exact ⟨false, by simp [same, Scalar.eq, Scalar.number?], by simp [unfilled]⟩
      | @character w _ => exact ⟨u == w, by simp [same, Scalar.eq], by simp [unfilled]⟩
      | array => exact ⟨false, by simp [same], by simp [unfilled]⟩
  | @array g hlen _ ih =>
      cases hy with
      | number n => exact ⟨false, by simp [same], by simp [unfilled]⟩
      | character _ => exact ⟨false, by simp [same], by simp [unfilled]⟩
      | @array h hlen' hitems' =>
          obtain ⟨s, xs, f⟩ := g
          obtain ⟨t, ys, f'⟩ := h
          rw [same_array, unfilled_array_eq_iff]
          by_cases hst : s = t
          · subst hst
            have hcells : Tells (sameFirst s.size.toNat xs ys)
                (xs.map unfilled = ys.map unfilled) :=
              tells_sameFirst hlen hlen' fun x hx y hy => ih x hx (hitems' y hy)
            rw [if_pos rfl]
            exact hcells.congr (by simp)
          · rw [if_neg hst]
            exact .of_not fun h => hst h.1

theorem IsDiscrete.tells_near [Platform] (ct : Tolerance) (hx : x.IsDiscrete) (hy : y.IsDiscrete) :
    Tells (near ct x y) (x.unfilled = y.unfilled) := by
  rw [hx.near_eq_same ct hy]
  exact hx.tells_same hy

/-- On arrays of whole numbers, characters and arrays of such items equality within any tolerance
has the outcome of matching, and matching is an equivalence. -/
theorem near_matched [Platform] (ct : Tolerance) :
    (∀ g h : Grid Item, (array g).IsDiscrete → (array h).IsDiscrete →
      ∃ b, near ct (array g) (array h) = .ok b ∧ matched (array g) (array h) = .ok b) ∧
    Equivalence fun g h : {g : Grid Item // (array g).IsDiscrete} =>
      matched (array g.1) (array h.1) = .ok true := by
  have hmatched (g h : {g : Grid Item // (array g).IsDiscrete}) :
      matched (array g.1) (array h.1) = .ok true ↔
        (array g.1).unfilled = (array h.1).unfilled :=
    (g.2.tells_same h.2).eq_true_iff
  constructor
  · intro g h hg hh
    obtain ⟨b, hb, -⟩ := hg.tells_same hh
    exact ⟨b, (hg.near_eq_same ct hh).trans hb, hb⟩
  · simp only [hmatched]
    exact ⟨fun _ => rfl, Eq.symm, Eq.trans⟩

/-- A number, and an empty array with a given fill. -/
def numberAndEmpty (n : Int) (fill : Option Item) : Grid Item :=
  ⟨[2], [int n, array ⟨[0], [], fill⟩], none⟩

theorem numberAndEmpty_isDiscrete (n : Int) (fill : Option Item) :
    (array (numberAndEmpty n fill)).IsDiscrete := by
  have hempty : (array ⟨[0], [], fill⟩).IsDiscrete := .array rfl (by simp)
  exact .array rfl (by simpa [numberAndEmpty] using ⟨.number n, hempty⟩)

open scoped Usual in
/-- Fills do not count, and within a tolerance of seven times its size a number is not equal to its
neighbour. -/
theorem numberAndEmpty_near_matched :
    (near (int 7) (array (numberAndEmpty 3 none)) (array (numberAndEmpty 3 (some blank))) =
        .ok true ∧
      matched (array (numberAndEmpty 3 none)) (array (numberAndEmpty 3 (some blank))) = .ok true) ∧
    (near (int 7) (array (numberAndEmpty 3 none)) (array (numberAndEmpty 4 none)) = .ok false ∧
      matched (array (numberAndEmpty 3 none)) (array (numberAndEmpty 4 none)) = .ok false) ∧
    matched (array (numberAndEmpty 3 (some blank))) (array (numberAndEmpty 3 none)) =
      .ok true := by
  obtain ⟨hnear, hequiv⟩ := near_matched (int 7)
  obtain ⟨b, hb, hb'⟩ := hnear _ _ (numberAndEmpty_isDiscrete 3 none)
    (numberAndEmpty_isDiscrete 3 (some blank))
  obtain ⟨c, hc, hc'⟩ := hnear _ _ (numberAndEmpty_isDiscrete 3 none)
    (numberAndEmpty_isDiscrete 4 none)
  obtain rfl : true = b := Except.ok.inj hb'
  obtain rfl : false = c := Except.ok.inj hc'
  have hback := hequiv.symm (x := ⟨_, numberAndEmpty_isDiscrete 3 none⟩)
    (y := ⟨_, numberAndEmpty_isDiscrete 3 (some blank)⟩) hb'
  exact ⟨⟨hb, hb'⟩, ⟨hc, hc'⟩, hback⟩

end Item
end LazyApl
