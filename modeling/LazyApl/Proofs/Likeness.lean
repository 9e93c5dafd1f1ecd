import LazyApl.Render
import LazyApl.Proofs.Outcome
/-!
# Items that are alike

Two items are alike when they match, or when they are arrays of one shape whose cells are alike, or
when they are the same item. Only the last case goes beyond matching, and only for items that hold
a double that is not a number: such an item does not even match itself. A truth value and the whole
number that it counts as are alike, so the form in which an array at hand stores a cell does not
matter.
-/
namespace LazyApl

open Outcome

namespace Scalar

theorem eq_truth (b : Bool) (s : Scalar) :
    (truth b).eq s = (int (if b then 1 else 0)).eq s := by
  cases b <;> rfl

theorem eq_truth_right (s : Scalar) (b : Bool) :
    s.eq (truth b) = s.eq (int (if b then 1 else 0)) := by
  cases b <;> cases s <;> rfl

end Scalar

namespace Item

/-- Items that differ in nothing that matching looks at. -/
inductive Alike : Item → Item → Prop
  | refl (x : Item) : Alike x x
  | same {x y : Item} (h : x.same y = .ok true) : Alike x y
  | cells {s : Shape} {xs ys : List Item} {f f' : Option Item} (h : List.Forall₂ Alike xs ys) :
      Alike (array ⟨s, xs, f⟩) (array ⟨s, ys, f'⟩)

theorem same_array (s t : Shape) (xs ys : List Item) (f f' : Option Item) :
    same (array ⟨s, xs, f⟩) (array ⟨t, ys, f'⟩) =
      if s = t then sameFirst (Shape.size s).toNat xs ys else .ok false := by
  rw [same]

theorem sameFirst_eq_true {n : Nat} {xs ys : List Item} (hx : xs.length = n) (hy : ys.length = n)
    (h : sameFirst n xs ys = .ok true) : List.Forall₂ (fun x y => same x y = .ok true) xs ys := by
  induction n generalizing xs ys with
  | zero =>
      obtain rfl := List.length_eq_zero_iff.mp hx
      obtain rfl := List.length_eq_zero_iff.mp hy
      exact .nil
  | succ n ih =>
      cases xs with
      | nil => cases hx
      | cons x xs =>
          cases ys with
          | nil => cases hy
          | cons y ys =>
              obtain ⟨b, hb, h⟩ := bind_eq_ok.mp h
              cases b with
              | false => cases h
              | true => exact .cons hb (ih (Nat.succ.inj hx) (Nat.succ.inj hy) h)

/-- Arrays with all their cells are alike if they have one shape and their cells are alike. -/
theorem alike_array {s t : Shape} {xs ys : List Item} {f f' : Option Item}
    (hx : xs.length = s.size.toNat) (hy : ys.length = t.size.toNat) :
    Alike (array ⟨s, xs, f⟩) (array ⟨t, ys, f'⟩) ↔ s = t ∧ List.Forall₂ Alike xs ys := by
  constructor
  · intro h
    cases h with
    | refl => exact ⟨rfl, List.forall₂_same.mpr fun x _ => .refl x⟩
    | same h =>
        rw [same_array] at h
        split at h
        · rename_i hs
          subst hs
          exact ⟨rfl, (sameFirst_eq_true hx hy h).imp fun x y hxy => .same hxy⟩
        · cases h
    | cells h => exact ⟨rfl, h⟩
  · rintro ⟨rfl, h⟩
    exact .cells h

mutual

theorem Alike.same_of_same_self {x y : Item} : Alike x y → x.same x = .ok true → x.same y = .ok true
  | .refl _, hx => hx
  | .same h, _ => h
  | .cells h, hx => by
    rw [same_array, if_pos rfl] at hx ⊢
    exact sameFirst_of_alike h hx

theorem sameFirst_of_alike {n : Nat} {xs ys : List Item} : List.Forall₂ Alike xs ys →
    sameFirst n xs xs = .ok true → sameFirst n xs ys = .ok true
  | .nil, hx => hx
  | .cons h hs, hx => by
    cases n with
    | zero => rfl
    | succ n =>
        obtain ⟨b, hb, hx⟩ := bind_eq_ok.mp hx
        cases b with
        | false => cases hx
        | true =>
            have hy := Alike.same_of_same_self h hb
            have hys := sameFirst_of_alike hs hx
            simp only [sameFirst, hy, hys, bind, Except.bind, if_true]

end

theorem alike_iff_matched {g h : Grid Item} (hg : matched (array g) (array g) = .ok true) :
    Alike (array g) (array h) ↔ matched (array g) (array h) = .ok true :=
  ⟨fun ha => ha.same_of_same_self hg, .same⟩

theorem alike_scalar {s : Scalar} {z : Item} :
    Alike (scalar s) z ↔ z = scalar s ∨ ∃ t, z = scalar t ∧ s.eq t = true := by
  constructor
  · intro h
    cases h with
    | refl => exact .inl rfl
    | same h =>
        cases z with
        | scalar t => exact .inr ⟨t, rfl, by simpa [same] using h⟩
        | _ => simp [same] at h
  · rintro (rfl | ⟨t, rfl, h⟩)
    · exact .refl _
    · exact .same (by simp [same, h])

theorem alike_scalar_right {s : Scalar} {z : Item} :
    Alike z (scalar s) ↔ z = scalar s ∨ ∃ t, z = scalar t ∧ t.eq s = true := by
  constructor
  · intro h
    cases h with
    | refl => exact .inl rfl
    | same h =>
        cases z with
        | scalar t => exact .inr ⟨t, rfl, by simpa [same] using h⟩
        | _ => simp [same] at h
  · rintro (rfl | ⟨t, rfl, h⟩)
    · exact .refl _
    · exact .same (by simp [same, h])

theorem alike_truth {b : Bool} {z : Item} :
    Alike (int (if b then 1 else 0)) z ↔ Alike (truth b) z := by
  rw [alike_scalar, alike_scalar]
  constructor
  · rintro (rfl | ⟨t, rfl, h⟩)
    · exact .inr ⟨_, rfl, by cases b <;> rfl⟩
    · exact .inr ⟨t, rfl, by rwa [Scalar.eq_truth]⟩
  · rintro (rfl | ⟨t, rfl, h⟩)
    · exact .inr ⟨_, rfl, by cases b <;> rfl⟩
    · exact .inr ⟨t, rfl, by rwa [Scalar.eq_truth] at h⟩

theorem alike_truth_right {b : Bool} {z : Item} :
    Alike z (int (if b then 1 else 0)) ↔ Alike z (truth b) := by
  rw [alike_scalar_right, alike_scalar_right]
  constructor
  · rintro (rfl | ⟨t, rfl, h⟩)
    · exact .inr ⟨_, rfl, by cases b <;> rfl⟩
    · exact .inr ⟨t, rfl, by rwa [Scalar.eq_truth_right]⟩
  · rintro (rfl | ⟨t, rfl, h⟩)
    · exact .inr ⟨_, rfl, by cases b <;> rfl⟩
    · exact .inr ⟨t, rfl, by rwa [Scalar.eq_truth_right] at h⟩

/-- An item as a cell of an array of a kind: among whole numbers a truth value is one of them. -/
def countedFor (k : Kind) (x : Item) : Item := if k = .bit ∨ k = .int then x.counted else x

theorem counted_eq_self {x : Item} (h : ∀ b, x ≠ truth b) : x.counted = x := by
  cases x with
  | scalar s =>
      cases s with
      | truth b => exact absurd rfl (h b)
      | _ => rfl
  | _ => rfl

theorem countedFor_eq_self {x : Item} (h : ∀ b, x ≠ truth b) (k : Kind) : x.countedFor k = x := by
  unfold countedFor
  split
  · exact counted_eq_self h
  · rfl

theorem alike_countedFor {k : Kind} {x z : Item} :
    Alike (x.countedFor k).stored z ↔ Alike x.stored z := by
  unfold countedFor
  split
  · by_cases h : ∃ b, x = truth b
    · obtain ⟨b, rfl⟩ := h
      exact alike_truth
    · rw [counted_eq_self fun b hb => h ⟨b, hb⟩]
  · rfl

theorem alike_countedFor_right {k : Kind} {x z : Item} :
    Alike z (x.countedFor k).stored ↔ Alike z x.stored := by
  unfold countedFor
  split
  · by_cases h : ∃ b, x = truth b
    · obtain ⟨b, rfl⟩ := h
      exact alike_truth_right
    · rw [counted_eq_self fun b hb => h ⟨b, hb⟩]
  · rfl

theorem vectorsOf_eq_map (xs : List Item) : vectorsOf xs = xs.map vectorOf := by
  induction xs with
  | nil => rfl
  | cons x xs ih => rw [vectorsOf, ih, List.map_cons]

/-- An item as an array at hand keeps it: it is no view, and it is stored as it is. -/
def IsKept : Item → Prop
  | view _ => False
  | x => x.stored = x

theorem IsKept.stored_eq {x : Item} (h : x.IsKept) : x.stored = x := by
  cases x with
  | view v => cases h
  | _ => exact h

theorem settle_of_ne_view {x : Item} (h : ∀ v, x ≠ view v) : x.settle = .ok x := by
  cases x with
  | view v => exact absurd rfl (h v)
  | _ => simp [settle]

theorem IsKept.settle_eq {x : Item} (h : x.IsKept) : x.settle = .ok x := by
  refine settle_of_ne_view ?_
  rintro v rfl
  exact h

theorem settle_of_isKept {x : Item} {k : Kind} (h : (x.countedFor k).stored.IsKept) :
    x.settle = .ok x := by
  refine settle_of_ne_view ?_
  rintro v rfl
  have hc : (view v).countedFor k = view v := by
    unfold countedFor
    split <;> rfl
  rw [hc] at h
  exact h

end Item

namespace Grid

/-- An array at hand as it should be: it has as many cells as its shape says, each kept. -/
structure IsKept (g : Grid Item) : Prop where
  length_eq : g.items.length = (Shape.size g.shape).toNat
  items : ∀ x ∈ g.items, x.IsKept

end Grid
end LazyApl
