import LazyApl.Primitive.Order
import LazyApl.Proofs.Outcome
import Mathlib.Data.String.Basic
/-!
# The order of items

Items made of whole numbers and text are in a total preorder, to any depth: each two can be
compared, the other way around with the opposite sign, and what comes before something that comes
before a third comes before the third. A comparison by several criteria in turn has these properties
if each criterion has them, so they pass from the cells to lists of cells, and from there to arrays.
-/

namespace LazyApl

open Outcome

namespace Item

/-- The outcomes of a comparison there and back: a sign, and the opposite one. -/
def AreOpposite (there back : Except Fault Int) : Prop :=
  ∃ c, there = .ok c ∧ back = .ok (-c) ∧ -1 ≤ c ∧ c ≤ 1

/-- The outcomes of comparing a first with a second, a second with a third, and a first with a
third. If neither of the first two is positive, the last is negative as soon as one of them is. -/
def AreTransitive (ab bc ac : Except Fault Int) : Prop :=
  ∀ c d, ab = .ok c → bc = .ok d → c ≤ 0 → d ≤ 0 → ac = .ok (if c = 0 then d else c)

/-- A comparison, and where it is even another one. -/
def thenBy (first second : Except Fault Int) : Except Fault Int := do
  let c ← first
  if c = 0 then second else return c

@[simp] theorem thenBy_zero (second : Except Fault Int) : thenBy (.ok 0) second = second := rfl

theorem thenBy_of_ne {c : Int} (h : c ≠ 0) (second : Except Fault Int) :
    thenBy (.ok c) second = .ok c := by
  simp [thenBy, h, bind, Except.bind, pure, Except.pure]

theorem thenBy_eq_ok {first second : Except Fault Int} {c : Int} :
    thenBy first second = .ok c ↔
      (first = .ok 0 ∧ second = .ok c) ∨ (c ≠ 0 ∧ first = .ok c) := by
  cases first with
  | error e => simp [thenBy, bind, Except.bind]
  | ok d =>
      by_cases hd : d = 0
      · subst hd
        simpa using fun hc h => absurd h.symm hc
      · rw [thenBy_of_ne hd]
        simp only [Except.ok.injEq, hd, false_and, false_or]
        constructor
        · rintro rfl
          exact ⟨hd, rfl⟩
        · exact And.right

theorem AreOpposite.thenBy {there back there' back' : Except Fault Int}
    (h : AreOpposite there back) (h' : AreOpposite there' back') :
    AreOpposite (thenBy there there') (thenBy back back') := by
  obtain ⟨c, rfl, rfl, hc⟩ := h
  by_cases h0 : c = 0
  · subst h0
    exact h'
  · exact ⟨c, thenBy_of_ne h0 _, thenBy_of_ne (by omega) _, hc⟩

theorem AreTransitive.thenBy {ab bc ac ca ab' ba' bc' ac' : Except Fault Int}
    (h : AreTransitive ab bc ac) (hac : AreOpposite ac ca) (h' : AreTransitive ab' bc' ac')
    (hab' : AreOpposite ab' ba') :
    AreTransitive (thenBy ab ab') (thenBy bc bc') (thenBy ac ac') := by
  intro c d hc hd hc0 hd0
  obtain ⟨hab, hc⟩ | ⟨hc1, hab⟩ := thenBy_eq_ok.mp hc
  · obtain ⟨hbc, hd⟩ | ⟨hd1, hbc⟩ := thenBy_eq_ok.mp hd
    · rw [h 0 0 hab hbc le_rfl le_rfl]
      exact h' c d hc hd hc0 hd0
    · -- the first criterion decides, so it does not matter by how much the second one would have
      have hsame := h 0 d hab hbc le_rfl hd0
      rw [if_pos rfl] at hsame
      obtain ⟨e, he, -, hlow, -⟩ := hac
      cases hsame.symm.trans he
      obtain ⟨c', hc', -, hlow', -⟩ := hab'
      cases hc.symm.trans hc'
      rw [hsame, thenBy_of_ne hd1]
      congr 1
      split <;> omega
  · obtain ⟨d₁, hbc, hd1⟩ : ∃ d₁, bc = .ok d₁ ∧ d₁ ≤ 0 := by
      obtain ⟨hbc, -⟩ | ⟨-, hbc⟩ := thenBy_eq_ok.mp hd
      · exact ⟨0, hbc, le_rfl⟩
      · exact ⟨d, hbc, hd0⟩
    have hsame := h c d₁ hab hbc hc0 hd1
    rw [if_neg hc1] at hsame ⊢
    rw [hsame, thenBy_of_ne hc1]

/-- A value stands in order with those of a kind. -/
structure Ranks {α : Type} (f : α → α → Except Fault Int) (P : α → Prop) (x : α) : Prop where
  opposite : ∀ y, P y → AreOpposite (f x y) (f y x)
  transitive : ∀ y z, P y → P z → AreTransitive (f x y) (f y z) (f x z)

section

variable {α : Type} [LinearOrder α] {x y : α}

theorem sign_of_lt (h : x < y) : sign (decide (x < y)) (decide (y < x)) = -1 := by
  simp [sign, h, h.le]

theorem sign_self (x : α) : sign (decide (x < x)) (decide (x < x)) = 0 := by
  simp [sign]

theorem sign_of_gt (h : y < x) : sign (decide (x < y)) (decide (y < x)) = 1 := by
  simp [sign, h, h.le]

theorem sign_nonpos (h : sign (decide (x < y)) (decide (y < x)) ≤ 0) : x ≤ y := by
  by_contra hxy
  rw [sign_of_gt (not_le.mp hxy)] at h
  omega

theorem ranks_sign (x : α) :
    Ranks (fun x y : α => .ok (sign (decide (x < y)) (decide (y < x)))) (fun _ => True) x where
  opposite y _ := by
    refine ⟨_, rfl, ?_⟩
    rcases lt_trichotomy x y with h | rfl | h
    · rw [sign_of_lt h, sign_of_gt h]
      simp
    · rw [sign_self]
      simp
    · rw [sign_of_lt h, sign_of_gt h]
      simp
  transitive y z _ _ c d hc hd hc0 hd0 := by
    cases hc
    cases hd
    rcases (sign_nonpos hc0).lt_or_eq with hxy | rfl
    · rw [sign_of_lt hxy, sign_of_lt (hxy.trans_le (sign_nonpos hd0))]
      rfl
    · rw [sign_self, if_pos rfl]

end

section

variable {α : Type} {f : α → α → Except Fault Int} {P : α → Prop}

/-- Lists by their first difference, and then by length. -/
def lexicographic (f : α → α → Except Fault Int) : List α → List α → Except Fault Int
  | x :: xs, y :: ys => thenBy (f x y) (lexicographic f xs ys)
  | xs, ys => .ok (sign (decide (xs.length < ys.length)) (decide (ys.length < xs.length)))

theorem compareCells_eq (xs ys : List Item) : compareCells xs ys = lexicographic compare xs ys := by
  induction xs generalizing ys with
  | nil => simp [compareCells, lexicographic]
  | cons x xs ih =>
      cases ys with
      | nil => simp [compareCells, lexicographic]
      | cons y ys => simp [compareCells, lexicographic, thenBy, ih]

theorem compareInts_eq (xs ys : List Int) : .ok (compareInts xs ys) =
    lexicographic (fun x y : Int => .ok (sign (decide (x < y)) (decide (y < x)))) xs ys := by
  induction xs generalizing ys with
  | nil => simp [compareInts, lexicographic]
  | cons x xs ih =>
      cases ys with
      | nil => simp [compareInts, lexicographic]
      | cons y ys =>
          rw [compareInts, lexicographic, ← ih]
          rcases lt_trichotomy x y with h | rfl | h
          · rw [if_neg h.ne, sign_of_lt h]
            rfl
          · rw [if_pos rfl, sign_self]
            rfl
          · rw [if_neg h.ne', sign_of_gt h]
            rfl

theorem lexicographic_cons_nil (x : α) (xs : List α) :
    lexicographic f (x :: xs) [] = .ok 1 := by
  simp [lexicographic, sign]

theorem lexicographic_nil_cons (x : α) (xs : List α) :
    lexicographic f [] (x :: xs) = .ok (-1) := by
  simp [lexicographic, sign]

theorem lexicographic_nil_nil : lexicographic f [] [] = .ok 0 := by
  simp [lexicographic, sign]

/-- Lists stand in order if their members do. -/
theorem ranks_lexicographic {xs : List α} (h : ∀ x ∈ xs, Ranks f P x) :
    Ranks (lexicographic f) (fun ys => ∀ y ∈ ys, P y) xs := by
  induction xs with
  | nil =>
      constructor
      · intro ys _
        cases ys with
        | nil => exact ⟨0, lexicographic_nil_nil, lexicographic_nil_nil, by omega⟩
        | cons y ys =>
            exact ⟨-1, lexicographic_nil_cons y ys, lexicographic_cons_nil y ys, by omega⟩
      · intro ys zs _ _ c d hc hd hc0 hd0
        cases ys with
        | nil =>
            rw [lexicographic_nil_nil] at hc
            cases hc
            rwa [if_pos rfl]
        | cons y ys =>
            rw [lexicographic_nil_cons] at hc
            cases hc
            cases zs with
            | nil =>
                rw [lexicographic_cons_nil] at hd
                cases hd
                omega
            | cons z zs => exact lexicographic_nil_cons z zs
  | cons x xs ih =>
      obtain ⟨hx, hxs⟩ := List.forall_mem_cons.mp h
      have hrest := ih hxs
      constructor
      · intro ys hys
        cases ys with
        | nil => exact ⟨1, lexicographic_cons_nil x xs, lexicographic_nil_cons x xs, by omega⟩
        | cons y ys =>
            -- the first members decide, or they are even and the rest decides
            obtain ⟨hy, hys⟩ := List.forall_mem_cons.mp hys
            exact (hx.opposite y hy).thenBy (hrest.opposite ys hys)
      · intro ys zs hys hzs
        cases ys with
        | nil =>
            intro c d hc hd hc0 hd0
            rw [lexicographic_cons_nil] at hc
            cases hc
            omega
        | cons y ys =>
            obtain ⟨hy, hys⟩ := List.forall_mem_cons.mp hys
            cases zs with
            | nil =>
                intro c d hc hd hc0 hd0
                rw [lexicographic_cons_nil] at hd
                cases hd
                omega
            | cons z zs =>
                obtain ⟨hz, hzs⟩ := List.forall_mem_cons.mp hzs
                exact (hx.transitive y z hy hz).thenBy (hx.opposite z hz)
                  (hrest.transitive ys zs hys hzs) (hrest.opposite ys hys)

end

theorem areExact_iff {xs : List Item} : areExact xs = true ↔ ∀ x ∈ xs, isExact x = true := by
  induction xs with
  | nil => simp [areExact]
  | cons x xs ih => simp [areExact, ih]

theorem isExact_cases {x : Item} (h : x.isExact) :
    (∃ n, x = int n) ∨ (∃ s, x = text s) ∨ ∃ s xs fill, x = array ⟨s, xs, fill⟩ ∧ areExact xs := by
  unfold isExact at h
  split at h
  · exact .inl ⟨_, rfl⟩
  · exact .inr (.inl ⟨_, rfl⟩)
  · exact .inr (.inr ⟨_, _, _, rfl, h⟩)
  · cases h

theorem compare_array (s t : Shape) (xs ys : List Item) (p q : Option Item) :
    compare (array ⟨s, xs, p⟩) (array ⟨t, ys, q⟩) =
      thenBy (compareCells xs ys) (.ok (compareInts s t)) := by
  rw [compare, thenBy]
  refine congrArg _ (funext fun c => ?_)
  split <;> rfl

theorem compare_of_sort_ne {x y : Item} (h : x.sort ≠ y.sort) :
    compare x y = .ok (if x.sort < y.sort then -1 else 1) := by
  unfold compare
  split
  · exact absurd rfl h
  · rw [if_pos h]

theorem compare_of_sort_lt {x y : Item} (h : x.sort < y.sort) : compare x y = .ok (-1) := by
  rw [compare_of_sort_ne h.ne, if_pos h]

theorem compare_of_sort_gt {x y : Item} (h : y.sort < x.sort) : compare x y = .ok 1 := by
  rw [compare_of_sort_ne h.ne', if_neg h.not_gt]

theorem sort_le_of_compare {x y : Item} {c : Int} (h : compare x y = .ok c) (hc : c ≤ 0) :
    x.sort ≤ y.sort := by
  by_contra hs
  rw [compare_of_sort_gt (not_le.mp hs)] at h
  cases h
  omega

theorem ranks_of_sort {x : Item} {P : Item → Prop}
    (h : Ranks compare (fun y => P y ∧ y.sort = x.sort) x) : Ranks compare P x where
  opposite y hy := by
    rcases lt_trichotomy x.sort y.sort with hs | hs | hs
    · exact ⟨-1, compare_of_sort_lt hs, compare_of_sort_gt hs, by omega⟩
    · exact h.opposite y ⟨hy, hs.symm⟩
    · exact ⟨1, compare_of_sort_gt hs, compare_of_sort_lt hs, by omega⟩
  transitive y z hy hz c d hc hd hc0 hd0 := by
    rcases (sort_le_of_compare hc hc0).lt_or_eq with hxy | hxy
    · have hxz := hxy.trans_le (sort_le_of_compare hd hd0)
      cases (compare_of_sort_lt hxy).symm.trans hc
      exact compare_of_sort_lt hxz
    · rcases (sort_le_of_compare hd hd0).lt_or_eq with hyz | hyz
      · cases (compare_of_sort_lt hyz).symm.trans hd
        obtain ⟨c', hc', -, hlow, -⟩ := h.opposite y ⟨hy, hxy.symm⟩
        cases hc.symm.trans hc'
        rw [compare_of_sort_lt (hxy ▸ hyz)]
        congr 1
        split <;> omega
      · exact h.transitive y z ⟨hy, hxy.symm⟩ ⟨hz, hyz.symm.trans hxy.symm⟩ c d hc hd hc0 hd0

theorem ranks_of_linearOrder {α : Type} [LinearOrder α] {f : α → Item} (a : α)
    (hc : ∀ b c, compare (f b) (f c) = .ok (sign (decide (b < c)) (decide (c < b))))
    (hf : ∀ y, isExact y = true → y.sort = (f a).sort → ∃ b, y = f b) :
    Ranks compare (fun y => isExact y = true) (f a) := by
  refine ranks_of_sort ⟨fun y hy => ?_, fun y z hy hz => ?_⟩
  · obtain ⟨b, rfl⟩ := hf y hy.1 hy.2
    simp only [hc]
    exact (ranks_sign a).opposite b trivial
  · obtain ⟨b, rfl⟩ := hf y hy.1 hy.2
    obtain ⟨c, rfl⟩ := hf z hz.1 hz.2
    simp only [hc]
    exact (ranks_sign a).transitive b c trivial trivial

theorem ranks_int (m : Int) : Ranks compare (fun y => isExact y = true) (int m) := by
  refine ranks_of_linearOrder (f := int) m (fun _ _ => rfl) fun y hy hs => ?_
  obtain hn | ⟨s, rfl⟩ | ⟨s, xs, fill, rfl, -⟩ := isExact_cases hy
  · exact hn
  · cases hs
  · cases hs

theorem ranks_text (s : String) : Ranks compare (fun y => isExact y = true) (text s) := by
  refine ranks_of_linearOrder (f := text) s (fun _ _ => rfl) fun y hy hs => ?_
  obtain ⟨n, rfl⟩ | ht | ⟨s, xs, fill, rfl, -⟩ := isExact_cases hy
  · cases hs
  · exact ht
  · cases hs

theorem ranks_array (s : Shape) {xs : List Item} (fill : Option Item)
    (h : ∀ x ∈ xs, Ranks compare (fun y => isExact y = true) x) :
    Ranks compare (fun y => isExact y = true) (array ⟨s, xs, fill⟩) := by
  have kind {y : Item} (h : y.isExact = true ∧ y.sort = (array ⟨s, xs, fill⟩).sort) :
      ∃ t ys p, y = array ⟨t, ys, p⟩ ∧ ∀ y ∈ ys, isExact y = true := by
    obtain ⟨n, rfl⟩ | ⟨s, rfl⟩ | ⟨t, ys, p, rfl, hys⟩ := isExact_cases h.1
    · cases h.2
    · cases h.2
    · exact ⟨t, ys, p, rfl, areExact_iff.mp hys⟩
  have cells := ranks_lexicographic h
  have shapes := ranks_lexicographic fun n (_ : n ∈ s) => ranks_sign n
  refine ranks_of_sort ⟨fun y hy => ?_, fun y z hy hz => ?_⟩
  · obtain ⟨t, ys, p, rfl, hys⟩ := kind hy
    simp only [compare_array, compareCells_eq, compareInts_eq]
    exact (cells.opposite ys hys).thenBy (shapes.opposite t (by simp))
  · obtain ⟨t, ys, p, rfl, hys⟩ := kind hy
    obtain ⟨u, zs, q, rfl, hzs⟩ := kind hz
    simp only [compare_array, compareCells_eq, compareInts_eq]
    exact (cells.transitive ys zs hys hzs).thenBy (cells.opposite zs hzs)
      (shapes.transitive t u (by simp) (by simp)) (shapes.opposite t (by simp))

mutual

theorem ranks_compare : ∀ x : Item, isExact x = true →
    Ranks compare (fun y => isExact y = true) x
  | scalar s, h => by
      obtain ⟨n, hn⟩ | ⟨t, ht⟩ | ⟨_, _, _, ha, -⟩ := isExact_cases h
      · exact hn ▸ ranks_int n
      · exact ht ▸ ranks_text t
      · cases ha
  | array ⟨s, xs, fill⟩, h => ranks_array s fill (ranks_members xs (areExact_iff.mp h))
  | list xs, h => by cases h
  | view v, h => by cases h

theorem ranks_members : ∀ xs : List Item, (∀ x ∈ xs, isExact x = true) →
    ∀ x ∈ xs, Ranks compare (fun y => isExact y = true) x
  | [], _ => by simp
  | x :: xs, h => by
      obtain ⟨hx, hxs⟩ := List.forall_mem_cons.mp h
      exact List.forall_mem_cons.mpr ⟨ranks_compare x hx, ranks_members xs hxs⟩

end

theorem ranks_compareCells {xs : List Item} (h : areExact xs = true) :
    Ranks compareCells (fun ys => areExact ys = true) xs := by
  have hxs := ranks_lexicographic (ranks_members xs (areExact_iff.mp h))
  refine ⟨fun ys hys => ?_, fun ys zs hys hzs => ?_⟩
  · simp only [compareCells_eq]
    exact hxs.opposite ys (areExact_iff.mp hys)
  · simp only [compareCells_eq]
    exact hxs.transitive ys zs (areExact_iff.mp hys) (areExact_iff.mp hzs)

end Item
end LazyApl
