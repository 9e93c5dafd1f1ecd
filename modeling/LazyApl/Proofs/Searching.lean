import LazyApl.Proofs.Catenating
import LazyApl.Proofs.Contents
import LazyApl.Proofs.Equality
import LazyApl.Proofs.Lookups
/-!
# Scalars and vectors of items

The set functions work on scalars and vectors, of which only the items matter. A catenation of two
has the items of both, an array that is made as a whole has its content, and what a lookup tells of
each item sifts a list of them.
-/

namespace LazyApl

open Outcome

namespace Tells

variable {test : Except Fault Bool} {p : Prop}

theorem not (h : Tells test p) : Tells (do return !(← test)) (¬p) := by
  obtain ⟨b, rfl, hb⟩ := h
  refine ⟨!b, rfl, ?_⟩
  rw [← hb]
  simp

theorem eq_decide [Decidable p] (h : Tells test p) : test = .ok (decide p) := by
  by_cases hp : p
  · rw [decide_eq_true hp]
    exact h.eq_true_iff.mpr hp
  · rw [decide_eq_false hp]
    exact h.eq_false_iff.mpr hp

end Tells

namespace Lookup

variable {test : Item → Except Fault Bool} {l : Lookup} {x : Item} {xs : List Item}

theorem IsFirst.isSome_iff {r : Option Nat} (h : IsFirst test xs r) :
    r.isSome = true ↔ ∃ y ∈ xs, test y = .ok true := by
  cases r with
  | none =>
      constructor
      · intro hr
        cases hr
      · intro hpass
        obtain ⟨y, hy, hpass⟩ := hpass
        cases (h y hy).symm.trans hpass
  | some k =>
      obtain ⟨⟨y, hy, hpass⟩, _⟩ := h
      exact ⟨fun _ => ⟨y, List.mem_of_getElem? hy, hpass⟩, fun _ => rfl⟩

/-- A search ends if every test does. -/
theorem exists_isFirst (h : ∀ y ∈ xs, ∃ b, test y = .ok b) : ∃ r, IsFirst test xs r := by
  induction xs with
  | nil => exact ⟨none, by simp [IsFirst]⟩
  | cons y xs ih =>
      obtain ⟨⟨b, hb⟩, hxs⟩ := List.forall_mem_cons.mp h
      cases b with
      | true => exact ⟨some 0, isFirst_cons.mpr (.inl ⟨rfl, hb⟩)⟩
      | false =>
          obtain ⟨r, hr⟩ := ih hxs
          exact ⟨r.map (· + 1), isFirst_cons.mpr (.inr ⟨hb, r, rfl, hr⟩)⟩

theorem IsFaithful.tells_has [Platform] (hl : l.IsFaithful)
    (h : ∃ r, IsFirst (Item.near l.tolerance x) l.values r) :
    Tells (l.has x) (∃ v ∈ l.values, Item.near l.tolerance x v = .ok true) := by
  obtain ⟨r, hr⟩ := h
  have hfind : l.find x = .ok (r.map fun (j : Nat) => (0 : Int) + j) := by
    rw [hl.find_eq, firstWhere_eq_ok]
    exact ⟨r, rfl, hr⟩
  refine ⟨r.isSome, ?_, hr.isSome_iff⟩
  simp [has, hfind, bind, Except.bind, pure, Except.pure]

end Lookup

theorem Item.keepWhere_eq_filter {test : Item → Except Fault Bool} {p : Item → Bool}
    {xs : List Item} (h : ∀ x ∈ xs, test x = .ok (p x)) :
    keepWhere test xs = .ok (xs.filter p) := by
  induction xs with
  | nil => rfl
  | cons x xs ih =>
      obtain ⟨hx, hxs⟩ := List.forall_mem_cons.mp h
      rw [keepWhere, hx, ih hxs]
      cases hp : p x <;> simp [hp, bind, Except.bind, pure, Except.pure]

namespace Join

variable {w s : Shape} {shapes : List Shape}

theorem extended_flat (hw : w.length = 1) (hs : s.length ≤ 1) :
    extended (.ofShape w) 0 (.ofShape s) = .ok (.ofShape [s.size]) := by
  obtain ⟨n, rfl⟩ := List.length_eq_one_iff.mp hw
  cases s with
  | nil => rfl
  | cons m s =>
      obtain rfl : s = [] := List.length_eq_zero_iff.mp (by simpa using hs)
      simp [extended, Shape.size]

theorem extents_flat (all : List Extents) (hw : w.length = 1) (hs : ∀ s ∈ shapes, s.length ≤ 1) :
    extents all (.ofShape w) 0 (shapes.map .ofShape) = .ok ((shapes.map Shape.size).map .int) := by
  induction shapes with
  | nil => rfl
  | cons s shapes ih =>
      obtain ⟨hs, hshapes⟩ := List.forall_mem_cons.mp hs
      have hoff : Extents.eq (without (Extents.ofShape [s.size]) 0)
          (without (Extents.ofShape w) 0) = true := by
        obtain ⟨n, rfl⟩ := List.length_eq_one_iff.mp hw
        rfl
      have hown : (Extents.ofShape [s.size]).getD (0 : Int).toNat 0 = .int s.size := rfl
      simp only [List.map_cons, extents, extended_flat hw hs, ih hshapes, hoff, hown, if_true,
        bind, Except.bind, pure, Except.pure]

/-- Scalars and vectors are laid out one after another. -/
theorem layout_flat (first : Bool) (origin : Origin) (hp : ∀ s ∈ shapes, s.IsProper)
    (hs : ∀ s ∈ shapes, s.length ≤ 1) :
    layout (shapes.map .ofShape) none first origin =
      .ok ⟨0, (starts (shapes.map Shape.size)).map .int,
        .ofShape [(shapes.map Shape.size).sum]⟩ := by
  have hlengths : (shapes.map Extents.ofShape).map List.length = shapes.map List.length := by
    simp [Function.comp_def]
  have hrank : max ((shapes.map List.length).foldl max 0) 1 = 1 := by
    rcases foldl_max_cases (shapes.map List.length) 0 with h | h
    · rw [h]
      rfl
    · obtain ⟨s, hmem, hlen⟩ := List.mem_map.mp h
      have := hs s hmem
      omega
  obtain ⟨w, -, hw, href⟩ := reference_ofShape hp 0
  rw [hrank] at hw href
  have haxis : (if first then 0 else ((1 : Nat) : Int) - 1) = 0 := by
    cases first <;> rfl
  have hwhole : replaced (Extents.ofShape w) 0 (.int (shapes.map Shape.size).sum) =
      Extents.ofShape [(shapes.map Shape.size).sum] := by
    obtain ⟨n, rfl⟩ := List.length_eq_one_iff.mp hw
    rfl
  simp only [layout, isBetween, aligned, hlengths, hrank, haxis, href, extents_flat _ hw hs,
    totals_zero, bind, Except.bind, pure, Except.pure, List.dropLast_concat]
  simp [hwhole]

/-- The cells of each operand follow those of the operands before it. -/
theorem cell_flat {gens : List (Gen Item)} {gen : Gen Item} {k : Nat} {i : Int}
    (hp : ∀ s ∈ shapes, s.IsProper) (hk : shapes[k]? = some s) (hs : s.length ≤ 1)
    (hgen : gens[k]? = some gen) (hi : s.Holds i) :
    (cells ⟨0, (starts (shapes.map Shape.size)).map .int, .ofShape [(shapes.map Shape.size).sum]⟩
        false (shapes.map .ofShape) gens).cell
        (.int (i + ((shapes.map Shape.size).take k).sum)) = gen.cell (.int i) := by
  have hextents : ∀ n ∈ shapes.map Shape.size, 0 ≤ n := by
    intro n hn
    obtain ⟨u, hu, rfl⟩ := List.mem_map.mp hn
    exact Shape.size_nonneg (hp u hu)
  have hwithin : Shape.Within (([0] : Shape).set 0 s.size) [i] := .cons hi .nil
  have hown : Shape.dot (own [0] s 0 [i]) s.strides = i := by
    cases s with
    | nil =>
        have hzero : 0 ≤ i ∧ i < 1 := by simpa [Shape.Holds] using hi
        simp [own, Shape.dot]
        omega
    | cons n s =>
        obtain rfl : s = [] := List.length_eq_zero_iff.mp (by simpa using hs)
        simp [own, Shape.dot, Shape.strides]
  have hcell := cell_cells (w := [0]) (a := 0) (by simp) hextents (by simp [hk]) hk hgen hwithin
  rw [hown] at hcell
  simpa [Shape.dot, Shape.strides] using hcell

end Join

namespace Item

variable {x y : Item} {xs ys : List Item}

/-- A scalar or a vector, and its items. -/
structure Lists (x : Item) (xs : List Item) : Prop where
  shape : ∃ s : Shape, x.lift.shape = .ok (.ofShape s) ∧ s.IsProper ∧ s.length ≤ 1
  items : x.items = .ok xs

theorem Lists.size_eq (h : x.Lists xs) {s : Shape} (hs : x.lift.shape = .ok (.ofShape s)) :
    s.size = xs.length := by
  obtain ⟨t, ht, hproper, _⟩ := h.shape
  obtain rfl := Extents.ofShape_inj (Except.ok.inj (hs.symm.trans ht))
  have hitems := h.items
  rw [items_lift] at hitems
  rw [length_items hs hitems, Int.toNat_of_nonneg (Shape.size_nonneg hproper)]

theorem Lists.members_eq (h : x.Lists xs) (role : String) :
    (view x.lift).members role = .ok xs := by
  obtain ⟨s, hs, -, hflat⟩ := h.shape
  have hrank : ¬ (1 : Int) < s.length := by omega
  have hlift : (view x.lift).lift.rank = .ok (s.length : Int) := View.rank_of_shape hs
  simp only [members, hlift, if_neg hrank, ← items_lift, h.items, bind, Except.bind]

/-- The items of a list are what its cells render to. -/
theorem Lists.exists_cells (h : x.Lists xs) :
    ∃ gen, x.lift.generator = .ok gen ∧ ∀ (k : Nat) (z : Item), xs[k]? = some z →
      gen.cell (.int k) >>= settle = .ok z := by
  obtain ⟨s, hs, _⟩ := h.shape
  have hshape : (view x.lift).shapeOf = .ok (.ofShape s) := hs
  have hitems := h.items
  rw [items_lift] at hitems
  obtain ⟨gen, hgen, hitems⟩ := bind_eq_ok.mp hitems
  simp only [hshape, Extents.count_ofShape, bind, Except.bind] at hitems
  obtain ⟨_, hget⟩ := mapM_upTo hitems
  refine ⟨gen, hgen, fun k z hk => ?_⟩
  have hlt := (List.getElem?_eq_some_iff.mp hk).1
  have hholds : s.Holds k := by
    unfold Shape.Holds
    have := h.size_eq hs
    omega
  obtain ⟨z', hz', hcell⟩ := hget k hholds
  rw [Int.toNat_natCast, hk] at hz'
  cases hz'
  exact hcell

/-- A scalar or a vector has the items that its cells render to. -/
theorem lists_of_cells {v : View Item} {s : Shape} {gen : Gen Item}
    (hs : v.shape = .ok (.ofShape s)) (hflat : s.length ≤ 1) (hsize : s.size = xs.length)
    (hg : v.generator = .ok gen)
    (hcell : ∀ (k : Nat) (z : Item), xs[k]? = some z → gen.cell (.int k) >>= settle = .ok z) :
    (view v).Lists xs := by
  have hproper : s.IsProper := by
    cases s with
    | nil => exact Shape.isProper_nil
    | cons n s =>
        obtain rfl : s = [] := List.length_eq_zero_iff.mp (by simpa using hflat)
        have hn : n = xs.length := by simpa using hsize
        simp [Shape.IsProper, hn]
  refine ⟨⟨s, hs, hproper, hflat⟩, ?_⟩
  have hitems := items_of_cells (f := fun i => xs.getD i.toNat nothing) hs hg fun i hi => by
    have hlt : i.toNat < xs.length := by
      unfold Shape.Holds at hi
      omega
    have hget := hcell i.toNat _ (List.getElem?_eq_getElem hlt)
    rw [Int.toNat_of_nonneg hi.1] at hget
    rw [hget, List.getD_eq_getElem?_getD, List.getElem?_eq_getElem hlt]
    rfl
  rw [hitems, map_getD_upTo _ _ hsize.symm]

end Item

/-- A vector that is made as a whole, from as many items as it has cells. -/
structure View.IsMadeFrom (v : View Item) (xs : List Item) : Prop where
  content : v.HasContent xs
  shape : v.shape = .ok (.ofShape [(xs.length : Int)])

theorem View.IsMadeFrom.lists {v : View Item} {xs : List Item} (h : v.IsMadeFrom xs)
    (hx : ∀ x ∈ xs, x.settle = .ok x) : (Item.view v).Lists xs :=
  ⟨⟨_, h.shape, by simp [Shape.IsProper], by simp⟩, h.content.items h.shape (by simp) hx⟩

theorem View.isMadeFrom_whole {xs : List Item} {name : String} {content : Lazy (List Item)}
    {etype : Lazy EType} {prototype : Lazy Item} {details : List (String × Lazy Item)}
    (hc : content.get = .ok xs) :
    (whole name content (Item.lengthOf content) etype prototype details).IsMadeFrom xs := by
  refine ⟨hasContent_whole.mpr hc, ?_⟩
  have hlength : (Item.lengthOf content).get = .ok (.ofShape [(xs.length : Int)]) := by
    simp only [Item.lengthOf, Lazy.get_delay, hc, bind, Except.bind]
    rfl
  exact hlength

namespace Item

variable {x y : Item} {xs ys : List Item}

/-- In a catenation of two the items of the first come before those of the second. -/
theorem Lists.catenate (first : Bool) (origin : Origin) (hx : x.Lists xs) (hy : y.Lists ys) :
    ∃ w, catenate [x, y] none first origin = .ok w ∧ (view w).Lists (xs ++ ys) := by
  obtain ⟨s, hs, hsp, hsf⟩ := hx.shape
  obtain ⟨t, ht, htp, htf⟩ := hy.shape
  obtain ⟨gen, hgen, hcell⟩ := hx.exists_cells
  obtain ⟨gen', hgen', hcell'⟩ := hy.exists_cells
  have hsize := hx.size_eq hs
  have hsize' := hy.size_eq ht
  have hproper : ∀ u ∈ [s, t], u.IsProper := by simp [hsp, htp]
  have hlayout := Join.layout_flat first origin hproper (by simp [hsf, htf])
  have hshapes : ([x, y].map lift).mapM View.shape = .ok ([s, t].map .ofShape) := by
    rw [mapM_eq_ok]
    exact .cons hs (.cons ht .nil)
  have hgens : ([x, y].map lift).mapM View.generator = .ok [gen, gen'] := by
    rw [mapM_eq_ok]
    exact .cons hgen (.cons hgen' .nil)
  have hfirst : [gen, gen'][0]? = some gen := rfl
  have hsecond : [gen, gen'][1]? = some gen' := rfl
  have hsum : ([s, t].map Shape.size).sum = ((xs ++ ys).length : Int) := by
    simp [hsize, hsize']
  obtain ⟨w, hw, _, _, hshape, hcells, _⟩ := exists_catenate_of_parts hshapes hgens rfl hlayout
  rw [hsum] at hshape
  refine ⟨w, hw, lists_of_cells hshape (by simp) (by simp) hcells fun k z hk => ?_⟩
  by_cases hlt : k < xs.length
  · have hpart := Join.cell_flat hproper rfl hsf hfirst (i := k) (by unfold Shape.Holds; omega)
    rw [List.take_zero, List.sum_nil, add_zero] at hpart
    rw [List.getElem?_append_left hlt] at hk
    rw [hpart]
    exact hcell k z hk
  · have hpart := Join.cell_flat hproper rfl htf hsecond
      (i := (k - xs.length : Nat)) (by
        have := (List.getElem?_eq_some_iff.mp hk).1
        rw [List.length_append] at this
        unfold Shape.Holds
        omega)
    have hplace : ((k - xs.length : Nat) : Int) + (([s, t].map Shape.size).take 1).sum = k := by
      simp [hsize]
      omega
    rw [hplace] at hpart
    rw [List.getElem?_append_right (by omega)] at hk
    rw [hpart]
    exact hcell' _ z hk

end Item
end LazyApl
