import LazyApl.Proofs.Filling
import LazyApl.Proofs.Paths
import LazyApl.Proofs.Picking
/-!
# The first item, taken out in two ways

The first item of an array is the item that is picked at its first position. Both ways to take it
out show the same array, but they give it different fills. A pick has the fill of the item as an
array, which is made from the first cell of that one; the first item has a fill that is made from
all of the item. Simple items have the same fill either way. A fill made from an array that has
cells is an array with these, each replaced by its own fill, so it nests deeper than the fill of a
cell.
-/
namespace LazyApl

open Outcome

namespace Shape

variable {t : Shape}

theorem within_zeros (ht : t.IsProper) (h0 : 0 < t.size) : t.Within (t.map fun _ => 0) := by
  have hpos := extent_pos ht h0
  refine List.forall₂_map_right_iff.mpr (List.forall₂_same.mpr fun n hn => ?_)
  exact ⟨le_refl 0, hpos n hn⟩

theorem dot_zeros (s u : List Int) : dot (s.map fun _ => 0) u = 0 := by
  induction s generalizing u with
  | nil => simp [dot]
  | cons n s ih =>
      cases u with
      | nil => simp [dot]
      | cons m u => rw [List.map_cons, dot, ih, zero_mul, add_zero]

end Shape

namespace View

variable {v w : View Item} {t : Shape} {f : Int → Item} {p : Item}

/-- A computed array shows what another array shows; its fill is its own. -/
structure ShowsAs (w v : View Item) : Prop where
  computed : w.IsComputed
  shape : w.shape = v.shape
  etype : w.etype = v.etype
  generator : w.generator = v.generator

theorem AnswersAs.showsAs (h : w.AnswersAs v) : w.ShowsAs v :=
  ⟨h.computed, h.shape, h.etype, h.generator⟩

/-- With a fill that is rendered, an array yields what the array yields that it shows. -/
theorem ShowsAs.yields (h : w.ShowsAs v) (hv : v.Yields t f) (hp : w.prototype = .ok p)
    (hsettle : p.settle = .ok p) : w.Yields t f := by
  refine ⟨⟨?_, ?_, ?_⟩, ⟨fun e he => ?_, fun q hq => ?_, fun g hg => ?_⟩, fun _ => ⟨p, hp⟩⟩
  · rw [h.shape]
    exact hv.shape
  · rw [h.etype]
    exact hv.etype
  · rw [h.generator]
    exact hv.cells
  · rw [h.shape] at he
    exact hv.ready.shape e he
  · obtain rfl := Except.ok.inj (hp.symm.trans hq)
    exact hsettle
  · obtain ⟨facts, rfl⟩ := h.computed
    cases hg

end View

namespace Item

variable {x y : Item} {g : Grid Item} {origin : Origin} {o : Int} {path : Item}

theorem IsSound.exists_yields_disclosed (hx : x.IsSound) (hk : x.IsKept) :
    ∃ t f, x.disclosed.Yields t f := by
  cases hx with
  | scalar s => exact ⟨_, _, yields_disclosed_scalar s⟩
  | list xs => exact ⟨_, _, yields_disclosed_list xs⟩
  | @array g ready _ =>
      obtain ⟨f, hf, _⟩ := View.yields_ofGrid ready
      exact ⟨_, f, (answersAs_disclosed_array g).yields hf⟩
  | view _ _ => cases hk

theorem Alike.isGrid_eq (h : Alike x y) : x.isGrid = y.isGrid := by
  cases h with
  | refl => rfl
  | same h => cases x <;> cases y <;> first | rfl | cases h
  | cells _ => rfl

theorem length_typifyAll (xs : List Item) : (typifyAll xs).length = xs.length := by
  induction xs with
  | nil => rfl
  | cons x xs ih => rw [typifyAll, List.length_cons, ih, List.length_cons]

theorem typify_array (g : Grid Item) : ∃ fill,
    (array g).typify = array ⟨g.shape, typifyAll g.items, fill⟩ := by
  obtain ⟨s, xs, fill⟩ := g
  exact ⟨_, by rw [typify]⟩

theorem isGrid_typify (hx : x.isGrid = false) : x.typify.stored.isGrid = false := by
  cases x with
  | scalar s => cases s <;> rfl
  | array g => cases hx
  | _ => rfl

theorem IsSound.length_eq (h : (Item.array g).IsSound) : g.items.length = g.shape.size.toNat := by
  cases h with
  | array ready _ => exact (ready.kept g rfl).length_eq

/-- A fill made from an array that is stored in no box is stored in no box either. -/
theorem IsSound.stored_typify (hx : x.IsSound) (hk : x.IsKept) (hg : x.isGrid = true) :
    x.typify.stored = x.typify := by
  induction hx with
  | scalar s => cases hg
  | list xs => cases hg
  | view _ _ => cases hk
  | @array g ready items ih =>
      have hitem := (ready.kept g rfl).items
      obtain ⟨fill, hfill⟩ := typify_array g
      rw [hfill]
      have hbox := hk.isArray_eq
      obtain ⟨s, xs, f⟩ := g
      match s, xs with
      | _ :: _, _ => rfl
      | [], [] => rfl
      | [], _ :: _ :: _ => rfl
      | [], [y] =>
          rw [hg] at hbox
          have hy : y.isGrid = true := by simpa [isArray, isBox] using hbox
          have hstored := ih y List.mem_cons_self (hitem y List.mem_cons_self) hy
          cases y with
          | array h =>
              obtain ⟨fill', hfill'⟩ := typify_array h
              simp only [typifyAll]
              rw [hstored, hfill']
              rfl
          | _ => cases hy

/-- A fill made from an array with cells is not alike to the fill made from the first of them, which
nests less deep. -/
theorem IsSound.not_alike_typify (hx : (Item.array g).IsSound) {ys : List Item}
    (hitems : g.items = y :: ys) : ¬ Alike (Item.array g).typify y.typify.stored := by
  generalize ha : Item.array g = a at hx
  induction hx generalizing g y ys with
  | scalar s => cases ha
  | list xs => cases ha
  | view _ _ => cases ha
  | @array g' ready items ih =>
      obtain rfl : g = g' := Item.array.inj ha
      have hmem : y ∈ g.items := hitems ▸ List.mem_cons_self
      have hkept := ready.kept g rfl
      obtain ⟨fill, hfill⟩ := typify_array g
      intro halike
      rw [hfill, hitems] at halike
      cases hgrid : y.isGrid with
      | false =>
          have hsimple := isGrid_typify hgrid
          rw [← halike.isGrid_eq] at hsimple
          cases hsimple
      | true =>
          cases y with
          | array h =>
              have hsound := items _ hmem
              have hstored := hsound.stored_typify (hkept.items _ hmem) hgrid
              obtain ⟨fill', hfill'⟩ := typify_array h
              have hlen : (typifyAll (.array h :: ys)).length = g.shape.size.toNat := by
                rw [length_typifyAll, ← hitems, hkept.length_eq]
              have hlen' : (typifyAll h.items).length = h.shape.size.toNat := by
                rw [length_typifyAll, hsound.length_eq]
              rw [hstored, hfill', alike_array hlen hlen'] at halike
              obtain ⟨_, hcells⟩ := halike
              cases hinner : h.items with
              | nil =>
                  rw [hinner] at hcells
                  cases hcells
              | cons z zs =>
                  rw [hinner] at hcells
                  simp only [typifyAll] at hcells
                  rw [hstored] at hcells
                  cases hcells with
                  | cons hz _ => exact ih _ hmem hinner rfl hz
          | _ => cases hgrid

/-- A fill made from an array is not alike to the fill of the array, unless that is an array itself
because there is no cell. -/
theorem IsSound.not_alike_prototype (hx : (Item.array g).IsSound) (hk : (Item.array g).IsKept)
    (hempty : g.items = [] → g.prototype.stored.isGrid = false) :
    ¬ Alike (Item.array g).typify.stored g.prototype.stored := by
  rw [hx.stored_typify hk rfl]
  cases hitems : g.items with
  | nil =>
      intro halike
      have hgrid := hempty hitems
      obtain ⟨fill, hfill⟩ := typify_array g
      rw [hfill] at halike
      rw [← halike.isGrid_eq] at hgrid
      cases hgrid
  | cons y ys =>
      have hprototype : g.prototype = y.typify := by simp [Grid.prototype, hitems]
      rw [hprototype]
      exact hx.not_alike_typify hitems

theorem IsSound.exists_prototypeOf (hx : x.IsSound) (hk : x.IsKept) :
    ∃ p, x.prototypeOf = .ok p ∧ p.settle = .ok p := by
  cases hx with
  | scalar s => exact ⟨_, rfl, (isSettled_typify _).settle_eq⟩
  | list xs => exact ⟨_, rfl, (isSettled_typify _).settle_eq⟩
  | @array g ready _ => exact ⟨g.prototype, rfl, ready.fill _ rfl⟩
  | view _ _ => cases hk

theorem prototypeOf_eq (hk : x.IsKept) (hx : x.isGrid = false) : x.prototypeOf = .ok x.typify := by
  cases x with
  | array g => cases hx
  | view v => cases hk
  | _ => rfl

/-- The first item of an array that is not empty shows what the item shows. -/
theorem first_spec (hg : (array g).IsSound) (h0 : 0 < g.shape.size) :
    ∃ x, g.items.head? = some x ∧ x.IsSound ∧ x.IsKept ∧
      (View.ofGrid g).cell (.int 0) = .ok x ∧ (first (array g)).ShowsAs x.disclosed ∧
      (first (array g)).prototype = .ok x.typify := by
  have hlen := hg.length_eq
  obtain ⟨x, xs, hx⟩ := List.exists_cons_of_ne_nil (l := g.items) (by
    rintro hnil
    rw [hnil] at hlen
    simp only [List.length_nil] at hlen
    omega)
  have hcell : (View.ofGrid g).cell (.int 0) = .ok x := by
    obtain ⟨gen, hgen, hread⟩ := Grid.exists_generator hlen
    have hgen : (View.ofGrid g).generator = .ok gen := hgen
    have hpick : pickAt g.items 0 = .ok x := by rw [hx]; rfl
    simp only [View.cell, hgen, bind, Except.bind]
    exact (hread 0 ⟨le_refl 0, by simp [hx]⟩).trans hpick
  have hsize : (View.ofGrid g).size = .ok (.int g.shape.size) := Extents.size_ofShape g.shape
  cases hg with
  | array ready items =>
      have hmem : x ∈ g.items := hx ▸ List.mem_cons_self
      have hkept := (ready.kept g rfl).items x hmem
      have hfill : x.fillOf = .ok x.typify := by rw [fillOf, hkept.settle_eq]; rfl
      have hbased : (array g).based = View.ofGrid g := rfl
      refine ⟨x, by rw [hx]; rfl, items x hmem, hkept, hcell, ⟨⟨_, rfl⟩, ?_, ?_, ?_⟩, ?_⟩
      · simp [first, disclosed, hbased, hsize, h0.ne', hcell, bind, Except.bind]
      · simp [first, disclosed, hbased, hsize, h0.ne', hcell, bind, Except.bind]
      · simp [first, disclosed, hbased, hsize, h0.ne', hcell, bind, Except.bind]
      · simp [first, hbased, hsize, h0.ne', hcell, hfill, bind, Except.bind]

theorem exists_pick_array {p : Path} (hp : Path.of path = .ok p)
    (ht : Path.target origin 0 p (view (View.ofGrid g)) = .ok x) :
    ∃ w, pick (array g) path ⟨none, none⟩ origin = .ok w ∧ w.AnswersAs x.disclosed := by
  have hpick : pick (array g) path ⟨none, none⟩ origin = .ok ((pickAlong (View.ofGrid g) p
      origin).showing (pickDetails (array g) (view (View.ofGrid g)) p ⟨none, none⟩ origin)) := by
    simp only [pick, hp, bind, Except.bind]
    rfl
  have halong := answersAs_pickAlong ht
  exact ⟨_, hpick, (halong.computed.answersAs_showing _).trans halong⟩

theorem items_congr {v w : View Item} (hs : v.shape = w.shape)
    (hg : v.generator = w.generator) : (view v).items = (view w).items := by
  have hs' : v.facts.shape.get = w.facts.shape.get := hs
  have hg' : v.facts.generator .now = w.facts.generator .now := hg
  simp only [items, shapeOf, generatorOf, hs', hg']

theorem target_first {x : Item} (ho : origin.number = .ok (.int o)) (hs : g.shape.IsProper)
    (hne : g.shape ≠ []) (h0 : 0 < g.shape.size) (hcell : (View.ofGrid g).cell (.int 0) = .ok x) :
    Path.target origin 0 [g.shape.map fun _ => o] (view (View.ofGrid g)) = .ok x := by
  have hzeros : Path.stripped o (g.shape.map fun _ => o) = g.shape.map fun _ => 0 := by
    simp [Path.stripped]
  have hfinds : Path.Finds o (g.shape.map fun _ => o) (view (View.ofGrid g)) g.shape x := by
    refine ⟨rfl, ?_, ?_⟩
    · rw [hzeros]
      exact Shape.within_zeros hs h0
    · rw [hzeros, Shape.dot_zeros]
      exact hcell
  exact hfinds.target_eq ho hne rfl

/-- The first item of an array that is not empty and the item that is picked at its first position
have the same shape, element type and items. Their fills are the same if the item is no array. If it
is one, then the first item has the fill that is made from the item, and the picked one the fill of
the item, and these are not alike, except where the fill of an empty array is an array. So a take
from the one and the same take from the other both render, but they are alike only if no fill shows
or the fills are alike. -/
theorem first_pick (hg : (array g).IsSound) (hne : g.shape ≠ []) (h0 : 0 < g.shape.size)
    (ho : origin.number = .ok (.int o)) (hp : Path.of path = .ok [g.shape.map fun _ => o]) :
    ∃ x p w, g.items.head? = some x ∧ x.prototypeOf = .ok p ∧
      pick (array g) path ⟨none, none⟩ origin = .ok w ∧
      (first (array g)).shape = w.shape ∧ (first (array g)).etype = w.etype ∧
      (view (first (array g))).items = (view w).items ∧
      (first (array g)).prototype = .ok x.typify ∧ w.prototype = .ok p ∧
      (x.isGrid = false → x.typify = p) ∧
      (∀ h, x = array h → (h.items = [] → p.stored.isGrid = false) →
        ¬ Alike x.typify.stored p.stored) ∧
      ∀ (counts : Item) (axis : Option Item) (origin' : Origin), origin'.IsWhole →
        (∀ u, take (view (first (array g))) counts axis origin' = .ok u →
          ∃ u' a b, take (view w) counts axis origin' = .ok u' ∧ (view u).render = .ok a ∧
            (view u').render = .ok b ∧
            (Alike a b ↔ (u.Overtakes → ¬ u.IsEmpty → Alike x.typify.stored p.stored))) ∧
        ∀ u', take (view w) counts axis origin' = .ok u' →
          ∃ u, take (view (first (array g))) counts axis origin' = .ok u := by
  obtain ⟨x, hx, hsound, hkept, hcell, hshows, hfirst⟩ := first_spec hg h0
  obtain ⟨t, f, hyields⟩ := hsound.exists_yields_disclosed hkept
  have hs : g.shape.IsProper := by
    cases hg with
    | array ready _ => exact ready.isProper rfl
  obtain ⟨w, hw, hanswers⟩ := exists_pick_array hp (target_first ho hs hne h0 hcell)
  obtain ⟨p, hproto, hsettle⟩ := hsound.exists_prototypeOf hkept
  have hown : w.prototype = .ok p := hanswers.prototype.trans hproto
  have hyields₁ := hshows.yields hyields hfirst (isSettled_typify x).settle_eq
  have hyields₂ := hanswers.showsAs.yields hyields hown hsettle
  have hstands₁ := hshows.computed.standsOn hyields₁.shape hyields₁.isProper
  have hstands₂ := hanswers.computed.standsOn hyields₂.shape hyields₂.isProper
  have hshape := hshows.shape.trans hanswers.shape.symm
  have hgenerator := hshows.generator.trans hanswers.generator.symm
  refine ⟨x, p, w, hx, hproto, hw, hshape, hshows.etype.trans hanswers.etype.symm,
    items_congr hshape hgenerator, hfirst, hown, fun hgrid => ?_, ?_,
    fun counts axis origin' ho' => ⟨fun u hu => ?_, fun u' hu' => ?_⟩⟩
  · exact Except.ok.inj ((prototypeOf_eq hkept hgrid).symm.trans hproto)
  · rintro h rfl hempty
    obtain rfl : h.prototype = p := Except.ok.inj hproto
    exact hsound.not_alike_prototype hkept hempty
  · exact hyields₁.take_alike hyields₂ hstands₁ hstands₂ hfirst hown ho' hu
  · obtain ⟨u, _, _, hu, _⟩ :=
      hyields₂.take_alike hyields₁ hstands₂ hstands₁ hown hfirst ho' hu'
    exact ⟨u, hu⟩

/-- A vector with one item, the numbers from one to three. -/
def oneVector : Grid Item := Grid.ofList [array (Grid.ofInts [1, 2, 3])]

/-- Five items of the vector of numbers: the first item fills up with vectors of zeros, and the
picked item with zeros. -/
theorem oneVector_first_pick :
    ∃ w u u' a b, pick (array oneVector) (ints [0]) ⟨none, none⟩ (.int 0) = .ok w ∧
      take (view (first (array oneVector))) (.int 5) none (.int 0) = .ok u ∧
      take (view w) (.int 5) none (.int 0) = .ok u' ∧ (view u).render = .ok a ∧
      (view u').render = .ok b ∧ ¬ Alike a b := by
  have literal : IsLiteral (list [ints [1, 2, 3]]) := by
    refine .list (List.forall_mem_singleton.mpr (.list fun x hx => ?_))
    obtain ⟨n, _, rfl⟩ := List.mem_map.mp hx
    exact .scalar _
  have sound : (array oneVector).IsSound := literal.stored_vectorOf.2
  have origin : Scalar.number (.int 0) = .ok (.int 0) := rfl
  have path : Path.of (ints [0]) = .ok [oneVector.shape.map fun _ => 0] := rfl
  have taken : take (view (first (array oneVector))) (.int 5) none (.int 0) =
    .ok ((first (array oneVector)).under (.cut .take false [5] none)) := rfl
  obtain ⟨x, p, w, hx, hp, hw, hshape, _, _, _, _, _, hfills, htake⟩ :=
    first_pick sound (by decide) (by decide) origin path
  obtain rfl : array (Grid.ofInts [1, 2, 3]) = x := Option.some.inj hx
  obtain rfl : int 0 = p := Except.ok.inj hp
  obtain ⟨u', a, b, hu', ha, hb, halike⟩ := (htake (.int 5) none (.int 0) ⟨0, rfl⟩).1 _ taken
  refine ⟨w, _, u', a, b, hw, taken, hu', ha, hb, fun h => ?_⟩
  have hne : ¬ ((first (array oneVector)).under (.cut .take false [5] none)).IsEmpty := by
    rw [View.isEmpty_iff (s := [5]) rfl]
    decide
  exact hfills _ rfl (by simp [Grid.ofInts, Grid.of])
    (halike.mp h ⟨_, _, _, _, _, _, _, rfl, rfl, rfl, rfl⟩ hne)

end Item
end LazyApl
