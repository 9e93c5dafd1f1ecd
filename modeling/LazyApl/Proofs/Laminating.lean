import LazyApl.Proofs.Complements
import LazyApl.Proofs.Doubles
import LazyApl.Proofs.Sources
/-!
# Stacking arrays along a new axis

Arrays that are stacked along a new axis lie one after another along it, each with an extent of one.
They are joined so, and with the same result, if each of them is first given the new axis by a
reshape. The coordinate along the new axis then counts operands that start at consecutive places.
-/
namespace LazyApl

open Outcome

namespace Join

variable {s u : Shape} {shapes : List Shape} {k m : Nat} {cs : List Int} {axis : Item}
  {origin : Origin} {gens : List (Gen Item)} {gen : Gen Item}

/-- Arrays that can be stacked have one shape, scalars aside; if all of them are scalars, it is
theirs. -/
structure AreCells (s : Shape) (shapes : List Shape) : Prop where
  mem : s ∈ shapes
  eq : ∀ u ∈ shapes, u = [] ∨ u = s

theorem AreCells.filter_eq (h : AreCells s shapes) :
    ∃ n, (shapes.map Extents.ofShape).filter (!·.isEmpty) = List.replicate n (.ofShape s) ∧
      (s ≠ [] → n ≠ 0) := by
  have hall : ∀ e ∈ (shapes.map Extents.ofShape).filter (!·.isEmpty), e = .ofShape s := by
    intro e he
    obtain ⟨he, hne⟩ := List.mem_filter.mp he
    obtain ⟨u, hu, rfl⟩ := List.mem_map.mp he
    rcases h.eq u hu with rfl | rfl
    · cases hne
    · rfl
  refine ⟨_, List.eq_replicate_of_mem hall, fun hs h0 => ?_⟩
  have hmem : Extents.ofShape s ∈ (shapes.map Extents.ofShape).filter (!·.isEmpty) :=
    List.mem_filter.mpr ⟨List.mem_map_of_mem h.mem, by simpa [Extents.ofShape] using hs⟩
  rw [List.length_eq_zero_iff.mp h0] at hmem
  cases hmem

/-- The layout of arrays that can be stacked. -/
theorem AreCells.stacked_eq (h : AreCells s shapes) (hpos : place axis origin = .ok (k : Int))
    (hk : k ≤ s.length) : stacked (shapes.map .ofShape) axis origin =
      .ok ⟨k, (upTo shapes.length).map .int, .ofShape (inserted s k shapes.length)⟩ := by
  have hrank : s.length ≤ ((shapes.map Extents.ofShape).map List.length).foldl max 0 := by
    refine le_foldl_max (.inr ?_)
    rw [List.map_map]
    exact List.mem_map.mpr ⟨s, h.mem, Extents.length_ofShape s⟩
  obtain ⟨n, hcells, hn⟩ := h.filter_eq
  have hequal : firstUnequal (List.replicate n (.ofShape s)) = none := by
    cases n with
    | zero => rfl
    | succ n =>
        simp only [List.replicate_succ, firstUnequal, Option.map_eq_none_iff, List.find?_eq_none]
        intro e he
        obtain rfl := List.eq_of_mem_replicate he
        simp
  have hinner : (List.replicate n (Extents.ofShape s)).headD [] = .ofShape s := by
    cases n with
    | zero =>
        obtain rfl : s = [] := not_not.mp fun hs => hn hs rfl
        rfl
    | succ n => rfl
  have hbounds : ¬ ((k : Int) < 0 ∨
      (((shapes.map Extents.ofShape).map List.length).foldl max 0 : Nat) < (k : Int)) := by omega
  simp only [stacked, hpos, bind, Except.bind, if_neg hbounds, hcells, hequal, hinner]
  rw [← Extents.inserted_ofShape, List.length_map]
  rfl

theorem own_inserted {n : Int} (hk : k ≤ s.length) (hu : u = [] ∨ u = s) (c : List Int) :
    own (inserted s k n) u k c = if u = [] then [] else c.eraseIdx k := by
  have hlen := length_inserted hk n
  unfold own
  rcases hu with rfl | rfl
  · rfl
  · rw [if_pos (show u.length < (inserted u k n).length by omega)]

theorem within_own {n : Int} (hk : k ≤ s.length) (hu : u = [] ∨ u = s)
    (hc : Shape.Within (inserted s k n) cs) : u.Within (own (inserted s k n) u k cs) := by
  rw [own_inserted hk hu]
  split
  · rename_i hnil
    exact hnil ▸ Shape.within_nil
  · rename_i hne
    obtain rfl := hu.resolve_left hne
    have herase := hc.eraseIdx k
    rwa [eraseIdx_inserted hk] at herase

theorem cell_stacked {n : Int} {offsets : List Number} (hk : k ≤ s.length)
    (hc : Shape.Within (inserted s k n) cs) (hm : cs[k]? = some (m : Int))
    (hu : shapes[m]? = some u) (hus : u = [] ∨ u = s) (hgen : gens[m]? = some gen) :
    (cells ⟨k, offsets, .ofShape (inserted s k n)⟩ true (shapes.map .ofShape) gens).cell
        (.int (Shape.dot cs (Shape.strides (inserted s k n)))) =
      gen.cell (.int (Shape.dot (own (inserted s k n) u k cs) u.strides)) := by
  rw [cell_of_locate (locate_stacked hc hm ..) hu hgen, own_inserted hk hus]

theorem AreCells.settle_cell {n : Int} {offsets : List Number} {xs : List Item} {x : Item}
    {F : List Int → Item} (h : AreCells s shapes) (hk : k ≤ s.length)
    (hgens : List.Forall₂ (fun x gen => x.lift.generator = .ok gen) xs gens)
    (hx : xs[m]? = some x) (hu : shapes[m]? = some u) (hF : x.lift.OffersAt u F)
    (hc : Shape.Within (inserted s k n) cs) (hm : cs[k]? = some (m : Int)) :
    (cells ⟨k, offsets, .ofShape (inserted s k n)⟩ true (shapes.map .ofShape) gens).cell
        (.int (Shape.dot cs (Shape.strides (inserted s k n)))) >>= Item.settle =
      .ok (F (own (inserted s k n) u k cs)) := by
  have hus := h.eq u (List.mem_of_getElem? hu)
  have hown := within_own hk hus hc
  obtain ⟨gen, hgk, hgen⟩ := getElem?_forall₂ hgens hx
  obtain ⟨gen', hgen', heach⟩ := hF.cells
  obtain rfl := Except.ok.inj (hgen.symm.trans hgen')
  rw [cell_stacked hk hc hm hu hus hgk, heach _ hown.holds, Shape.coordinates_dot hown]

/-- An array that is stacked takes part in the join along the new axis, with an extent of one. -/
theorem takesPart_inserted (hk : k ≤ s.length) (hu : u = [] ∨ u = s) :
    TakesPart (inserted s k 1) k 1 u := by
  have hlen := length_inserted hk (1 : Int)
  have hset : (inserted s k 1).set k (1 : Int) = inserted s k 1 := inserted_set hk 1 1
  have hscalar : TakesPart (inserted s k 1) k 1 [] := by
    refine ⟨.scalar, ?_⟩
    have hne : ¬ (Extents.ofShape []).length = (Extents.ofShape (inserted s k 1)).length := by
      simp only [Extents.length_ofShape, List.length_nil]
      omega
    rw [extended, if_neg hne]
    exact congrArg Except.ok (Extents.replaced_ofShape _ k 1)
  rcases hu with rfl | rfl
  · exact hscalar
  · by_cases hnil : u = []
    · subst hnil
      exact hscalar
    · refine ⟨?_, ?_⟩
      · have hslice : FitsIn (inserted u k 1) k 1 ((inserted u k 1).eraseIdx k) := .slice
        rwa [eraseIdx_inserted hk] at hslice
      · have hempty : ¬ List.isEmpty (Extents.ofShape u) := by simpa [Extents.ofShape] using hnil
        rw [extended, if_neg (by simp only [Extents.length_ofShape]; omega), if_neg hempty,
          if_pos (by simp only [Extents.length_ofShape]; omega), hset]
        exact congrArg _ (Extents.inserted_ofShape u k 1)

theorem sub_real {x : Float} {b d : Number} (h : (Number.real x).sub b = .ok d) (n : Int) :
    d ≠ .int n := by
  rintro rfl
  obtain ⟨p, hp, h⟩ := bind_eq_ok.mp h
  cases b with
  | int b =>
      obtain ⟨y, _, hp⟩ := bind_eq_ok.mp hp
      cases hp
      cases h
  | real y =>
      cases hp
      cases h
  | complex y =>
      cases hp
      cases h

/-- The place of an axis between axes is one after a double rounded down. -/
theorem exists_wholeBelow {pos : Int} (hb : isBetween (some axis) = .ok true)
    (hpos : place axis origin = .ok pos) : ∃ y n, Number.wholeBelow y = .ok n ∧ pos = n + 1 := by
  have hwhole {n : Int} (h : (do let _ ← Number.double n; return false : Except Fault Bool) =
      .ok true) : False := by
    obtain ⟨_, _, h⟩ := bind_eq_ok.mp h
    cases h
  cases axis with
  | scalar a =>
      obtain ⟨x, hx, h⟩ := bind_eq_ok.mp hpos
      obtain ⟨o, _, h⟩ := bind_eq_ok.mp h
      obtain ⟨d, hd, h⟩ := bind_eq_ok.mp h
      cases a with
      | truth b => exact absurd hb hwhole
      | int n => exact absurd hb hwhole
      | real a =>
          cases hx
          cases d with
          | int n => exact absurd rfl (sub_real hd n)
          | real y =>
              obtain ⟨n, hn, h⟩ := bind_eq_ok.mp h
              exact ⟨y, n, hn, (Except.ok.inj h).symm⟩
          | complex z => cases h
      | complex z => cases hb
      | nothing => cases hx
      | text t => cases hx
  | list xs => cases hpos
  | array g => cases hpos
  | view v => cases hpos

end Join

namespace Item

variable {s : Shape} {k : Nat} {shapes : List Shape} {front : Item} {rest : List Item}
  {axis : Item} {first : Bool} {origin : Origin}

/-- Stacked arrays offer the items of each of them, where the coordinate along the new axis counts
the array. -/
theorem exists_laminate_offers
    (hx : List.Forall₂ (fun x u => ∃ F, x.lift.OffersAt u F) (front :: rest) shapes)
    (hfront : front.lift.IsReady) (hs : s.IsProper) (h : Join.AreCells s shapes)
    (hb : Join.isBetween (some axis) = .ok true) (hpos : Join.place axis origin = .ok (k : Int))
    (hk : k ≤ s.length) :
    ∃ v G, catenate (front :: rest) (some axis) first origin = .ok v ∧ v.IsReady ∧
      v.prototype = front.lift.prototype ∧ v.OffersAt (inserted s k shapes.length) G ∧
      ∀ (m : Nat) x u F, (front :: rest)[m]? = some x → shapes[m]? = some u →
        x.lift.OffersAt u F → ∀ c, Shape.Within (inserted s k 1) c →
          G (c.set k m) = F (Join.own (inserted s k 1) u k c) := by
  have hj : Join.layout (shapes.map .ofShape) (some axis) first origin =
      .ok ⟨k, (upTo shapes.length).map .int, .ofShape (inserted s k shapes.length)⟩ := by
    simp only [Join.layout, hb, bind, Except.bind, h.stacked_eq hpos hk]
  obtain ⟨v, gens, hv, hcomputed, hproto, hshape, hetype, hgen, hgens⟩ :=
    catenate_answers (hx.imp fun _ _ h => ⟨_, h.choose_spec⟩) hb hj
  have hu : Shape.IsProper (inserted s k shapes.length) := hs.inserted k (Int.natCast_nonneg _)
  have hread : ∀ c, Shape.Within (inserted s k shapes.length) c → ∃ y,
      (Join.cells ⟨k, (upTo shapes.length).map .int, .ofShape (inserted s k shapes.length)⟩ true
        (shapes.map .ofShape) gens).cell
          (.int (Shape.dot c (Shape.strides (inserted s k shapes.length)))) >>= settle = .ok y := by
    intro c hc
    obtain ⟨x, hm, _, h0, hlt⟩ := pickAt_within hc (getElem?_inserted hk _)
    obtain ⟨m, rfl⟩ := Int.eq_ofNat_of_zero_le h0
    have hum := List.getElem?_eq_getElem (Int.ofNat_lt.mp hlt)
    obtain ⟨x, hxm, F, hF⟩ := getElem?_forall₂ hx.flip hum
    exact ⟨_, h.settle_cell hk hgens hxm hum hF hc hm⟩
  have hitem : Nonempty Item := ⟨.nothing⟩
  choose! G hG using hread
  have hoffers : v.OffersAt (inserted s k shapes.length) G := by
    refine ⟨hshape, hetype, _, hgen, fun i hi => ?_⟩
    rw [← hG _ (Shape.coordinates_within hu hi), Shape.dot_coordinates hu hi]
  refine ⟨v, G, hv, isReady_of_catenate hcomputed hshape hu hproto hfront, hproto, hoffers,
    fun m x u F hxm hum hF c hc => ?_⟩
  have hus := h.eq u (List.mem_of_getElem? hum)
  have hlt : k < c.length := by
    rw [hc.length_eq, length_inserted hk]
    omega
  have hmoved : Shape.Within (inserted s k shapes.length) (c.set k m) := by
    have hset := hc.set k (x := m) (n := shapes.length) (by
      have hm := (List.getElem?_eq_some_iff.mp hum).1
      omega)
    rwa [inserted_set hk] at hset
  have hcell := (hG _ hmoved).symm.trans (h.settle_cell hk hgens hxm hum hF hmoved (by simp [hlt]))
  rw [Except.ok.inj hcell, Join.own_inserted hk hus, Join.own_inserted hk hus,
    List.eraseIdx_set_eq]

variable {G : List Int → Item}

/-- Arrays that have been given a new axis with an extent of one offer the items of the stacked
arrays when they are joined along it. -/
theorem exists_catenate_reshaped (first : Bool) (hs : s.IsProper) (hk : k ≤ s.length)
    (hall : ∀ u ∈ shapes, u = [] ∨ u = s)
    (hx : List.Forall₂ (fun x u => (∃ root r, View.StandsOn root r x.lift u) ∧
      ∃ F, x.lift.LaysOut u F) (front :: rest) shapes)
    (hG : ∀ (m : Nat) x u F, (front :: rest)[m]? = some x → shapes[m]? = some u →
      x.lift.OffersAt u F → ∀ c, Shape.Within (inserted s k 1) c →
        G (c.set k m) = F (Join.own (inserted s k 1) u k c))
    (hdouble : ∃ y, Number.double k = .ok y) :
    ∃ wholes w, (front :: rest).mapM (fun x =>
        reshape (view x.lift) (array (Grid.ofInts (inserted s k 1)))) = .ok wholes ∧
      catenate (wholes.map view) (some (.int k)) first (.int 0) = .ok w ∧ w.IsReady ∧
      w.prototype = front.lift.prototype ∧ w.OffersAt (inserted s k shapes.length) G := by
  have hlen := length_inserted hk (1 : Int)
  have hlt : k < (inserted s k 1).length := by omega
  have ht : Shape.IsProper (inserted s k 1) := hs.inserted k Int.one_nonneg
  have hset (n : Int) : (inserted s k 1).set k n = inserted s k n := inserted_set hk 1 n
  let whole (x : Item) : View Item := x.lift.under (.reshape .reshape (inserted s k 1))
  have hwholes : (front :: rest).mapM (fun x =>
      reshape (view x.lift) (array (Grid.ofInts (inserted s k 1)))) =
      .ok ((front :: rest).map whole) := mapM_ok fun x _ => reshape_eq ht
  have hcount : (front :: rest).length = shapes.length := hx.length_eq
  have hsum : (List.replicate shapes.length (1 : Int)).sum = shapes.length := by simp
  have hready : (whole front).IsReady := by
    obtain ⟨u, _, ⟨root, r, hstands⟩, F, hF⟩ := getElem?_forall₂ hx (k := 0) (x := front) rfl
    exact hF.ready.under (hstands.reshape ht) rfl
  have hproto : (whole front).prototype = front.lift.prototype := View.prototype_under rfl
  -- a part has one cell on the new axis, which stands where the part does
  have hparts (m : Nat) (x : Item) (n : Int)
      (hxm : (view (whole front) :: rest.map fun x => view (whole x))[m]? = some x)
      (hn : (List.replicate shapes.length (1 : Int))[m]? = some n) :
      x.lift.OffersAt ((inserted s k 1).set k n) fun c =>
        G (c.set k (c.getD k 0 + ((List.replicate shapes.length (1 : Int)).take m).sum)) := by
    obtain ⟨hm, rfl⟩ : m < shapes.length ∧ 1 = n := by simpa [List.getElem?_replicate] using hn
    rw [← List.map_cons (f := fun x => view (whole x)), List.getElem?_map,
      Option.map_eq_some_iff] at hxm
    obtain ⟨x, hxm, rfl⟩ := hxm
    obtain ⟨u, hu, ⟨root, r, hstands⟩, F, hF⟩ := getElem?_forall₂ hx hxm
    have hpart := Join.takesPart_inserted hk (hall u (List.mem_of_getElem? hu))
    have hoffers := hF.offersAt.reshape_part hstands ht Int.one_nonneg hlt hpart hF.prototype
    rw [hset] at hoffers ⊢
    refine hoffers.congr ht fun c hc => ?_
    have hzero := hc.getD_bounds (a := k) (n := 1) (getElem?_inserted hk 1)
    have htake : ((List.replicate shapes.length (1 : Int)).take m).sum = m := by
      simp [List.take_replicate, hm.le]
    rw [htake, show c.getD k 0 = 0 by omega, zero_add]
    exact (hG m x u F hxm hu hF.offersAt c hc).symm
  have ho : Scalar.number (.int 0) = .ok (.int 0) := rfl
  obtain ⟨w, hw, hwready, hwproto, hoffers⟩ := exists_catenate_offered first ht hlt (by simp)
    (by simp [← hcount]) hparts hready ho (Join.isBetween_int (by rwa [zero_add]))
  rw [hsum, hset] at hoffers
  rw [zero_add] at hw
  refine ⟨_, w, hwholes, ?_, hwready, hwproto.trans hproto, hoffers⟩
  simpa [Function.comp_def] using hw

/-- Arrays of one shape and scalars that are stacked along a new axis come to the same as when each
of them is first given the new axis, with an extent of one, and they are then joined along it. Both
render, unless there are no cells and the first array has no fill. -/
theorem laminate_alike {gs : List (Grid Item)} {pos : Int}
    (hx : List.Forall₂ (fun x g => x.lift.Presents g) (front :: rest) gs)
    (hs : Join.AreCells s (gs.map Grid.shape)) (hb : Join.isBetween (some axis) = .ok true)
    (hpos : Join.place axis origin = .ok pos) (hk : 0 ≤ pos ∧ pos ≤ s.length)
    (first first' : Bool) :
    ∃ v wholes w, catenate (front :: rest) (some axis) first origin = .ok v ∧
      (front :: rest).mapM (fun x =>
        reshape (view x.lift) (array (Grid.ofInts (inserted s pos 1)))) = .ok wholes ∧
      catenate (wholes.map view) (some (.int pos)) first' (.int 0) = .ok w ∧
      v.shape = .ok (.ofShape (inserted s pos gs.length)) ∧
      w.shape = .ok (.ofShape (inserted s pos gs.length)) ∧ v.RendersAlike w ∧
      ((Shape.size (inserted s pos gs.length) = 0 → ∃ p, front.lift.prototype = .ok p) →
        ∃ x, (view v).render = .ok x) := by
  obtain ⟨y, n, hy, hn⟩ := Join.exists_wholeBelow hb hpos
  have hdouble := Number.exists_double hy hk.1 hn.le
  obtain ⟨k, rfl⟩ := Int.eq_ofNat_of_zero_le hk.1
  have hk : k ≤ s.length := Int.ofNat_le.mp hk.2
  have hlays : List.Forall₂ (fun x u => (∃ root r, View.StandsOn root r x.lift u) ∧
      ∃ F, x.lift.LaysOut u F) (front :: rest) (gs.map Grid.shape) := by
    rw [List.forall₂_map_right_iff]
    refine hx.imp fun x g h => ?_
    obtain ⟨root, r, f, hstands, hf, _⟩ := h.exists_yields
    exact ⟨⟨root, r, hstands⟩, _, hf.laysOut⟩
  have hoffers : List.Forall₂ (fun x u => ∃ F, x.lift.OffersAt u F) (front :: rest)
      (gs.map Grid.shape) := hlays.imp fun x u ⟨_, F, hF⟩ => ⟨F, hF.offersAt⟩
  have hproper : s.IsProper := by
    obtain ⟨m, hm⟩ := List.mem_iff_getElem?.mp hs.mem
    obtain ⟨x, _, _, F, hF⟩ := getElem?_forall₂ hlays.flip hm
    exact View.Yields.isProper hF
  have hfront : front.lift.IsReady := by
    obtain ⟨u, _, _, F, hF⟩ := getElem?_forall₂ hlays (k := 0) (x := front) rfl
    exact hF.ready
  obtain ⟨v, G, hv, hready, hproto, hG, hcells⟩ :=
    exists_laminate_offers hoffers hfront hproper hs hb hpos hk
  obtain ⟨wholes, w, hwholes, hw, hready', hproto', hG'⟩ :=
    exists_catenate_reshaped first' hproper hk hs.eq hlays hcells hdouble
  rw [List.length_map] at hG hG'
  refine ⟨v, wholes, w, hv, hwholes, hw, hG.shape, hG'.shape,
    hG.rendersAlike hG' hready hready' (hproto'.trans hproto.symm), fun hfill => ?_⟩
  obtain ⟨g, hg, _⟩ := View.Yields.exists_render ⟨hG, hready, hproto ▸ hfill⟩
  exact ⟨_, hg⟩

/-- Two columns, and one number for all rows. -/
def columns : List (Grid Item) :=
  [Grid.of [3] ([1, 2, 3].map int) none, Grid.of [3] ([4, 5, 6].map int) none,
    Grid.of [] ([7].map int) none]

/-- The columns are stacked along a new axis after their own, and so is the number. -/
theorem columns_laminate_alike :
    ∃ v wholes w y, catenate (columns.map array) (some (.scalar (.real 0.5))) false (.int 0) =
        .ok v ∧
      (columns.map array).mapM (fun x => reshape (view x.lift) (array (Grid.ofInts [3, 1]))) =
        .ok wholes ∧
      catenate (wholes.map view) (some (.int 1)) false (.int 0) = .ok w ∧
      (view v).render =
        .ok (array (Grid.of [3, 3] ([1, 4, 7, 2, 5, 7, 3, 6, 7].map int) none)) ∧
      (view w).render = .ok y ∧
      Alike (array (Grid.of [3, 3] ([1, 4, 7, 2, 5, 7, 3, 6, 7].map int) none)) y := by
  have presents (t : Shape) (ns : List Int) (ht : t.IsProper) (hl : ns.length = t.size.toNat) :
      (View.ofGrid (Grid.of t (ns.map int) none)).Presents (Grid.of t (ns.map int) none) :=
    (View.shownAs_ofGrid (View.isReady_ofNumbers ht hl) ht).presents
  have operands : List.Forall₂ (fun x g => x.lift.Presents g) (columns.map array) columns :=
    .cons (presents [3] _ (by simp [Shape.IsProper]) rfl)
      (.cons (presents [3] _ (by simp [Shape.IsProper]) rfl)
      (.cons (presents [] _ (by simp [Shape.IsProper]) rfl) .nil))
  have cells : Join.AreCells [3] (columns.map Grid.shape) :=
    ⟨by simp [columns, Grid.of], by simp [columns, Grid.of]⟩
  have between : Join.isBetween (some (.scalar (.real 0.5))) = .ok true := rfl
  have place : Join.place (.scalar (.real 0.5)) (.int 0) = .ok 1 := rfl
  obtain ⟨v, wholes, w, hv, hwholes, hw, _, _, halike, _⟩ :=
    laminate_alike operands cells between place (by decide) false false
  cases hv
  obtain ⟨y, hy, hxy⟩ := halike.1
    (array (Grid.of [3, 3] ([1, 4, 7, 2, 5, 7, 3, 6, 7].map int) none)) rfl
  exact ⟨_, wholes, w, y, rfl, hwholes, hw, rfl, hy, hxy⟩

end Item
end LazyApl
