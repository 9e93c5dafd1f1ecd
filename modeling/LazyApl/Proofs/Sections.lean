import LazyApl.Proofs.Assigning
import LazyApl.Proofs.Overtaking
/-!
# Sections along one axis

A take or a drop along one axis puts a span on that axis and leaves the others as they are, so one
coordinate says where a cell comes from. An array is described here by the items at its coordinates;
a section without fills shows the same items, moved along the axis.
-/
namespace LazyApl

open Outcome

theorem AxisArgument.located_eq {n rank o : Int} {origin : Origin}
    (ho : origin.number = .ok (.int o)) (h : 0 ≤ n - o ∧ n - o < rank) :
    (AxisArgument.whole n).located rank origin = .ok (.int (n - o)) := by
  have hn : o ≤ n ∧ n < rank + o := by omega
  simp [located, ho, isAmong_int, hn, Scalar.strip, bind, Except.bind]

theorem AxisArgument.located_eq_ok {n rank o : Int} {origin : Origin} {x : Number}
    (ho : origin.number = .ok (.int o)) (h : (AxisArgument.whole n).located rank origin = .ok x) :
    x = .int (n - o) ∧ 0 ≤ n - o ∧ n - o < rank := by
  simp only [located, ho, bind, Except.bind, isAmong_int, Scalar.strip, Number.sub_int] at h
  split at h
  · rename_i hn
    have hn := of_decide_eq_true hn
    exact ⟨(Except.ok.inj h).symm, by omega⟩
  · cases h

namespace Shape

variable {t : Shape} {c : List Int} {a : Nat} {m n x : Int}

theorem Within.getD_bounds (h : t.Within c) (ha : t[a]? = some n) :
    0 ≤ c.getD a 0 ∧ c.getD a 0 < n := by
  obtain ⟨x, hx, _, hb⟩ := pickAt_within h ha
  simpa [List.getD_eq_getElem?_getD, hx] using hb

theorem Within.move (h : Within (t.set a m) c) (ha : t[a]? = some n) (hx : 0 ≤ x ∧ x < n) :
    t.Within (c.set a x) := by
  have hset := h.set a hx
  obtain ⟨hlt, rfl⟩ := List.getElem?_eq_some_iff.mp ha
  rwa [List.set_set, List.set_getElem_self] at hset

end Shape

namespace Span

theorem cut_of_nonneg {k n : Int} (h0 : 0 ≤ k) (hk : k ≤ n) :
    cut false k n = ⟨0, k, 0, 0⟩ ∧ cut true k n = ⟨k, n, 0, 0⟩ := by
  constructor
  · simp only [cut, take, Bool.false_eq_true, if_false, if_pos h0]
    congr 1 <;> omega
  · simp only [cut, Span.drop, if_true, if_pos h0]
    congr 1
    omega

theorem cut_of_neg {k n : Int} (h0 : k < 0) (hk : -n ≤ k) :
    cut true k n = ⟨0, n + k, 0, 0⟩ ∧ cut false k n = ⟨n + k, n, 0, 0⟩ := by
  constructor
  · simp only [cut, Span.drop, if_true, if_neg (not_le.mpr h0)]
    congr 1
    omega
  · simp only [cut, take, Bool.false_eq_true, if_false, if_neg (not_le.mpr h0)]
    congr 1 <;> omega

theorem extent_cells (m n : Int) : extent ⟨m, n, 0, 0⟩ = n - m := by simp [extent, length]

theorem locate_of_not_isPadded {s : Span} (hp : s.isPadded = false) {c : Int} (h0 : 0 ≤ c)
    (hc : c < s.extent) : s.locate c = some (c + s.start) := by
  obtain ⟨x, hx⟩ := isSome_locate hp h0 hc
  have hb : ¬ (s.before ≠ 0 ∨ s.after ≠ 0) := by
    rw [← isPadded_iff, hp]
    exact Bool.false_ne_true
  have hloc := hx
  unfold locate at hloc
  dsimp only at hloc
  split at hloc
  · cases hloc
  · obtain rfl := Option.some.inj hloc
    rw [hx]
    congr 1
    omega

end Span

namespace Section

variable {t : Shape} {a : Nat} {n : Int} {s : Span} {c : List Int}

theorem layout_axes (drop : Bool) (counts axes : List Int) (t : Shape) :
    layout drop counts (some axes) (.ofShape t) =
      .ok (Layout.ofSpans (spansOf drop t (axes.zip counts) (t.map .whole))) := by
  rw [layout, Layout.all_ofShape]
  exact spans_eq drop t axes counts _

theorem layout_along (drop : Bool) (count : Int) (ha : t[a]? = some n) :
    layout drop [count] (some [(a : Int)]) (.ofShape t) =
      .ok (Layout.ofSpans ((t.map .whole).set a (.cut drop count n))) := by
  rw [layout_axes]
  simp [spansOf, ha]

theorem shape_along (t : Shape) (a : Nat) (s : Span) :
    Span.shape ((t.map .whole).set a s) = t.set a s.extent := by
  simp [Span.shape, List.map_set, Function.comp_def]

theorem fitAll_along (ht : t.IsProper) (ha : t[a]? = some n) (hs : s.Fits n) :
    Span.FitAll ((t.map .whole).set a s) t := by
  refine (Span.fitAll_whole ht).set fun m hm => ?_
  rw [ha] at hm
  exact Option.some.inj hm ▸ hs

theorem locateAll_whole (hc : t.Within c) : Span.locateAll (t.map .whole) c = some c := by
  induction hc with
  | nil => rfl
  | cons hx _ ih => simp [Span.locateAll, Span.locate_whole hx.1 hx.2, ih]

theorem locateAll_along (ha : a < t.length) (hc : Shape.Within (t.set a s.extent) c) :
    Span.locateAll ((t.map .whole).set a s) c =
      (s.locate (c.getD a 0)).map fun x => c.set a x := by
  induction t generalizing a c with
  | nil => cases ha
  | cons m t ih =>
      cases a with
      | zero =>
          cases hc with
          | @cons _ y _ c _ hc =>
              simp only [List.map_cons, List.set_cons_zero, Span.locateAll, locateAll_whole hc,
                List.getD_cons_zero, Option.map_some]
              cases s.locate y <;> rfl
      | succ a =>
          cases hc with
          | @cons _ y _ c hy hc =>
              simp only [List.map_cons, List.set_cons_succ, Span.locateAll,
                Span.locate_whole hy.1 hy.2, Option.bind_some, List.getD_cons_succ,
                ih (by simpa using ha) hc, Option.map_map]
              rfl

theorem reach_along (ht : t.IsProper) (ha : t[a]? = some n) (hs : s.Fits n)
    (hc : Shape.Within (t.set a s.extent) c) :
    (linkOf ((t.map .whole).set a s) t).reach (Shape.dot c (Shape.strides (t.set a s.extent))) =
      (s.locate (c.getD a 0)).map fun x => Shape.dot (c.set a x) t.strides := by
  have hlt : a < t.length := (List.getElem?_eq_some_iff.mp ha).1
  have hmaps := maps_linkOf (fitAll_along ht ha hs)
  rw [shape_along] at hmaps
  rw [hmaps.reach_eq hc.holds, Shape.coordinates_dot hc, locateAll_along hlt hc, Option.map_map]
  rfl

theorem isPadded_along (ha : a < t.length) (s : Span) :
    (Layout.ofSpans ((t.map .whole).set a s)).isPadded = s.isPadded := by
  rw [Layout.isPadded_ofSpans]
  cases hs : s.isPadded with
  | true =>
      refine List.any_eq_true.mpr ⟨s, ?_, hs⟩
      exact List.mem_iff_getElem.mpr ⟨a, by simpa using ha, by simp⟩
  | false =>
      refine List.any_eq_false.mpr fun x hx => ?_
      rcases List.mem_or_eq_of_mem_set hx with hx | rfl
      · obtain ⟨m, _, rfl⟩ := List.mem_map.mp hx
        simp
      · simp [hs]

end Section

namespace Step

variable {t : Shape} {a : Nat} {n : Int}

theorem shapeOver_along (style : Cut) (drop : Bool) (count : Int) (ha : t[a]? = some n) :
    (cut style drop [count] (some [(a : Int)])).shapeOver (.ofShape t) =
      .ok (.ofShape (t.set a (Span.cut drop count n).extent)) := by
  simp only [shapeOver, Section.layout_along drop count ha, Layout.extents_ofSpans,
    Section.shape_along, bind, Except.bind]

theorem linkOver_along (style : Cut) (drop : Bool) (count : Int) (ha : t[a]? = some n) :
    (cut style drop [count] (some [(a : Int)])).linkOver (.ofShape t) =
      .ok (Section.linkOf ((t.map .whole).set a (.cut drop count n)) t) := by
  simp only [linkOver, Section.layout_along drop count ha, Section.link_ofSpans, bind, Except.bind]

end Step

namespace View

variable {root : Root Item} {r t u : Shape} {v : View Item} {F G : List Int → Item} {a : Nat}
  {n o count : Int} {style : Cut} {drop : Bool} {origin : Origin}

/-- A section along one axis is made of the array if it has the axis, whichever way the count and
the axis are written. -/
theorem cut_of_asInts {counts axis : Item} (hv : v.shape = .ok (.ofShape t))
    (ho : origin.number = .ok (.int o)) (ha : a < t.length)
    (hcount : (do (← Item.flat counts .leftScalarOrVector).asInts "left argument") =
      Except.ok [count])
    (hread : axis.asInts "axis" = .ok [o + (a : Int)]) :
    Item.cut style drop (.view v) counts (some axis) origin =
      .ok (v.under (.cut style drop [count] (some [(a : Int)]))) := by
  have hrank : (Item.view v).based.rank = .ok (t.length : Int) := by
    have hshape : (Item.view v).based.shape = .ok (.ofShape t) := hv
    simp [rank, hshape, bind, Except.bind, pure, Except.pure]
  have haxis : o + a - o = (a : Int) := by omega
  have hlocated : (AxisArgument.whole (o + a)).located t.length origin = .ok (.int a) := by
    rw [AxisArgument.located_eq ho (by omega), haxis]
  obtain ⟨x, hx, hcount⟩ := bind_eq_ok.mp hcount
  simp only [Item.cut, hx, hcount, hread, hrank, bind, Except.bind]
  simp [hlocated, List.mapM_cons, bind, Except.bind, pure, Except.pure]
  rfl

theorem cut_along (hv : v.shape = .ok (.ofShape t)) (ho : origin.number = .ok (.int o))
    (ha : a < t.length) :
    Item.cut style drop (.view v) (.int count) (some (.int (o + a))) origin =
      .ok (v.under (.cut style drop [count] (some [(a : Int)]))) :=
  cut_of_asInts hv ho ha rfl rfl

/-- The array offers the item `F c` at each coordinates `c`. -/
def OffersAt (v : View Item) (t : Shape) (F : List Int → Item) : Prop :=
  v.Offers t fun i => F (t.coordinates i)

/-- The array yields the item `F c` at each coordinates `c`. -/
def LaysOut (v : View Item) (t : Shape) (F : List Int → Item) : Prop :=
  v.Yields t fun i => F (t.coordinates i)

theorem Yields.laysOut {f : Int → Item} (h : v.Yields t f) :
    v.LaysOut t fun c => f (Shape.dot c t.strides) :=
  h.congr fun i hi => by
    dsimp only
    rw [Shape.dot_coordinates h.isProper hi]

theorem LaysOut.congr (h : v.LaysOut t F) (heq : ∀ c, t.Within c → F c = G c) : v.LaysOut t G :=
  Yields.congr h fun _ hi => heq _ (Shape.coordinates_within (Yields.isProper h) hi)

theorem IsReady.under (h : v.IsReady) {x : Step} (hs : StandsOn root r (v.under x) u)
    (hx : x.isWindow = false) : (v.under x).IsReady := by
  refine ⟨fun e he => ?_, fun p hp => h.fill p ?_, h.kept⟩
  · exact ⟨u, Except.ok.inj (he.symm.trans hs.shape_eq), (hs.stands.keeps Item.fillOf).proper⟩
  · rwa [prototype_under hx] at hp

theorem StandsOn.above_along (h : StandsOn root r v t) (style : Cut) (drop : Bool) (count : Int)
    (ha : t[a]? = some n) :
    StandsOn root r (v.under (.cut style drop [count] (some [(a : Int)])))
      (t.set a (Span.cut drop count n).extent) :=
  h.above (x := .cut style drop [count] (some [(a : Int)])) trivial
    (Step.shapeOver_along style drop count ha)

theorem StandsOn.exists_etype_along (h : StandsOn root r v t) (he : ∃ e, v.etype = .ok e)
    (style : Cut) (drop : Bool) (count : Int) (ha : t[a]? = some n) :
    (∃ e, (v.under (.cut style drop [count] (some [(a : Int)]))).etype = .ok e) ↔
      ((Span.cut drop count n).isPadded = true → ∃ p, v.prototype = .ok p) := by
  have ht := (h.stands.keeps Item.fillOf).proper
  have hfits := Span.fits_cut (ht n (List.mem_of_getElem? ha)) drop count
  have hiff := h.exists_etype_cut he style (Section.layout_along drop count ha)
    (Section.fitAll_along ht ha hfits)
  rwa [Section.isPadded_along (List.getElem?_eq_some_iff.mp ha).1] at hiff

theorem LaysOut.offersAt (h : v.LaysOut t F) : v.OffersAt t F := Yields.toOffers h

theorem OffersAt.congr (h : v.OffersAt t F) (ht : t.IsProper)
    (heq : ∀ c, t.Within c → F c = G c) : v.OffersAt t G := by
  obtain ⟨gen, hgen, hcell⟩ := h.cells
  exact ⟨h.shape, h.etype, gen, hgen,
    fun i hi => heq _ (Shape.coordinates_within ht hi) ▸ hcell i hi⟩

theorem OffersAt.under (h : v.OffersAt t F) (hs : StandsOn root r v t) {x : Step} {l : Link}
    {place : List Int → List Int} (hx : x.IsSound t)
    (hu : x.shapeOver (.ofShape t) = .ok (.ofShape u)) (hl : x.linkOver (.ofShape t) = .ok l)
    (hw : x.isWindow = false) (hplace : ∀ c, u.Within c → t.Within (place c) ∧
      l.reach (Shape.dot c u.strides) = some (Shape.dot (place c) t.strides))
    (he : ∃ e, (v.under x).etype = .ok e) :
    (v.under x).OffersAt u fun c => F (place c) := by
  have hproper := ((hs.above hx hu).stands.keeps Item.fillOf).proper
  have hoffers : (v.under x).Offers u fun i =>
      F (t.coordinates (Shape.dot (place (u.coordinates i)) t.strides)) := by
    refine hs.offers_under hx hu hl hw (fun i hi => ?_) h he
    obtain ⟨hwithin, hreach⟩ := hplace _ (Shape.coordinates_within hproper hi)
    rw [Shape.dot_coordinates hproper hi] at hreach
    exact ⟨hwithin.holds, hreach⟩
  obtain ⟨gen, hgen, hcell⟩ := hoffers.cells
  refine ⟨hoffers.shape, hoffers.etype, gen, hgen, fun i hi => ?_⟩
  rw [hcell i hi, Shape.coordinates_dot (hplace _ (Shape.coordinates_within hproper hi)).1]

theorem LaysOut.under (h : v.LaysOut t F) (hs : StandsOn root r v t) {x : Step} {l : Link}
    {place : List Int → List Int} (hx : x.IsSound t)
    (hu : x.shapeOver (.ofShape t) = .ok (.ofShape u)) (hl : x.linkOver (.ofShape t) = .ok l)
    (hw : x.isWindow = false) (hplace : ∀ c, u.Within c → t.Within (place c) ∧
      l.reach (Shape.dot c u.strides) = some (Shape.dot (place c) t.strides))
    (he : ∃ e, (v.under x).etype = .ok e)
    (hfill : u.size = 0 → ∃ p, v.prototype = .ok p) :
    (v.under x).LaysOut u fun c => F (place c) := by
  refine ⟨h.offersAt.under hs hx hu hl hw hplace he, h.ready.under (hs.above hx hu) hw, ?_⟩
  rwa [prototype_under hw]

variable {s : Span}

theorem LaysOut.cut (h : v.LaysOut t F) (hs : StandsOn root r v t) (ha : t[a]? = some n)
    (hspan : Span.cut drop count n = s) (hpad : s.isPadded = false)
    (hfill : Shape.size (t.set a s.extent) = 0 → ∃ p, v.prototype = .ok p) (style : Cut) :
    (v.under (.cut style drop [count] (some [(a : Int)]))).LaysOut (t.set a s.extent) fun c =>
      F (c.set a (c.getD a 0 + s.start)) := by
  have ht := Yields.isProper h
  have hfits : s.Fits n := hspan ▸ Span.fits_cut (ht n (List.mem_of_getElem? ha)) drop count
  have hshape := Step.shapeOver_along style drop count ha
  have hlink := Step.linkOver_along style drop count ha
  have hetype := hs.exists_etype_along h.etype style drop count ha
  rw [hspan] at hshape hlink hetype
  refine h.under hs (x := .cut style drop [count] (some [(a : Int)])) trivial hshape hlink rfl
    (fun c hc => ?_) (hetype.mpr (by simp [hpad])) hfill
  have hlt := (List.getElem?_eq_some_iff.mp ha).1
  have hx := hc.getD_bounds (a := a) (n := s.extent) (by simp [hlt])
  have hlocate := Span.locate_of_not_isPadded hpad hx.1 hx.2
  refine ⟨hc.move ha (hfits.locate_bounds hlocate), ?_⟩
  rw [Section.reach_along ht ha hfits hc, hlocate, Option.map_some]

end View
end LazyApl
