import LazyApl.Primitive.Amend
import LazyApl.Proofs.Addressing
import LazyApl.Proofs.Bounds
import LazyApl.Proofs.Yielding
/-!
# Selecting and assigning are inverse to each other

A selection yields the items at the positions that it names, and an assignment through the same
indices replaces just these: by the value at the last position of the selection that names them.
So what has been assigned is selected again if no position is named twice, and assigning what has
been selected changes nothing. Nothing here depends on how the array or the values have been made,
only on the items that they yield.
-/
namespace LazyApl

open Outcome

namespace Shape

/-- An array of the shape holds a single value, which may go to all cells of a selection. -/
def IsSingle (s : Shape) : Prop := s.size = 1 ∧ s.length ≤ 1

instance (s : Shape) : Decidable s.IsSingle := inferInstanceAs (Decidable (_ ∧ _))

/-- The position of the value for a position of the selection. -/
def valueAt (s : Shape) (j : Int) : Int := if s.IsSingle then 0 else j

theorem valueAt_self {s : Shape} {j : Int} (hj : s.Holds j) : s.valueAt j = j := by
  unfold valueAt
  split
  · rename_i hs
    unfold Holds at hj
    rw [hs.1] at hj
    omega
  · rfl

end Shape

namespace Grid

/-- The values in the shape of a selection: a single one is repeated. -/
def extended (g : Grid Item) (u : Shape) : Grid Item :=
  if g.shape.IsSingle then
    ⟨u, List.replicate u.size.toNat (g.items.headD .nothing), g.fill⟩
  else g

theorem Collects.extended {g : Grid Item} {s u : Shape} {f : Int → Item} (h : g.Collects s f)
    (hs : s.IsSingle ∨ s = u) : (g.extended u).Collects u fun j => f (s.valueAt j) := by
  obtain rfl := h.shape_eq
  by_cases hsingle : g.shape.IsSingle
  · obtain ⟨k, hk⟩ := h.cells 0 (by unfold Shape.Holds; rw [hsingle.1]; omega)
    have hhead : g.items.headD .nothing = ((f 0).countedFor k).stored := by
      rw [List.headD_eq_head?_getD, List.head?_eq_getElem?]
      exact congrArg (Option.getD · _) hk
    simp only [Grid.extended, if_pos hsingle, Shape.valueAt]
    refine ⟨rfl, by simp, fun j hj => ⟨k, ?_⟩⟩
    have hlt : j.toNat < u.size.toNat := by
      unfold Shape.Holds at hj
      omega
    rw [List.getElem?_replicate, if_pos hlt, hhead]
  · obtain rfl := hs.resolve_left hsingle
    simp only [Grid.extended, if_neg hsingle, Shape.valueAt]
    exact h

end Grid

namespace Amend

variable {values : View Item} {s u : Shape} {f : Int → Item}

theorem isSingle_eq (h : values.shape = .ok (.ofShape s)) :
    isSingle values = .ok (decide s.IsSingle) := by
  have hsize : values.size = .ok (.int s.size) := by
    simp [View.size, h, bind, Except.bind]
  simp only [isSingle, hsize, View.rank_of_shape h, bind, Except.bind, pure, Except.pure]
  by_cases h1 : s.size = 1
  · simp [Shape.IsSingle, h1, Number.isOne]
  · simp [Shape.IsSingle, h1, Number.isOne]

theorem checkFit_eq_ok (h : values.shape = .ok (.ofShape s)) (hs : s.IsSingle ∨ s = u) :
    checkFit values (.ofShape u) = .ok () := by
  simp only [checkFit, isSingle_eq h, h, Extents.size_ofShape, bind, Except.bind, pure,
    Except.pure]
  by_cases hsingle : s.IsSingle
  · simp [hsingle]
  · obtain rfl := hs.resolve_left hsingle
    simp [hsingle]

/-- The value for a position of the selection renders to the item that the values offer there. -/
theorem assignment_spec (h : values.Offers s f) (hs : s.IsSingle ∨ s = u) :
    ∃ value, assignment values (.ofShape u) = .ok value ∧
      ∀ j, u.Holds j → value j >>= Item.settle = .ok (f (s.valueAt j)) := by
  obtain ⟨gen, hgen, hcell⟩ := h.cells
  simp only [assignment, isSingle_eq h.shape, checkFit_eq_ok h.shape hs, bind, Except.bind]
  by_cases hsingle : s.IsSingle
  · have hzero : s.Holds 0 := by
      unfold Shape.Holds
      rw [hsingle.1]
      omega
    obtain ⟨only, honly, hsettle⟩ := bind_eq_ok.mp (hcell 0 hzero)
    have hfirst : values.cell 0 = .ok only := by
      simp only [View.cell, hgen, bind, Except.bind]
      exact honly
    simp only [hsingle, decide_true, if_true, hfirst, pure, Except.pure, Shape.valueAt]
    exact ⟨_, rfl, fun j _ => hsettle⟩
  · obtain rfl := hs.resolve_left hsingle
    have hcount : values.count = .ok s.size := by
      simp [View.count, h.shape, bind, Except.bind]
    have hread : ∀ i ∈ upTo s.size, ∃ x, gen.cell (.int i) = .ok x := by
      intro i hi
      obtain ⟨x, hx, _⟩ := bind_eq_ok.mp (hcell i (mem_upTo.mp hi))
      exact ⟨x, hx⟩
    obtain ⟨xs, hxs⟩ := exists_mapM hread
    have hall : Item.unrendered values = .ok xs := by
      simp only [Item.unrendered, hgen, hcount, bind, Except.bind]
      exact hxs
    simp only [hsingle, decide_false, Bool.false_eq_true, if_false, hcount, hall,
      Shape.valueAt, pure, Except.pure]
    obtain ⟨_, hget⟩ := mapM_upTo hxs
    by_cases hempty : s.size ≤ 0
    · simp only [if_pos hempty]
      refine ⟨_, rfl, fun j hj => ?_⟩
      unfold Shape.Holds at hj
      omega
    · simp only [if_neg hempty]
      refine ⟨_, rfl, fun j hj => ?_⟩
      obtain ⟨x, hx, hxcell⟩ := hget j hj
      rw [(pickAt_ok hj.1).mpr hx, ← hxcell]
      exact hcell j hj

end Amend

namespace Item

/-- The indices of a selection as its arguments. -/
def arguments (indices : List (Option Item)) : List (Option IntArgument) :=
  indices.map fun y => y.map fun y => y.asArgument "index"

/-- Indices that are in range, counted from an origin, for an array of shape `t`. The selection has
shape `u`. -/
structure Selects (origin : Origin) (o : Int) (indices : List (Option Item)) (t u : Shape) :
    Prop where
  origin_eq : origin.number = .ok (.int o)
  proper : t.IsProper
  inRange : List.Forall₂ (fun n y => ∀ z ∈ y, Indexes o n z) t indices
  shape_eq : Selection.shape (.ofShape t) (arguments indices) = .ok (.ofShape u)

variable {v values : View Item} {origin : Origin} {o : Int} {indices : List (Option Item)}
  {s t u : Shape} {f fv : Int → Item}

theorem exists_selects (ho : origin.number = .ok (.int o)) (ht : t.IsProper)
    (hi : List.Forall₂ (fun n y => ∀ z ∈ y, Indexes o n z) t indices) :
    ∃ u, Selects origin o indices t u := by
  obtain ⟨u, _, _, hu, _⟩ := Selection.maps_link ht ho (inRange_asArguments hi)
  exact ⟨u, ho, ht, hi, hu⟩

theorem indexed_eq (hl : indices.length = t.length) (hv : v.shape = .ok (.ofShape t)) :
    indexed v indices = .ok (arguments indices) := by
  simp only [indexed, View.rank_of_shape hv, bind, Except.bind, hl, ne_eq, not_true_eq_false,
    if_false]
  rfl

theorem select_eq (origin : Origin) (hl : indices.length = t.length)
    (hv : v.shape = .ok (.ofShape t)) :
    select (.view v) indices origin = .ok (v.under (.select (arguments indices) origin)) := by
  have hindexed : indexed (view v).based indices = .ok (arguments indices) := indexed_eq hl hv
  simp only [select, hindexed, bind, Except.bind, pure, Except.pure]
  rfl

/-- The positions named by the selection, and the link that leads to them. -/
theorem Selects.link_spec (h : Selects origin o indices t u) :
    ∃ l, Selection.link (arguments indices) origin (.ofShape t) = .ok l ∧ u.IsProper ∧
      ∀ j, u.Holds j → ∃ i, t.Holds i ∧ l.reach j = some i ∧
        Selection.Names o (arguments indices) u t j i := by
  obtain ⟨u', l, d, hu, hup, hl, hmaps, hd⟩ :=
    Selection.maps_link h.proper h.origin_eq (inRange_asArguments h.inRange)
  obtain rfl : u' = u := Extents.ofShape_inj (Except.ok.inj (hu.symm.trans h.shape_eq))
  refine ⟨l, hl, hup, fun j hj => ?_⟩
  obtain ⟨hw, haddresses⟩ := hd _ (Shape.coordinates_within hup hj)
  refine ⟨_, hw.holds, hmaps.reach_eq hj, ?_⟩
  unfold Selection.Names
  rw [Shape.coordinates_dot hw]
  exact haddresses

theorem Selects.targets_spec (h : Selects origin o indices t u) :
    ∃ table, Selection.targets (.ofShape t) (arguments indices) origin = .ok table ∧
      ∀ i, t.Holds i → match Selection.find? (.int i) table with
        | none => ∀ j, u.Holds j → ¬ Selection.Names o (arguments indices) u t j i
        | some j => Selection.IsLast o (arguments indices) u t j i := by
  obtain ⟨u', table, hu, htable, hfind⟩ :=
    Selection.targets_spec h.proper h.origin_eq (inRange_asArguments h.inRange)
  obtain rfl : u' = u := Extents.ofShape_inj (Except.ok.inj (hu.symm.trans h.shape_eq))
  exact ⟨table, htable, hfind⟩

/-- An array that has been assigned to has the shape of the array. Its cells go by the table of the
assignment, which is made when they are asked for. -/
theorem exists_amend (origin : Origin) (hl : indices.length = t.length)
    (hu : Selection.shape (.ofShape t) (arguments indices) = .ok (.ofShape u)) (hv : v.Yields t f)
    (hvalues : values.Offers s fv) (hs : s.IsSingle ∨ s = u) :
    ∃ w gen value, amend (.view v) indices ⟨some values, none⟩ origin = .ok w ∧ w.IsComputed ∧
      w.IsReady ∧ w.prototype = v.prototype ∧ w.shape = .ok (.ofShape t) ∧
      (∃ e, w.etype = .ok e) ∧ w.generator = (do
        let table ← Selection.targets (.ofShape t) (arguments indices) origin
        return .indexed (Amend.cell gen table (some value) none)) ∧
      (∀ i, t.Holds i → gen.cell (.int i) >>= settle = .ok (f i)) ∧
      ∀ j, u.Holds j → value j >>= settle = .ok (fv (s.valueAt j)) := by
  obtain ⟨value, hvalue, hassigned⟩ := Amend.assignment_spec hvalues hs
  obtain ⟨gen, hgen, hcell⟩ := hv.cells
  obtain ⟨e, he⟩ := hv.etype
  obtain ⟨e', he'⟩ := hvalues.etype
  have hshape : (view v).based.shape = .ok (.ofShape t) := hv.shape
  have hetype : (view v).based.etype = .ok e := he
  have hcells : (view v).based.generator = .ok gen := hgen
  have hfit := Amend.checkFit_eq_ok hvalues.shape hs
  simp only [amend, indexed_eq hl hshape, bind, Except.bind]
  refine ⟨_, gen, value, rfl, ⟨_, rfl⟩, ⟨fun x hx => ?_, hv.ready.fill, ?_⟩, rfl, ?_, ?_, ?_,
    hcell, hassigned⟩
  · simp only [View.shape_computed, Lazy.get_keep, hshape, hu, hfit] at hx
    exact ⟨t, (Except.ok.inj hx).symm, hv.isProper⟩
  · intro g hg
    cases hg
  · simp only [View.shape_computed, Lazy.get_keep, hshape, hu, hfit]
  · simp only [View.etype_computed, Lazy.get_delay, Amend.etype, hetype, he', bind, Except.bind]
    exact ⟨_, rfl⟩
  · simp only [View.generator_computed, Lazy.get_keep, hshape, hu, hcells, hvalue,
      Option.mapM_some, pure, Except.pure, Functor.map, Except.map]

/-- Where the table of an assignment names a value, the array that has been assigned to yields it,
and elsewhere what the array yields. -/
theorem exists_amend_of_table {table : List (Number × Int)} (hl : indices.length = t.length)
    (hu : Selection.shape (.ofShape t) (arguments indices) = .ok (.ofShape u)) (hv : v.Yields t f)
    (hvalues : values.Offers s fv) (hs : s.IsSingle ∨ s = u)
    (htable : Selection.targets (.ofShape t) (arguments indices) origin = .ok table)
    (hin : ∀ i j, t.Holds i → Selection.find? (.int i) table = some j → u.Holds j) :
    ∃ w, amend (.view v) indices ⟨some values, none⟩ origin = .ok w ∧ w.IsComputed ∧
      w.prototype = v.prototype ∧ w.Yields t fun i =>
        ((Selection.find? (.int i) table).map fun j => fv (s.valueAt j)).getD (f i) := by
  obtain ⟨w, gen, value, hw, hcomputed, hready, hprototype, hshape, hetype, hgen, hcell,
    hassigned⟩ := exists_amend origin hl hu hv hvalues hs
  rw [htable] at hgen
  refine ⟨w, hw, hcomputed, hprototype, ⟨⟨hshape, hetype, _, hgen, fun i hi => ?_⟩, hready, ?_⟩⟩
  · obtain ⟨before, hbefore, hsettle⟩ := bind_eq_ok.mp (hcell i hi)
    simp only [Gen.cell_indexed, Amend.cell, hbefore, bind, Except.bind]
    cases hj : Selection.find? (.int i) table with
    | none => exact hsettle
    | some j => exact hassigned j (hin i j hi hj)
  · rw [hprototype]
    exact hv.prototype

/-- Every position is one without a name or has a last name. An array that has been assigned to
yields at the first kind what the array yields, and at the others the value for the last name. -/
theorem Selects.amend_spec (h : Selects origin o indices t u) (hv : v.Yields t f)
    (hvalues : values.Offers s fv) (hs : s.IsSingle ∨ s = u) :
    ∃ w f', amend (.view v) indices ⟨some values, none⟩ origin = .ok w ∧ w.IsComputed ∧
      w.prototype = v.prototype ∧ w.Yields t f' ∧ ∀ i, t.Holds i →
        ((∀ j, u.Holds j → ¬ Selection.Names o (arguments indices) u t j i) ∧ f' i = f i) ∨
        ∃ j, Selection.IsLast o (arguments indices) u t j i ∧ f' i = fv (s.valueAt j) := by
  obtain ⟨table, htable, hfind⟩ := h.targets_spec
  have hin : ∀ i j, t.Holds i → Selection.find? (.int i) table = some j → u.Holds j := by
    intro i j hi hj
    have hlast := hfind i hi
    rw [hj] at hlast
    exact hlast.holds
  obtain ⟨w, hw, hcomputed, hprototype, hyields⟩ :=
    exists_amend_of_table h.inRange.length_eq.symm h.shape_eq hv hvalues hs htable hin
  refine ⟨w, _, hw, hcomputed, hprototype, hyields, fun i hi => ?_⟩
  have hlast := hfind i hi
  cases hj : Selection.find? (.int i) table with
  | none =>
      rw [hj] at hlast
      exact .inl ⟨hlast, rfl⟩
  | some j =>
      rw [hj] at hlast
      exact .inr ⟨j, hlast, rfl⟩

end Item

namespace View

variable {root : Root Item} {r t u : Shape} {v : View Item} {f : Int → Item}

/-- A cell that a transform leads to is the cell of the array there, and others are its fill. -/
theorem StandsOn.generator_under (h : StandsOn root r v t) {x : Step} {l : Link} {gen : Gen Item}
    (hx : x.IsSound t) (hu : x.shapeOver (.ofShape t) = .ok (.ofShape u))
    (hl : x.linkOver (.ofShape t) = .ok l) (hw : x.isWindow = false)
    (hgen : v.generator = .ok gen) :
    ∃ cells, (v.under x).generator = .ok cells ∧ ∀ i, u.Holds i →
      cells.cell (.int i) = Tower.shown gen v.prototype (l.reach i) := by
  obtain ⟨ls, raw, hls, hraw⟩ := Tower.generator_ok hgen
  obtain ⟨ms, hms, hcarries, hreach⟩ := h.links_under hx hu hl hls
  have habove := h.above hx hu
  obtain ⟨rfl, hstands⟩ := h
  obtain ⟨gen', hgen', hcell⟩ := hstands.generator_eq hls hraw
  obtain rfl := Except.ok.inj (hgen.symm.trans hgen')
  obtain ⟨cells, hcells, habove⟩ := habove.stands.generator_eq hms hraw
  refine ⟨cells, hcells, fun i hi => ?_⟩
  have hprototype := prototype_under (v := v) hw
  rw [habove i hi, hreach i hi]
  cases hj : l.reach i with
  | none => exact hprototype
  | some j =>
      rw [Tower.shown, hcell j (hcarries.holds hi hj)]
      exact congrArg (fun p => Tower.shown raw p _) hprototype

/-- Under a transform an array offers the items that the transform leads to. -/
theorem StandsOn.offers_under (h : StandsOn root r v t) {x : Step} {l : Link} {p : Int → Int}
    (hx : x.IsSound t) (hu : x.shapeOver (.ofShape t) = .ok (.ofShape u))
    (hl : x.linkOver (.ofShape t) = .ok l) (hw : x.isWindow = false)
    (hp : ∀ j, u.Holds j → t.Holds (p j) ∧ l.reach j = some (p j)) (hv : v.Offers t f)
    (he : ∃ e, (v.under x).etype = .ok e) : (v.under x).Offers u fun j => f (p j) := by
  obtain ⟨gen, hgen, hcell⟩ := hv.cells
  obtain ⟨cells, hcells, heach⟩ := h.generator_under hx hu hl hw hgen
  refine ⟨(h.above hx hu).shape_eq, he, cells, hcells, fun j hj => ?_⟩
  obtain ⟨hj', hreach⟩ := hp j hj
  rw [heach j hj, hreach]
  exact hcell _ hj'

/-- Under a transform that shows fills an array offers the fill where no item shows. -/
theorem StandsOn.offers_filled (h : StandsOn root r v t) {x : Step} {l : Link} {p : Item}
    (hx : x.IsSound t) (hu : x.shapeOver (.ofShape t) = .ok (.ofShape u))
    (hl : x.linkOver (.ofShape t) = .ok l) (hw : x.isWindow = false) (hv : v.Offers t f)
    (hp : ∀ i, u.Holds i → l.reach i = none → v.prototype >>= Item.settle = .ok p)
    (he : ∃ e, (v.under x).etype = .ok e) :
    (v.under x).Offers u fun i => ((l.reach i).map f).getD p := by
  obtain ⟨gen, hgen, hcell⟩ := hv.cells
  obtain ⟨cells, hcells, heach⟩ := h.generator_under hx hu hl hw hgen
  obtain ⟨u', hu', hleads⟩ := hx.leads (h.stands.keeps Item.fillOf).proper hu
  obtain rfl := Extents.ofShape_inj hu'
  refine ⟨(h.above hx hu).shape_eq, he, cells, hcells, fun i hi => ?_⟩
  rw [heach i hi]
  cases hj : l.reach i with
  | none => exact hp i hi hj
  | some j => exact hcell j ((hleads.2 l hl).holds hi hj)

/-- A selection offers the items at the positions that it names. -/
theorem StandsOn.select_spec (h : StandsOn root r v t) {origin : Origin} {o : Int}
    {indices : List (Option Item)} (hs : Item.Selects origin o indices t u) (hv : v.Offers t f) :
    ∃ w f', Item.select (.view v) indices origin = .ok w ∧ StandsOn root r w u ∧
      w.prototype = v.prototype ∧ w.Offers u f' ∧
      ∀ j, u.Holds j → ∃ i, t.Holds i ∧
        Selection.Names o (Item.arguments indices) u t j i ∧ f' j = f i := by
  obtain ⟨l, hl, _, hnames⟩ := hs.link_spec
  choose! p hp hreach hnames using hnames
  have hsound : (Step.select (Item.arguments indices) origin).IsSound t :=
    ⟨o, hs.origin_eq, Item.inRange_asArguments hs.inRange⟩
  have hw : (Step.select (Item.arguments indices) origin).isWindow = false := rfl
  have hselect := Item.select_eq origin hs.inRange.length_eq.symm hv.shape
  have hetype : (v.under (.select (Item.arguments indices) origin)).etype = v.etype :=
    etype_under_of_keepsType rfl
  exact ⟨_, fun j => f (p j), hselect, h.above hsound hs.shape_eq, prototype_under hw,
    h.offers_under hsound hs.shape_eq hl hw (fun j hj => ⟨hp j hj, hreach j hj⟩) hv
      (hetype ▸ hv.etype),
    fun j hj => ⟨p j, hp j hj, hnames j hj, rfl⟩⟩

theorem IsComputed.standsOn (hv : v.IsComputed) (hs : v.shape = .ok (.ofShape t))
    (ht : t.IsProper) : StandsOn v.root t v t := by
  obtain ⟨facts, rfl⟩ := hv
  exact ⟨rfl, .root hs ht⟩

/-- An array that has come about from a root that is ready, by transforms and by handing out
windows, and the array at hand that it renders to. -/
structure Presents (v : View Item) (g : Grid Item) : Prop where
  grown : ∃ root r, (⟨root, []⟩ : View Item).IsReady ∧
    Grown (fun v w => Raises v w ∨ HandsOut v w) root r v
  render : (Item.view v).render = .ok (.array g)

theorem Presents.exists_ready_yields {g : Grid Item} (h : v.Presents g) :
    ∃ root r f, (⟨root, []⟩ : View Item).IsReady ∧ StandsOn root r v g.shape ∧
      v.Yields g.shape f ∧ g.Collects g.shape f := by
  obtain ⟨root, r, hready, hgrown⟩ := h.grown
  obtain ⟨t, hstands⟩ := hgrown.exists_standsOn
  obtain ⟨f, hf, hg⟩ := (hstands.isReady hready).exists_yields h.render
  obtain rfl : g.shape = t :=
    Extents.ofShape_inj (Except.ok.inj (hf.shape.symm.trans hstands.shape_eq))
  exact ⟨root, r, f, hready, hstands, hf, hg⟩

theorem Presents.exists_yields {g : Grid Item} (h : v.Presents g) :
    ∃ root r f, StandsOn root r v g.shape ∧ v.Yields g.shape f ∧ g.Collects g.shape f := by
  obtain ⟨root, r, f, _, hyields⟩ := h.exists_ready_yields
  exact ⟨root, r, f, hyields⟩

/-- An array that answers whatever it is asked: it has come about from a root that is ready, by
transforms and by handing out windows, it has a fill, and it renders to an array at hand. -/
structure ShownAs (v : View Item) (g : Grid Item) : Prop where
  grown : ∃ root r, (⟨root, []⟩ : View Item).IsReady ∧
    Grown (fun v w => Raises v w ∨ HandsOut v w) root r v
  fill : ∃ p, v.prototype = .ok p
  render : (Item.view v).render = .ok (.array g)

theorem ShownAs.presents {g : Grid Item} (h : v.ShownAs g) : v.Presents g := ⟨h.grown, h.render⟩

theorem ShownAs.exists_yields {g : Grid Item} (h : v.ShownAs g) :
    ∃ root r f, StandsOn root r v g.shape ∧ v.Yields g.shape f ∧ g.Collects g.shape f :=
  h.presents.exists_yields

theorem shownAs_ofGrid {g : Grid Item} (hready : (ofGrid g).IsReady) (hg : g.shape.IsProper) :
    (ofGrid g).ShownAs g :=
  ⟨⟨_, g.shape, hready, .root rfl hg⟩, ⟨_, rfl⟩, rfl⟩

/-- Assignment through indices and selection by them fit together. Positions that the selection
does not name keep their items, and the others get the value at the last position of the selection
that names them. Assigning what has been selected changes nothing. If no position is named twice,
then what has been assigned is selected again, in the shape of the selection. -/
theorem ShownAs.amend_select {values : View Item} {g gv : Grid Item} {origin : Origin} {o : Int}
    {indices : List (Option Item)} (hv : v.ShownAs g) (hvalues : values.ShownAs gv)
    (ho : origin.number = .ok (.int o))
    (hi : List.Forall₂ (fun n y => ∀ z ∈ y, Item.Indexes o n z) g.shape indices)
    (hs : gv.shape.IsSingle ∨ Selection.shape (.ofShape g.shape) (Item.arguments indices) =
      .ok (.ofShape gv.shape)) :
    ∃ u w h, Selection.shape (.ofShape g.shape) (Item.arguments indices) = .ok (.ofShape u) ∧
      Item.amend (.view v) indices ⟨some values, none⟩ origin = .ok w ∧
      (Item.view w).render = .ok (.array h) ∧ h.shape = g.shape ∧
      (∀ i, g.shape.Holds i →
        (∀ j, u.Holds j → ¬ Selection.Names o (Item.arguments indices) u g.shape j i) →
          h.AlikeAt i g i) ∧
      (∀ i j, g.shape.Holds i → Selection.IsLast o (Item.arguments indices) u g.shape j i →
        h.AlikeAt i (gv.extended u) j) ∧
      (∃ own w' h', Item.select (.view v) indices origin = .ok own ∧
        Item.amend (.view v) indices ⟨some own, none⟩ origin = .ok w' ∧
        (Item.view w').render = .ok (.array h') ∧ Item.Alike (.array h') (.array g)) ∧
      ((∀ j k i, u.Holds j → u.Holds k → g.shape.Holds i →
          Selection.Names o (Item.arguments indices) u g.shape j i →
          Selection.Names o (Item.arguments indices) u g.shape k i → j = k) →
        ∃ again h', Item.select (.view w) indices origin = .ok again ∧
          (Item.view again).render = .ok (.array h') ∧
          Item.Alike (.array h') (.array (gv.extended u))) := by
  obtain ⟨root, r, f, hstands, hf, hg⟩ := hv.exists_yields
  obtain ⟨_, _, fv, _, hfv, hgv⟩ := hvalues.exists_yields
  have ht := hf.isProper
  obtain ⟨u, hsel⟩ := Item.exists_selects ho ht hi
  have hfit : gv.shape.IsSingle ∨ gv.shape = u := by
    refine hs.imp_right fun hu => ?_
    exact Extents.ofShape_inj (Except.ok.inj (hu.symm.trans hsel.shape_eq))
  have hext := hgv.extended hfit
  obtain ⟨w, f', hw, hcomputed, hprototype, hf', hnamed⟩ := hsel.amend_spec hf hfv.toOffers hfit
  obtain ⟨h, hr, hh⟩ := hf'.exists_render
  refine ⟨u, w, h, hsel.shape_eq, hw, hr, hh.shape_eq, ?_, ?_, ?_, ?_⟩
  · intro i hi hnone
    -- each cell is unnamed, or is the last that is named by one position of the selection
    rcases hnamed i hi with ⟨_, heq⟩ | ⟨j, hj, _⟩
    · exact hh.alikeAt hg hi hi heq
    · exact absurd hj.names (hnone j hj.holds)
  · intro i j hi hj
    rcases hnamed i hi with ⟨hnone, _⟩ | ⟨k, hk, heq⟩
    · exact absurd hj.names (hnone j hj.holds)
    · obtain rfl := hk.unique hj
      exact hh.alikeAt hext hi hj.holds heq
  -- get, then put: whichever position names a cell last holds this cell
  · obtain ⟨own, fs, hown, _, _, hfs, heach⟩ := hstands.select_spec hsel hf.toOffers
    obtain ⟨w', f'', hw', _, _, hf'', hnamed'⟩ := hsel.amend_spec hf hfs (.inr rfl)
    obtain ⟨h', hr', hh'⟩ := hf''.exists_render
    refine ⟨own, w', h', hown, hw', hr', hh'.alike hg fun i hi => ?_⟩
    rcases hnamed' i hi with ⟨_, heq⟩ | ⟨j, hj, heq⟩
    · exact heq
    · obtain ⟨i', hi', hnames, hown⟩ := heach j hj.holds
      rw [heq, Shape.valueAt_self hj.holds, hown, hnames.unique ht hj.names hi' hi]
  -- put, then get: no position of the selection is overtaken by another one
  · intro honce
    have hstands' := hcomputed.standsOn hf'.shape ht
    obtain ⟨again, fs, hagain, hagainStands, hfill, hfs, heach⟩ :=
      hstands'.select_spec hsel hf'.toOffers
    have hroot : (⟨w.root, []⟩ : View Item).IsReady := by
      obtain ⟨facts, rfl⟩ := hcomputed
      exact hf'.ready
    have hyields : again.Yields u fs := by
      refine ⟨hfs, hagainStands.isReady hroot, fun _ => ?_⟩
      rw [hfill, hprototype]
      exact hv.fill
    obtain ⟨h', hr', hh'⟩ := hyields.exists_render
    refine ⟨again, h', hagain, hr', hh'.alike hext fun j hj => ?_⟩
    obtain ⟨i, hi, hnames, heq⟩ := heach j hj
    rcases hnamed i hi with ⟨hnone, _⟩ | ⟨k, hk, hassigned⟩
    · exact absurd hnames (hnone j hj)
    · rw [heq, hassigned, honce j k i hj hk.holds hi hnames hk.names]

/-- The numbers from one to six in two rows of three. -/
def twoRows : View Item :=
  (ofGrid (Grid.ofList ([1, 2, 3, 4, 5, 6].map Item.int))).under (.reshape .reshape [2, 3])

/-- The last and the first cell of the second row are assigned to and selected again. -/
theorem twoRows_amend_select :
    ∃ w h again h', Item.amend (.view twoRows) [some (.int 1), some (.ints [2, 0])]
        ⟨some (ofGrid (Grid.ofList ([8, 9].map Item.int))), none⟩ (.int 0) = .ok w ∧
      (Item.view w).render = .ok (.array h) ∧ h.items = [1, 2, 3, 9, 5, 8].map Item.int ∧
      Item.select (.view w) [some (.int 1), some (.ints [2, 0])] (.int 0) = .ok again ∧
      (Item.view again).render = .ok (.array h') ∧
      Item.Alike (.array h') (.array (Grid.ofList ([8, 9].map Item.int))) := by
  have ready (ns : List Int) (hne : ns ≠ []) :
      (ofGrid (Grid.ofList ((ns.map Scalar.int).map Item.scalar))).IsReady := by
    have made : (Root.concrete (Grid.ofList ((ns.map Scalar.int).map Item.scalar))).IsMade := by
      refine Root.isMade_ofList (fun s hs => ?_) (by simpa using hne)
      obtain ⟨n, _, rfl⟩ := List.mem_map.mp hs
      rfl
    refine isReady_of_isMade made fun e he => ⟨_, (Except.ok.inj he).symm, ?_⟩
    simp [Grid.ofList, Grid.of, Shape.IsProper]
  have base : twoRows.ShownAs (Grid.of [2, 3] ([1, 2, 3, 4, 5, 6].map Item.int) none) := by
    have rows : Item.reshape (.view (ofGrid (Grid.ofList ([1, 2, 3, 4, 5, 6].map Item.int))))
      (.ints [2, 3]) = .ok twoRows := rfl
    exact ⟨⟨_, [6], ready [1, 2, 3, 4, 5, 6] (by simp),
      .next (.root rfl (by simp [Shape.IsProper])) (.inl (.reshape rows)) rfl⟩, ⟨_, rfl⟩, rfl⟩
  have values : (ofGrid (Grid.ofList ([8, 9].map Item.int))).ShownAs
      (Grid.ofList ([8, 9].map Item.int)) :=
    ⟨⟨_, [2], ready [8, 9] (by simp), .root rfl (by simp [Shape.IsProper])⟩, ⟨_, rfl⟩, rfl⟩
  have row : Item.Indexes 0 2 (.int 1) := ⟨[], [1], rfl, rfl, by simp [Shape.IsProper], by simp⟩
  have columns : Item.Indexes 0 3 (.ints [2, 0]) :=
    ⟨[2], [2, 0], rfl, rfl, by simp [Shape.IsProper], by simp⟩
  have inRange : List.Forall₂ (fun n y => ∀ z ∈ y, Item.Indexes 0 n z) [2, 3]
      [some (.int 1), some (.ints [2, 0])] := by
    simpa using ⟨row, columns⟩
  have origin : Scalar.number (.int 0) = .ok (.int 0) := rfl
  obtain ⟨u, w, h, hu, hw, hr, _, _, _, _, hagain⟩ :=
    base.amend_select values origin inRange (.inr rfl)
  obtain rfl : [2] = u := Extents.ofShape_inj (Except.ok.inj hu)
  cases hw
  cases hr
  -- the two positions of the selection name different cells
  have first : Selection.Addresses 0 (Item.arguments [some (.int 1), some (.ints [2, 0])])
      ([] ++ ([0] ++ [])) [1 - 0, 2 - 0] :=
    .cons (.listed rfl rfl .nil rfl)
      (.cons (.listed (u := [2]) rfl rfl (.cons (by simp) .nil) rfl) .nil)
  have second : Selection.Addresses 0 (Item.arguments [some (.int 1), some (.ints [2, 0])])
      ([] ++ ([1] ++ [])) [1 - 0, 0 - 0] :=
    .cons (.listed rfl rfl .nil rfl)
      (.cons (.listed (u := [2]) rfl rfl (.cons (by simp) .nil) rfl) .nil)
  obtain ⟨again, h', hagain, hrender, halike⟩ := hagain (by
    intro j k i hj hk _ hnames hnames'
    have hj' : j = 0 ∨ j = 1 := by
      simp [Shape.Holds] at hj
      omega
    have hk' : k = 0 ∨ k = 1 := by
      simp [Shape.Holds] at hk
      omega
    rcases hj' with rfl | rfl <;> rcases hk' with rfl | rfl
    · rfl
    · exact absurd (first.unique hnames) (by rw [← second.unique hnames']; decide)
    · exact absurd (second.unique hnames) (by rw [← first.unique hnames']; decide)
    · rfl)
  exact ⟨_, _, again, h', rfl, rfl, rfl, hagain, hrender, halike⟩

end View
end LazyApl
