import LazyApl.Proofs.Operands
import LazyApl.Proofs.Overtaking
import LazyApl.Proofs.Pervadable
/-!
# Paths through scalar functions

A path leads in a pervaded array to what the function makes of the item that it leads to in the
array. So picking and pervading can be done in either order: no item off the path is looked at, and
enclosed scalars on the way are entered alike.
-/
namespace LazyApl

open Outcome

namespace Path

variable {o : Int} {origin : Origin} {node old x : Item} {t : Shape} {step : List Int}
  {rest : Path} {level : Nat}

theorem isArray_of_target (h : target origin level (step :: rest) node = .ok x) :
    node.isArray = .ok true := by
  obtain ⟨i, hi, _⟩ := bind_eq_ok.mp h
  obtain ⟨e, _, hi⟩ := bind_eq_ok.mp hi
  obtain ⟨b, hb, hi⟩ := bind_eq_ok.mp hi
  cases b with
  | true => exact hb
  | false => cases hi

theorem offset_eq_of_shape {node' : Item} (hs : node'.shapeOf = node.shapeOf)
    (ha : node.isArray = .ok true) (ha' : node'.isArray = .ok true) :
    offset node' step level origin = offset node step level origin := by
  simp only [offset, hs, ha, ha']

theorem Finds.lift_of_isArray (h : Finds o step node t old) (hn : node.IsSound)
    (ha : node.isArray = .ok true) : Finds o step (.view node.lift) t old := by
  by_cases ht : t = []
  · subst ht
    cases hn with
    | scalar s => simp [Item.isArray] at ha
    | list xs => simp [Item.isArray] at ha
    | view _ _ => exact h
    | @array g ready _ =>
        obtain ⟨s, xs, fill⟩ := g
        obtain rfl : s = [] := Extents.ofShape_inj (Except.ok.inj h.shape)
        obtain ⟨y, rfl⟩ : ∃ y, xs = [y] :=
          List.length_eq_one_iff.mp (ready.kept ⟨[], xs, fill⟩ rfl).length_eq
        have hnil : stripped o step = [] := by
          simpa using h.within.length_eq
        have hold := h.cell
        rw [hnil] at hold
        cases hold
        exact ⟨rfl, h.within, rfl⟩
  · exact h.lift ht

theorem target_lift (ho : origin.number = .ok (.int o)) (hn : node.IsSound)
    (h : target origin level (step :: rest) node = .ok x) :
    target origin level (step :: rest) (.view node.lift) = .ok x := by
  have ha := isArray_of_target h
  obtain ⟨t, hs⟩ := exists_shapeOf hn h
  obtain ⟨i, hi, _⟩ := bind_eq_ok.mp h
  obtain ⟨_, rfl⟩ := offset_spec ho hs hi
  obtain ⟨old, hfinds, hrest⟩ := exists_finds ho hs h
  have hlift := hfinds.lift_of_isArray hn ha
  have hshape : (Item.view node.lift).shapeOf = node.shapeOf := hlift.shape.trans hs.symm
  rw [← offset_eq_of_shape hshape ha (hn.isArray_lift ha)] at hi
  exact bind_eq_ok.mpr ⟨_, hi, bind_eq_ok.mpr ⟨old, hlift.cell, hrest⟩⟩

end Path

namespace Item

theorem mapWhole_countedFor (F : Int → Int) (x : Item) (k l : Kind) :
    (x.countedFor k).stored.mapWhole F = (x.countedFor l).stored.mapWhole F := by
  by_cases h : ∃ b, x = truth b
  · obtain ⟨b, rfl⟩ := h
    have hcounted (k : Kind) : ((truth b).countedFor k).stored.mapWhole F =
        int (F (if b then 1 else 0)) := by
      unfold countedFor
      split <;> simp [counted, stored, mapWhole, Scalar.whole?]
    rw [hcounted, hcounted]
  · have hb : ∀ b, x ≠ truth b := fun b hx => h ⟨b, hx⟩
    rw [countedFor_eq_self hb, countedFor_eq_self hb]

/-- A whole number that has been picked is a scalar that functions pervade. -/
theorem isPervadable_disclosed {s : Scalar} {n : Int} (h : s.whole? = some n) :
    (scalar s).disclosed.IsPervadable ⟨[], [int n], none⟩ := by
  have hready := (yields_disclosed_scalar s).ready
  have hsimple : ∀ x, (scalar s).disclosed.Has x → x = scalar s := by
    rintro x ⟨_, gen, _, _, hgen, _, hx⟩
    cases hgen
    exact (Except.ok.inj hx).symm
  refine ⟨.view hready fun gen i x hgen hx => ?_, ?_, ?_, .array ?_ nofun⟩
  · cases hgen
    cases hx
    exact .scalar s
  · refine View.isPervious_of_has (fun e he => ?_) fun x hx hns => absurd (hsimple x hx) (hns s)
    cases he
    exact kind_ne_char_of_whole? h
  · cases s with
    | int m =>
        cases h
        have hoffers := (yields_disclosed_scalar (.int n)).toOffers
        have hetype : (scalar (.int n)).disclosed.etype = .ok (int n).etype := rfl
        exact View.render_of_stored (p := int 0) hready ⟨_, rfl⟩ hoffers hetype (by simp) fun i _ =>
          by simp [countedFor, counted, stored]
    | truth b =>
        cases h
        cases b <;> rfl
    | _ => cases h
  · exact List.forall_mem_singleton.mpr (.number rfl)

end Item

namespace Grid

theorem Collects.mapWhole_eq {g h : Grid Item} {t : Shape} {y : Int → Item} (hg : g.Collects t y)
    (hh : h.Collects t y) (F : Int → Int) : g.mapWhole F = h.mapWhole F := by
  obtain ⟨k, hk⟩ := hg.exists_items
  obtain ⟨l, hl⟩ := hh.exists_items
  have hitems : g.items.map (Item.mapWhole F) = h.items.map (Item.mapWhole F) := by
    rw [hk, hl, List.map_map, List.map_map]
    exact List.map_congr_left fun i _ => Item.mapWhole_countedFor F (y i) (k i) (l i)
  have hempty : g.items.isEmpty = h.items.isEmpty := by
    rw [hk, hl, List.isEmpty_map, List.isEmpty_map]
  rw [mapWhole, mapWhole, hg.shape_eq, hh.shape_eq, hitems, hempty]

end Grid

namespace View

variable {v w : View Item} {x y n : Item} {t : Shape} {f : CellFunction} {F : Int → Int}
  {result : ResultType}

/-- A computed scalar is an array if its cell is. -/
theorem IsComputed.isArray_eq (hv : v.IsComputed) (hs : v.shape = .ok []) {gen : Gen Item}
    (hgen : v.generator = .ok gen) (hx : gen.cell 0 = .ok x) :
    (Item.view v).isArray = x.isArray := by
  obtain ⟨facts, rfl⟩ := hv
  have hgen : facts.generator .now = .ok gen := hgen
  rw [isArray_scalar hs]
  change (facts.generator .now >>= fun cells => cells.cell 0 >>= Item.isArray) = x.isArray
  rw [hgen]
  change gen.cell 0 >>= Item.isArray = x.isArray
  rw [hx]
  rfl

/-- What pervades an array is an array if this holds of the arrays in its cells. -/
theorem isArray_pervade_of_cells (hv : v.IsReady) {g : Grid Item}
    (hr : (Item.view v).render = .ok (.array g)) (ha : (Item.view v).isArray = .ok true)
    (h : ∀ gen i x y, v.generator = .ok gen → gen.cell i = .ok x → x.settle = .ok y →
      x.isArray = .ok true → (Item.view (pervade f result [x.lift])).isArray = .ok true) :
    (Item.view (pervade f result [v])).isArray = .ok true := by
  obtain ⟨y, hyields, _⟩ := hv.exists_yields hr
  have hs := hyields.shape
  have hshape := pervade_shape f result hs
  by_cases hnil : g.shape = []
  · rw [hnil] at hs hshape
    obtain ⟨gen, hgen, hcell⟩ := hyields.cells
    have hzero : g.shape.Holds 0 := by simp [hnil, Shape.Holds]
    obtain ⟨x, hx, hsettle⟩ := bind_eq_ok.mp (hcell 0 hzero)
    have harray := isArray_of_isArray_scalar hs ha hgen hx
    obtain ⟨cells, hcells, heach⟩ := pervade_generator f result hs hgen
    have hpervaded : cells.cell 0 = .ok (.view (pervade f result [x.lift])) := by
      have hfirst := heach 0 (hnil ▸ hzero)
      rw [hx] at hfirst
      simpa [pervadedCell, harray, bind, Except.bind, pure, Except.pure] using hfirst
    rw [(isComputed_pervade f result [v]).isArray_eq hshape hcells hpervaded]
    exact h gen _ x _ hgen hx hsettle harray
  · exact isArray_of_shape hshape hnil

theorem isArray_pervade (f : CellFunction) (result : ResultType) (hx : x.IsSound)
    (hy : x.settle = .ok y) (ha : x.isArray = .ok true) :
    (Item.view (pervade f result [x.lift])).isArray = .ok true := by
  induction hx generalizing y with
  | scalar s => simp [Item.isArray] at ha
  | list xs => simp [Item.isArray] at ha
  | @array g ready items ih =>
      have hlift := (Item.IsSound.array ready items).isArray_lift ha
      refine isArray_pervade_of_cells ready rfl hlift fun gen i x y hgen hx hy hxa => ?_
      exact ih x (Root.mem_of_cell hgen hx) hy hxa
  | view ready cells ih =>
      obtain ⟨g, hr, _⟩ := render_of_settle hy
      exact isArray_pervade_of_cells ready hr ha fun gen i x y hgen hx hy hxa =>
        ih gen i x hgen hx hy hxa

theorem elementAt_pervade (f : CellFunction) (result : ResultType)
    (hs : v.shape = .ok (.ofShape t)) {i : Int} (hi : t.Holds i)
    (hx : (Item.view v).elementAt (.int i) = .ok x) :
    (Item.view (pervade f result [v])).elementAt (.int i) = pervadedCell f result x := by
  obtain ⟨gen, hgen, hx⟩ := bind_eq_ok.mp hx
  obtain ⟨cells, hcells, heach⟩ := pervade_generator f result hs hgen
  have hcells : (pervade f result [v]).facts.generator .now = .ok cells := hcells
  have hat := heach i hi
  rw [hx] at hat
  simp only [Item.elementAt, hcells, bind, Except.bind]
  exact hat

variable {o : Int} {origin : Origin} {level : Nat} {step : List Int} {rest : Path}

/-- The first step of a path in a pervaded array leads to what the function makes of the item that
it leads to in the array. -/
theorem exists_target_pervade (f : CellFunction) (result : ResultType)
    (ho : origin.number = .ok (.int o)) (hv : (Item.view v).IsSound)
    (hn : (Item.view v).settle = .ok n)
    (h : Path.target origin level (step :: rest) (.view v) = .ok x) :
    ∃ old m, old.IsSound ∧ old.settle = .ok m ∧ Path.target origin (level + 1) rest old = .ok x ∧
      Path.target origin level (step :: rest) (.view (pervade f result [v])) =
        pervadedCell f result old >>= Path.target origin (level + 1) rest := by
  have ha := Path.isArray_of_target h
  obtain ⟨t, hs⟩ := Path.exists_shapeOf hv h
  obtain ⟨i, hi, _⟩ := bind_eq_ok.mp h
  obtain ⟨hwithin, rfl⟩ := Path.offset_spec ho hs hi
  obtain ⟨old, hfinds, hrest⟩ := Path.exists_finds ho hs h
  obtain ⟨m, hm⟩ := hfinds.exists_settle hv hn
  refine ⟨old, m, hfinds.isSound hv, hm, hrest, ?_⟩
  have hshape : (Item.view (pervade f result [v])).shapeOf = (Item.view v).shapeOf :=
    (pervade_shape f result hs).trans hs.symm
  have hpervaded := isArray_pervade f result hv hn ha
  rw [Path.target, Path.offset_eq_of_shape hshape ha hpervaded, hi]
  change (Item.view (pervade f result [v])).elementAt _ >>= _ = _
  rw [elementAt_pervade f result hs hwithin.holds hfinds.cell]

/-- A path leads in a pervaded array to what the function makes of the item that it leads to in the
array. -/
theorem target_pervade (f : CellFunction) (result : ResultType)
    (ho : origin.number = .ok (.int o)) (hv : (Item.view v).IsSound)
    (hn : (Item.view v).settle = .ok n)
    (h : Path.target origin level (step :: rest) (.view v) = .ok x) :
    Path.target origin level (step :: rest) (.view (pervade f result [v])) =
      pervadedCell f result x := by
  -- along the path: what the steps so far find is an array, which the function pervades
  induction rest generalizing v n level step with
  | nil =>
      obtain ⟨old, _, _, _, hold, htarget⟩ := exists_target_pervade f result ho hv hn h
      cases hold
      rw [htarget]
      cases pervadedCell f result x <;> rfl
  | cons next rest ih =>
      obtain ⟨old, m, hsound, hm, hold, htarget⟩ := exists_target_pervade f result ho hv hn h
      have harray := Path.isArray_of_target hold
      obtain ⟨g, _, _, hr⟩ := hsound.exists_array harray hm
      have hinner := ih (hsound.lift harray) (settle_of_render hr) (Path.target_lift ho hsound hold)
      rw [htarget, ← hinner, pervadedCell, harray]
      rfl

/-- The first step of a path in a pervadable array leads to an item that shows whole numbers. -/
theorem IsPervadable.exists_finds {g : Grid Item} (h : v.IsPervadable g)
    (ho : origin.number = .ok (.int o))
    (hx : Path.target origin level (step :: rest) (.view v) = .ok x) :
    ∃ old y, old.IsSound ∧ old.ShowsWhole y ∧ Path.target origin (level + 1) rest old = .ok x := by
  obtain ⟨hs, _, gen, hgen, hcells⟩ := h.cells
  have hs : (Item.view v).shapeOf = .ok (.ofShape g.shape) := hs
  obtain ⟨old, hfinds, hold⟩ := Path.exists_finds ho hs hx
  obtain ⟨gen', hgen', hcell⟩ := bind_eq_ok.mp hfinds.cell
  obtain rfl := Except.ok.inj (hgen.symm.trans hgen')
  obtain ⟨z, y, hz, hsound, _, hshows⟩ := hcells _ hfinds.within.holds
  obtain rfl := Except.ok.inj (hz.symm.trans hcell)
  exact ⟨z, y, hsound, hshows, hold⟩

theorem IsPervadable.target {g : Grid Item} (h : v.IsPervadable g)
    (ho : origin.number = .ok (.int o))
    (hx : Path.target origin level (step :: rest) (.view v) = .ok x) :
    x.IsSound ∧ ∃ y, x.ShowsWhole y := by
  induction rest generalizing v g level step with
  | nil =>
      obtain ⟨old, y, hsound, hshows, hold⟩ := h.exists_finds ho hx
      cases hold
      exact ⟨hsound, y, hshows⟩
  | cons next rest ih =>
      obtain ⟨old, y, hsound, hshows, hold⟩ := h.exists_finds ho hx
      have harray := Path.isArray_of_target hold
      cases hshows with
      | number _ _ => simp [Item.isArray] at harray
      | array _ hinner => exact ih hinner (Path.target_lift ho hsound hold)

/-- Picking by a path and pervading can be done in either order: the item that is picked from the
pervaded array is what the function makes of the item that is picked from the array. -/
def PicksThrough (v : View Item) (f : CellFunction) (F : Int → Int) (path : Item)
    (origin : Origin) : Prop :=
  ∃ outer inner g, Item.pick (.view (pervade f .numeric [v])) path ⟨none, none⟩ origin = .ok outer ∧
    Item.pick (.view v) path ⟨none, none⟩ origin = .ok inner ∧
    (Item.view inner).render = .ok (.array g) ∧
    (Item.view outer).render = .ok (.array (g.mapWhole F)) ∧
    (Item.view (pervade f .numeric [inner])).render = .ok (.array (g.mapWhole F))

variable {g : Grid Item} {path : Item} {p : Path}

theorem IsPervadable.render_pervade_of_answersAs (h : v.IsPervadable g) (hf : Computes f F)
    (hw : w.AnswersAs v) :
    ∃ g', (Item.view w).render = .ok (.array g') ∧ g.mapWhole F = g'.mapWhole F ∧
      (Item.view (pervade f .numeric [w])).render = .ok (.array (g.mapWhole F)) := by
  obtain ⟨y, hyields, hg⟩ := h.sound.isReady.exists_yields h.render
  obtain ⟨g', hr, hg'⟩ := (hw.yields hyields).exists_render
  have hpervaded := AnswersAs.pervade (.cons hw .nil) f .numeric
  have hsame := hpervaded.render_eq (.refl (isComputed_pervade f .numeric [v]))
  refine ⟨g', hr, hg.mapWhole_eq hg' F, ?_⟩
  rw [hsame]
  exact h.pervious.render_pervade h.sound h.render h.whole hf

theorem IsPervadable.picksThrough_of {z : Item} (h : w.IsPervadable g) (hf : Computes f F)
    (hp : Path.of path = .ok p) (hx : Path.target origin 0 p (.view v) = .ok x)
    (hz : Path.target origin 0 p (.view (pervade f .numeric [v])) = .ok z)
    (hw : x.disclosed.AnswersAs w)
    (hr : (Item.view z.disclosed).render = .ok (.array (g.mapWhole F))) :
    v.PicksThrough f F path origin := by
  obtain ⟨outer, houter, houterz⟩ := Item.exists_pick hp hz
  obtain ⟨inner, hinner, hinnerx⟩ := Item.exists_pick hp hx
  obtain ⟨g', hg', hsame, hpervaded⟩ := h.render_pervade_of_answersAs hf (hinnerx.trans hw)
  have hrender : (Item.view outer).render = .ok (.array (g.mapWhole F)) := by
    rw [houterz.render_eq (.refl ⟨_, rfl⟩)]
    exact hr
  rw [hsame] at hrender hpervaded
  exact ⟨outer, inner, g', houter, hinner, hg', hrender, hpervaded⟩

/-- Every path in a pervadable array goes through a function. -/
theorem IsPervadable.picksThrough (h : v.IsPervadable g) (hf : Computes f F)
    (ho : origin.number = .ok (.int o)) (hp : Path.of path = .ok p)
    (hx : Path.target origin 0 p (.view v) = .ok x) : v.PicksThrough f F path origin := by
  have hpervaded {w : View Item} {g : Grid Item} (hw : w.IsPervadable g) :
      (Item.view (Item.view (pervade f .numeric [w])).disclosed).render =
        .ok (.array (g.mapWhole F)) := by
    have hanswers := Item.answersAs_disclosed_view (pervade f .numeric [w])
    rw [hanswers.render_eq (.refl (isComputed_pervade f .numeric [w]))]
    exact hw.pervious.render_pervade hw.sound hw.render hw.whole hf
  cases p with
  | nil =>
      cases hx
      exact h.picksThrough_of hf hp rfl rfl (Item.answersAs_disclosed_view v) (hpervaded h)
  | cons step rest =>
      obtain ⟨_, y, hshows⟩ := h.target ho hx
      have htarget := target_pervade f .numeric ho h.sound (settle_of_render h.render) hx
      cases hshows with
      | @number s _ n hn _ =>
          have hcell : pervadedCell f .numeric (.scalar s) = .ok (.int (F n)) := by
            simp [pervadedCell, Item.isArray, hf s n hn, bind, Except.bind]
          rw [hcell] at htarget
          have hmade : (Item.int (F n)).disclosed.IsPervadable ⟨[], [.int (F n)], none⟩ :=
            Item.isPervadable_disclosed rfl
          exact (Item.isPervadable_disclosed hn).picksThrough_of hf hp hx htarget
            (.refl ⟨_, rfl⟩) hmade.render
      | array harray hinner =>
          have hcell : pervadedCell f .numeric x = .ok (.view (pervade f .numeric [x.lift])) := by
            simp [pervadedCell, harray, bind, Except.bind, pure, Except.pure]
          rw [hcell] at htarget
          have hanswers : x.disclosed.AnswersAs x.lift := by
            cases x with
            | view w => exact Item.answersAs_disclosed_view w
            | array g => exact Item.answersAs_disclosed_array g
            | scalar s => simp [Item.isArray] at harray
            | list xs => simp [Item.isArray] at harray
          exact hinner.picksThrough_of hf hp hx htarget hanswers (hpervaded hinner)

/-- A function that is defined on simple values only is stopped by an item at the end of a path that
is neither a simple value nor a pervious array. -/
theorem isPervious_of_pick (hv : (Item.view v).IsSound) (hn : (Item.view v).settle = .ok n)
    (hf : RefusesArrays f) (ho : origin.number = .ok (.int o)) (hp : Path.of path = .ok p)
    (hne : p ≠ []) (hx : Path.target origin 0 p (.view v) = .ok x) {outer : View Item}
    (houter : Item.pick (.view (pervade f .numeric [v])) path ⟨none, none⟩ origin = .ok outer)
    (hr : (Item.view outer).render = .ok (.array g)) (hns : ∀ s, x ≠ .scalar s) :
    x.isArray = .ok true ∧ x.lift.IsPervious := by
  obtain ⟨step, rest, rfl⟩ := List.exists_cons_of_ne_nil hne
  have htarget := target_pervade f .numeric ho hv hn hx
  obtain ⟨z, hz⟩ : ∃ z, Path.target origin 0 (step :: rest) (.view (pervade f .numeric [v])) =
      .ok z := by
    have he := shape_of_render hr
    simp only [Item.pick, hp, bind, Except.bind] at houter
    cases houter
    obtain ⟨z, hz, _⟩ := bind_eq_ok.mp he
    exact ⟨z, hz⟩
  obtain ⟨b, hb, hcell⟩ := bind_eq_ok.mp (htarget.symm.trans hz)
  cases b with
  | false => exact absurd hcell (hf x hns z)
  | true =>
      cases hcell
      obtain ⟨w, hw, hanswers⟩ := Item.exists_pick hp hz
      obtain rfl := Except.ok.inj (hw.symm.trans houter)
      have hsame := (hanswers.trans (Item.answersAs_disclosed_view _)).render_eq
        (.refl (isComputed_pervade f .numeric [x.lift]))
      rw [hsame] at hr
      exact ⟨hb, isPervious_lift (Path.isSound_of_target ho hv hx) hf hb hr⟩

/-- Picking and pervading can be done in either order, along every path to a number or to an array,
if the array is at hand or pervious. A function that is defined on simple values only is stopped at
the end of a path by anything else than a simple value or a pervious array. -/
theorem pick_pervade (hv : (Item.view v).IsSound) (hr : (Item.view v).render = .ok (.array g))
    (hw : (Item.array g).IsWhole) (hf : Computes f F) (ho : origin.number = .ok (.int o))
    (hp : Path.of path = .ok p) :
    ((Item.view (pervade f .numeric [ofGrid g])).render = .ok (.array (g.mapWhole F)) ∧
      ∀ x, Path.target origin 0 p (.view (ofGrid g)) = .ok x →
        (ofGrid g).PicksThrough f F path origin) ∧
    (v.IsPervious → (Item.view (pervade f .numeric [v])).render = .ok (.array (g.mapWhole F)) ∧
      ∀ x, Path.target origin 0 p (.view v) = .ok x → v.PicksThrough f F path origin) ∧
    (RefusesArrays f → p ≠ [] → v.PicksThrough f F path origin → ∀ x,
      Path.target origin 0 p (.view v) = .ok x → (∀ s, x ≠ .scalar s) →
        x.isArray = .ok true ∧ x.lift.IsPervious) := by
  have hgrid : (ofGrid g).IsPervadable g := isPervadable_ofGrid (hv.render hr) hw
  have hcarried {w : View Item} (h : w.IsPervadable g) :
      (Item.view (pervade f .numeric [w])).render = .ok (.array (g.mapWhole F)) :=
    h.pervious.render_pervade h.sound h.render h.whole hf
  refine ⟨⟨hcarried hgrid, fun x hx => hgrid.picksThrough hf ho hp hx⟩, fun hpervious => ?_,
    fun hrefuse hne hthrough x hx hns => ?_⟩
  · have h : v.IsPervadable g := ⟨hv, hpervious, hr, hw⟩
    exact ⟨hcarried h, fun x hx => h.picksThrough hf ho hp hx⟩
  · obtain ⟨outer, _, g', houter, _, _, hrender, _⟩ := hthrough
    exact isPervious_of_pick hv (settle_of_render hr) hrefuse ho hp hne hx houter hrender hns

/-- A number, and a pair of numbers in a scalar. -/
def boxedPair : Grid Item :=
  ⟨[2], [.int 3, .array ⟨[], [.array (Grid.ofInts [6, 7])], none⟩], none⟩

theorem boxedPair_isSound : (Item.array boxedPair).IsSound := by
  have made {t : Shape} {xs : List Item} (ht : t.IsProper) (hl : xs.length = t.size.toNat)
      (hxs : ∀ x ∈ xs, x.IsKept ∧ x.IsSound) : (Item.array ⟨t, xs, none⟩).IsSound :=
    .array (isReady_ofGrid ⟨hl, fun x hx => (hxs x hx).1⟩ ht nofun) fun x hx => (hxs x hx).2
  have pair : (Item.array (Grid.ofInts [6, 7])).IsSound := pair_isLiteral.stored_vectorOf.2
  have box : (Item.array ⟨[], [.array (Grid.ofInts [6, 7])], none⟩).IsSound :=
    made Shape.isProper_nil rfl (List.forall_mem_singleton.mpr ⟨rfl, pair⟩)
  refine made (by simp [Shape.IsProper]) rfl (List.forall_mem_cons.mpr ⟨⟨rfl, .scalar _⟩, ?_⟩)
  exact List.forall_mem_singleton.mpr ⟨rfl, box⟩

theorem boxedPair_isWhole : (Item.array boxedPair).IsWhole := by
  refine .array (fun y hy => ?_) nofun
  rcases List.mem_pair.mp hy with rfl | rfl
  · exact .number rfl
  · exact .array (List.forall_mem_singleton.mpr pair_isWhole) nofun

/-- Through the scalar, to the first number of the pair, in the array as a pick hands it out. -/
theorem boxedPair_pick :
    (Item.pickAlong (ofGrid boxedPair) [] (.int 0)).PicksThrough (CellFunction.monadic Item.neg)
      (fun n => -n) (.list [.list [.int 1], .list [], .list [.int 0]]) (.int 0) := by
  have pervious : (Item.pickAlong (ofGrid boxedPair) [] (.int 0)).IsPervious := by
    have answers : (Item.pickAlong (ofGrid boxedPair) [] (.int 0)).AnswersAs (ofGrid boxedPair) :=
      ⟨⟨_, rfl⟩, rfl, rfl, rfl, rfl⟩
    exact answers.isPervious (isPervious_ofGrid boxedPair_isSound boxedPair_isWhole)
  have sound : (Item.view (Item.pickAlong (ofGrid boxedPair) [] (.int 0))).IsSound :=
    (isPervadable_ofGrid boxedPair_isSound boxedPair_isWhole).sound.pickAlong rfl
  have rendered : (Item.view (Item.pickAlong (ofGrid boxedPair) [] (.int 0))).render =
      .ok (.array boxedPair) := rfl
  have zero : Scalar.number (.int 0) = .ok (.int 0) := rfl
  have path : Path.of (.list [.list [.int 1], .list [], .list [.int 0]]) = .ok [[1], [], [0]] := rfl
  have through := pick_pervade sound rendered boxedPair_isWhole computes_neg zero path
  exact (through.2.1 pervious).2 (.int 6) rfl

end View
end LazyApl
