import LazyApl.Proofs.Bounds
import LazyApl.Proofs.Rendering
/-!
# Windows of an array and of what it renders to

A window is folded into the tower below it, so a cell without source shows the fill of the window,
whichever transform it was that padded there. The same window of the rendered array shows the fill
of the array there, as an item. An array of windows renders by rendering each of its windows.
-/
namespace LazyApl

open Outcome

namespace View

variable {root : Root Item} {r s t : Shape} {v w w' : View Item} {g : Grid Item}

theorem IsComputed.settles (h : w.IsComputed) :
    Item.Settles w.generator (w.settled.generator .now) := by
  obtain ⟨f, rfl⟩ := h
  exact Item.settles_root (View.computed f).root

theorem IsComputed.generator_settled (h : w.IsComputed) {cells : Gen Item}
    (hc : w.generator = .ok cells) :
    ∃ cells', w.settled.generator .now = .ok cells' ∧
      ∀ i, cells'.cell i = cells.cell i >>= Item.settle := by
  have hs := h.settles
  rw [hc] at hs
  exact hs

theorem IsComputed.ne_ofGrid (h : w.IsComputed) : ¬ ∃ g, w = ofGrid g := by
  obtain ⟨f, rfl⟩ := h
  rintro ⟨g, ⟨⟩⟩

theorem IsComputed.render_eq (h : w.IsComputed) :
    (Item.view w).render = Item.array <$> Tower.collect w.settled :=
  View.render_eq h.ne_ofGrid

/-- A computed array that renders has its cells, each rendered on its own and counted for the
element type. -/
theorem IsComputed.exists_items (h : w.IsComputed) (hs : w.shape = .ok (.ofShape s))
    (hr : (Item.view w).render = .ok (.array g)) :
    ∃ gen e, w.generator = .ok gen ∧ w.etype = .ok e ∧ g.items.length = s.size.toNat ∧
      ∀ j, s.Holds j → ∃ y z, gen.cell (.int j) = .ok y ∧ y.settle = .ok z ∧
        g.items[j.toNat]? = some (z.countedFor e.kind).stored := by
  rw [h.render_eq] at hr
  obtain ⟨g', hcollect, hg⟩ := map_eq_ok.mp hr
  cases hg
  obtain ⟨cells, zs, e, fill, hcells, hzs, he, _, rfl⟩ :=
    (Tower.collect_eq_ok ((shape_settled w).trans hs)).mp hcollect
  have hsettles := h.settles
  rw [hcells] at hsettles
  cases hgen : w.generator with
  | error f =>
      rw [hgen] at hsettles
      cases hsettles
  | ok gen =>
      rw [hgen] at hsettles
      obtain ⟨_, hsame, heach⟩ := hsettles
      obtain rfl := Except.ok.inj hsame
      obtain ⟨hlen, hz⟩ := mapM_upTo hzs
      refine ⟨gen, e, rfl, (etype_settled w).symm.trans he, by simpa [Grid.of] using hlen,
        fun j hj => ?_⟩
      obtain ⟨z, hzj, hcell⟩ := hz j hj
      rw [heach] at hcell
      obtain ⟨y, hy, hsettle⟩ := bind_eq_ok.mp hcell
      exact ⟨y, z, hy, hsettle, by simp [Grid.of, hzj]⟩

/-- Computed arrays of one shape render to alike arrays if their cells do, one by one. -/
theorem IsComputed.render_alike_iff (h : w.IsComputed) (h' : w'.IsComputed)
    (hs : w.shape = .ok (.ofShape s)) (hs' : w'.shape = .ok (.ofShape s)) {cells cells' : Gen Item}
    (hc : w.generator = .ok cells) (hc' : w'.generator = .ok cells') :
    (∃ a b, (Item.view w).render = .ok a ∧ (Item.view w').render = .ok b ∧ Item.Alike a b) ↔
      Tower.IsSupplied w.settled s ∧ Tower.IsSupplied w'.settled s ∧ ∀ i, s.Holds i →
        ∃ x y, cells.cell (.int i) >>= Item.settle = .ok x ∧
          cells'.cell (.int i) >>= Item.settle = .ok y ∧ Item.Alike x.stored y.stored := by
  obtain ⟨cs, hcs, hcell⟩ := h.generator_settled hc
  obtain ⟨cs', hcs', hcell'⟩ := h'.generator_settled hc'
  rw [h.render_eq, h'.render_eq, Tower.alike_map_iff,
    Tower.collect_alike ((shape_settled w).trans hs) ((shape_settled w').trans hs') hcs hcs']
  simp only [hcell, hcell']

def frame (v : View Item) (o : Int) (dims : List (Int × Int)) : View Item :=
  v.under (.window (.int o) (Link.ofDims dims))

/-- Some cell of the array has no source; it shows the fill. -/
def ShowsFill (w : View Item) : Prop :=
  ∃ (s : Shape) (i : Int) (links : List Link) (name : String), w.shape = .ok (.ofShape s) ∧
    s.Holds i ∧ w.chain = .ok (links, name) ∧ Link.compose links (.int i) = .ok none

theorem StandsOn.showsFill_iff (h : StandsOn root r v s) {ls : List Link} (hl : v.links = .ok ls) :
    v.ShowsFill ↔ ∃ i, s.Holds i ∧ Link.reachAll ls i = none := by
  have hshape := h.shape_eq
  obtain ⟨rfl, hst⟩ := h
  have hd := (hst.keeps Item.fillOf).descends ls hl
  have hchain : v.chain = .ok (ls, v.root.facts.form.name) := bind_eq_ok.mpr ⟨ls, hl, rfl⟩
  constructor
  · rintro ⟨s', i, links, name, hs, hi, hc, hn⟩
    rw [hshape] at hs
    obtain rfl := Extents.ofShape_inj (Except.ok.inj hs)
    rw [hchain] at hc
    cases hc
    rw [hd.compose_eq hi] at hn
    exact ⟨i, hi, Option.map_eq_none_iff.mp (Except.ok.inj hn)⟩
  · rintro ⟨i, hi, hn⟩
    refine ⟨s, i, ls, _, hshape, hi, hchain, ?_⟩
    rw [hd.compose_eq hi, hn]
    rfl

variable {o : Int} {dims : List (Int × Int)}

theorem StandsOn.frame (h : StandsOn root r v t) (hf : Link.Frames o dims t) :
    StandsOn root r (v.frame o dims) (dims.map Prod.fst) :=
  h.above ⟨o, dims, rfl, rfl, hf⟩ (congrArg Except.ok (Link.map_fst_ofDims dims))

theorem shape_frame : (v.frame o dims).shape = .ok (.ofShape (dims.map Prod.fst)) := by
  unfold View.shape View.facts
  rw [Tower.shape_facts]
  exact congrArg Except.ok (Link.map_fst_ofDims dims)

theorem rank_frame : (v.frame o dims).rank = .ok (dims.length : Int) := by
  rw [rank_of_shape shape_frame, List.length_map]

theorem etype_frame : (v.frame o dims).etype = v.etype := etype_under_of_keepsType rfl

theorem prototype_frame (h : Shape.size (dims.map Prod.fst) = 0) :
    (v.frame o dims).prototype = v.prototype := by
  unfold View.prototype View.facts
  rw [Tower.prototype_facts, Tower.prototype_facts]
  simp only [frame, under, Level.ofSteps, Level.above, Level.windowFill, Step.fixedShape?,
    Link.map_fst_ofDims, Lazy.get_keep, Extents.size_ofShape, h, bind, Except.bind,
    Number.isZero_int, beq_self_eq_true, if_true]

/-- What an array shows at a position over some fill is alike to the item there of what the array
renders to, unless the fill shows and is not alike to that of the array. -/
theorem RendersTo.shown_alike_iff (hg : v.RendersTo t g) {ls : List Link} {rc : Gen Item}
    (hls : v.links = .ok ls) (hr : (Item.settledRoot v.root).generator .now = .ok rc) {j : Int}
    (hj : t.Holds j) {z : Item} (hz : g.items[j.toNat]? = some z) (fill : Except Fault Item) :
    (∃ x, Tower.shown rc fill (Link.reachAll ls j) = .ok x ∧ Item.Alike x.stored z.stored) ↔
      (Link.reachAll ls j = none → ∃ q p, fill = .ok q ∧ v.prototype = .ok p ∧
        Item.Alike q.stored p.stored) := by
  obtain ⟨_, _, h1, h2, hshown⟩ := hg.cells
  rw [hls] at h1
  rw [hr] at h2
  cases h1
  cases h2
  obtain ⟨x, k, hx, hxz⟩ := hshown j hj
  rw [hz] at hxz
  have hstored : z.stored = (x.countedFor k).stored := by
    rw [(hg.kept.items z (List.mem_of_getElem? hz)).stored_eq, Option.some.inj hxz]
  simp only [hstored, Item.alike_countedFor_right]
  cases hn : Link.reachAll ls j with
  | some m =>
      rw [hn] at hx
      exact iff_of_true ⟨x, hx, .refl _⟩ nofun
  | none =>
      rw [hn] at hx
      have hp : v.prototype = .ok x := hx
      constructor
      · rintro ⟨q, hq, ha⟩ _
        exact ⟨q, x, hq, hp, ha⟩
      · intro hfill
        obtain ⟨q, p, hq, hp', ha⟩ := hfill rfl
        rw [hp] at hp'
        cases hp'
        exact ⟨q, hq, ha⟩

/-- The cells of a window of an array and of the same window of what the array renders to are stored
alike one by one, unless a fill shows that is not alike to that of the array. -/
theorem RendersTo.frame_cells (h : StandsOn root r v t) (hg : v.RendersTo t g)
    (hf : Link.Frames o dims t) :
    ∃ ms cells cells', (v.frame o dims).links = .ok ms ∧
      (v.frame o dims).settled.generator .now = .ok cells ∧
      ((ofGrid g).frame o dims).settled.generator .now = .ok cells' ∧
      ∀ i, Shape.Holds (dims.map Prod.fst) i →
        ((∃ x y, cells.cell (.int i) = .ok x ∧ cells'.cell (.int i) = .ok y ∧
          Item.Alike x.stored y.stored) ↔
            (Link.reachAll ms i = none → ∃ q p, (v.frame o dims).prototype = .ok q ∧
              v.prototype = .ok p ∧ Item.Alike q.stored p.stored)) := by
  have hgrid := hg.standsOn (h.stands.keeps Item.fillOf).proper
  obtain rfl := hg.shape_eq
  obtain ⟨ls, rc, hls, hr, _⟩ := hg.cells
  obtain ⟨rc', hr', hitem⟩ := hg.kept.cells
  have hx : Step.IsSound g.shape (.window (.int o) (Link.ofDims dims)) := ⟨o, dims, rfl, rfl, hf⟩
  have hu : (Step.window (.int o) (Link.ofDims dims)).shapeOver (.ofShape g.shape) =
      .ok (.ofShape (dims.map Prod.fst)) := congrArg Except.ok (Link.map_fst_ofDims dims)
  have hmaps : (Link.affine (.int o) (Link.ofDims dims) (.ofShape g.shape)).Maps
      (dims.map Prod.fst) g.shape _ := Link.maps_affine rfl hf
  obtain ⟨rfl, hst⟩ := h
  have h : StandsOn v.root r v g.shape := ⟨rfl, hst⟩
  obtain ⟨ms, hms, _, hchain⟩ := h.links_under hx hu rfl hls
  obtain ⟨cells, hcells, hcell⟩ := h.cells_under hx hu rfl hls hr
  have hnone : (ofGrid g).links = .ok [] := rfl
  obtain ⟨cells', hcells', hcell'⟩ := hgrid.cells_under hx hu rfl hnone hr'
  refine ⟨ms, cells, cells', hms, hcells, hcells', fun i hi => ?_⟩
  -- every cell of the window is a cell of the array, so it has a source if that one has
  have hj := hmaps.reach_eq hi
  have hjh := hmaps.carries.holds hi hj
  obtain ⟨z, hz, _, hzc⟩ := hitem _ hjh
  have hy : cells'.cell (.int i) = .ok z := by
    rw [hcell' i hi, hj]
    exact hzc
  have hiff := hg.shown_alike_iff hls hr hjh hz (v.frame o dims).prototype
  rw [hcell i hi, hchain i hi, hj, Option.bind_some, hy]
  constructor
  · rintro ⟨x, y, hx, hy, ha⟩
    cases hy
    exact hiff.mp ⟨x, hx, ha⟩
  · intro hfill
    obtain ⟨x, hx, ha⟩ := hiff.mpr hfill
    exact ⟨x, z, hx, rfl, ha⟩

/-- A window of an array and the same window of what the array renders to are collected into alike
arrays exactly if the window needs no fill, or makes a fill that is alike to that of the array. -/
theorem RendersTo.frame_alike (h : StandsOn root r v t) (hg : v.RendersTo t g)
    (hf : Link.Frames o dims t) :
    (∃ a b, Tower.collect (v.frame o dims).settled = .ok a ∧
        Tower.collect ((ofGrid g).frame o dims).settled = .ok b ∧
        Item.Alike (.array a) (.array b)) ↔
      ((v.frame o dims).IsEmpty ∨ (v.frame o dims).ShowsFill →
        ∃ q p, (v.frame o dims).prototype = .ok q ∧ v.prototype = .ok p ∧
          Item.Alike q.stored p.stored) := by
  have hw := h.frame hf
  have hshape := hw.shape_eq
  have hgrid := hg.standsOn (h.stands.keeps Item.fillOf).proper
  obtain ⟨ms, cells, cells', hms, hcells, hcells', hone⟩ := hg.frame_cells h hf
  have hempty := isEmpty_iff hshape
  have hshows := hw.showsFill_iff hms
  rw [Tower.collect_alike ((shape_settled _).trans hshape)
    ((shape_settled _).trans (hgrid.frame hf).shape_eq) hcells hcells']
  constructor
  · rintro ⟨hs, _, hall⟩ (he | hfill)
    · have h0 := hempty.mp he
      obtain ⟨p, hp⟩ := hs.prototype h0
      rw [prototype_settled] at hp
      rw [prototype_frame h0] at hp ⊢
      exact ⟨p, p, hp, hp, .refl _⟩
    · obtain ⟨i, hi, hn⟩ := hshows.mp hfill
      exact (hone i hi).mp (hall i hi) hn
  · intro hneed
    refine ⟨⟨?_, fun h0 => ?_⟩, ⟨⟨g.etype, ?_⟩, fun h0 => ⟨g.prototype, ?_⟩⟩, fun i hi => ?_⟩
    · obtain ⟨e, he⟩ := hg.etype
      exact ⟨e, (etype_settled _).trans (etype_frame.trans he)⟩
    · obtain ⟨q, _, hq, _, _⟩ := hneed (.inl (hempty.mpr h0))
      exact ⟨q, (prototype_settled _).trans hq⟩
    · exact (etype_settled _).trans etype_frame
    · exact (prototype_settled _).trans (prototype_frame h0)
    · exact (hone i hi).mpr fun hn => hneed (.inr (hshows.mpr ⟨i, hi, hn⟩))

theorem settle_frame : (Item.view (v.frame o dims)).settle =
    Grid.unboxed <$> Tower.collect (v.frame o dims).settled :=
  settle_eq (under_ne_ofGrid v _)

theorem unboxed_frame (hs : (v.frame o dims).shape = .ok (.ofShape s)) (h : s ≠ [])
    {a : Grid Item} (ha : Tower.collect (v.frame o dims).settled = .ok a) :
    a.unboxed = .array a ∧ (Item.array a).stored = .array a := by
  obtain ⟨_, _, _, _, _, _, _, _, rfl⟩ :=
    (Tower.collect_eq_ok ((shape_settled _).trans hs)).mp ha
  cases s with
  | nil => exact absurd rfl h
  | cons n s => exact ⟨rfl, rfl⟩

theorem stored_frame_alike {v' : View Item} (hs : (v.frame o dims).shape = .ok (.ofShape s))
    (hs' : (v'.frame o dims).shape = .ok (.ofShape s)) (h : s ≠ []) :
    (∃ x y, (Item.view (v.frame o dims)).settle = .ok x ∧
        (Item.view (v'.frame o dims)).settle = .ok y ∧ Item.Alike x.stored y.stored) ↔
      ∃ a b, Tower.collect (v.frame o dims).settled = .ok a ∧
        Tower.collect (v'.frame o dims).settled = .ok b ∧ Item.Alike (.array a) (.array b) := by
  simp only [settle_frame, map_eq_ok]
  constructor
  · rintro ⟨_, _, ⟨a, ha, rfl⟩, ⟨b, hb, rfl⟩, hab⟩
    obtain ⟨hua, hsa⟩ := unboxed_frame hs h ha
    obtain ⟨hub, hsb⟩ := unboxed_frame hs' h hb
    rw [hua, hub, hsa, hsb] at hab
    exact ⟨a, b, ha, hb, hab⟩
  · rintro ⟨a, b, ha, hb, hab⟩
    obtain ⟨hua, hsa⟩ := unboxed_frame hs h ha
    obtain ⟨hub, hsb⟩ := unboxed_frame hs' h hb
    refine ⟨_, _, ⟨a, ha, rfl⟩, ⟨b, hb, rfl⟩, ?_⟩
    rw [hua, hub, hsa, hsb]
    exact hab

/-- An array of windows of an array: at every position the window there, by its first cell and its
extents and steps. -/
structure HoldsWindows (w v : View Item) (s : Shape) (o : Int → Int) (d : Int → List (Int × Int)) :
    Prop where
  computed : w.IsComputed
  etype : ∃ e, w.etype = .ok e
  shape : w.shape = .ok (.ofShape s)
  items : ∃ f, w.generator = .ok (.indexed f) ∧
    ∀ i, s.Holds i → f (.int i) = .ok (.view (v.frame (o i) (d i)))

/-- An array of windows of an array and the array of the same windows of what the array renders to
render to alike arrays exactly if all windows do; without windows both need a fill. -/
theorem HoldsWindows.render_alike {o : Int → Int} {d : Int → List (Int × Int)}
    (h : StandsOn root r v t) (hg : v.RendersTo t g) (hw : w.HoldsWindows v s o d)
    (hw' : w'.HoldsWindows (ofGrid g) s o d)
    (hf : ∀ i, s.Holds i → Link.Frames (o i) (d i) t ∧ d i ≠ []) :
    (∃ a b, (Item.view w).render = .ok a ∧ (Item.view w').render = .ok b ∧ Item.Alike a b) ↔
      (w.IsEmpty → (∃ p, w.prototype = .ok p) ∧ ∃ p, w'.prototype = .ok p) ∧
        ∀ i, s.Holds i → (v.frame (o i) (d i)).IsEmpty ∨ (v.frame (o i) (d i)).ShowsFill →
          ∃ q p, (v.frame (o i) (d i)).prototype = .ok q ∧ v.prototype = .ok p ∧
            Item.Alike q.stored p.stored := by
  obtain ⟨f, hgen, hitem⟩ := hw.items
  obtain ⟨f', hgen', hitem'⟩ := hw'.items
  have ht := (h.stands.keeps Item.fillOf).proper
  have hgrid := hg.standsOn ht
  rw [hw.computed.render_alike_iff hw'.computed hw.shape hw'.shape hgen hgen', isEmpty_iff hw.shape]
  have hcell : ∀ i, s.Holds i → ((∃ x y, (Gen.indexed f).cell (.int i) >>= Item.settle = .ok x ∧
      (Gen.indexed f').cell (.int i) >>= Item.settle = .ok y ∧ Item.Alike x.stored y.stored) ↔
        ((v.frame (o i) (d i)).IsEmpty ∨ (v.frame (o i) (d i)).ShowsFill →
          ∃ q p, (v.frame (o i) (d i)).prototype = .ok q ∧ v.prototype = .ok p ∧
            Item.Alike q.stored p.stored)) := by
    intro i hi
    obtain ⟨hfi, hd⟩ := hf i hi
    have hne : (d i).map Prod.fst ≠ [] := by simpa using hd
    rw [← hg.frame_alike h hfi,
      ← stored_frame_alike (h.frame hfi).shape_eq (hgrid.frame hfi).shape_eq hne]
    simp only [Gen.cell_indexed, hitem i hi, hitem' i hi, bind, Except.bind]
  constructor
  · rintro ⟨hs, hs', hall⟩
    refine ⟨fun h0 => ⟨?_, ?_⟩, fun i hi => (hcell i hi).mp (hall i hi)⟩
    · obtain ⟨p, hp⟩ := hs.prototype h0
      exact ⟨p, (prototype_settled w).symm.trans hp⟩
    · obtain ⟨p, hp⟩ := hs'.prototype h0
      exact ⟨p, (prototype_settled w').symm.trans hp⟩
  · rintro ⟨hp, hall⟩
    obtain ⟨e, he⟩ := hw.etype
    obtain ⟨e', he'⟩ := hw'.etype
    refine ⟨⟨⟨e, (etype_settled w).trans he⟩, fun h0 => ?_⟩,
      ⟨⟨e', (etype_settled w').trans he'⟩, fun h0 => ?_⟩, fun i hi => (hcell i hi).mpr (hall i hi)⟩
    · obtain ⟨⟨p, hp⟩, _⟩ := hp h0
      exact ⟨p, (prototype_settled w).trans hp⟩
    · obtain ⟨_, p, hp⟩ := hp h0
      exact ⟨p, (prototype_settled w').trans hp⟩

end View
end LazyApl
