import LazyApl.Proofs.Yielding
/-!
# Where the cells of an array come from

An array under some transforms shows at each position a cell of the array below them, or its fill.
Two arrays whose cells come from the same positions of the same array render alike, however many
transforms there are and whatever they are folded into; only their element types may come about
along different ways.
-/
namespace LazyApl

open Outcome Link

namespace View

/-- Where one of two arrays renders the other one does, and both render to alike arrays. -/
def RendersAlike (v w : View Item) : Prop :=
  (∀ x, (Item.view v).render = .ok x → ∃ y, (Item.view w).render = .ok y ∧ Item.Alike x y) ∧
    ∀ y, (Item.view w).render = .ok y → ∃ x, (Item.view v).render = .ok x ∧ Item.Alike x y

theorem RendersAlike.of_render_eq {v w : View Item}
    (h : (Item.view v).render = (Item.view w).render) : v.RendersAlike w :=
  ⟨fun x hx => ⟨x, h ▸ hx, .refl x⟩, fun y hy => ⟨y, h ▸ hy, .refl y⟩⟩

section
variable {v w : View Item} {t : Shape} {F : Int → Item}

/-- Of two arrays that offer the same items and have the same fill, the one renders if the other one
does, and both collect the items. -/
theorem Offers.exists_render (h : v.Offers t F) (h' : w.Offers t F) (hv : v.IsReady)
    (hw : w.IsReady) (hp : w.prototype = v.prototype) {x : Item}
    (hx : (Item.view v).render = .ok x) :
    ∃ g g', x = .array g ∧ (Item.view w).render = .ok (.array g') ∧ g.Collects t F ∧
      g'.Collects t F := by
  obtain ⟨g, rfl⟩ := exists_array_of_render hx
  obtain ⟨_, hy, _⟩ := hv.exists_yields hx
  obtain rfl : g.shape = t := Extents.ofShape_inj (Except.ok.inj (hy.shape.symm.trans h.shape))
  obtain ⟨g₁, hg₁, hfirst⟩ := Yields.exists_render ⟨h, hv, hy.prototype⟩
  obtain ⟨g₂, hg₂, hsecond⟩ := Yields.exists_render ⟨h', hw, hp ▸ hy.prototype⟩
  cases hx.symm.trans hg₁
  exact ⟨g, g₂, rfl, hg₂, hfirst, hsecond⟩

theorem Offers.rendersAlike (h : v.Offers t F) (h' : w.Offers t F) (hv : v.IsReady)
    (hw : w.IsReady) (hp : w.prototype = v.prototype) : v.RendersAlike w := by
  refine ⟨fun x hx => ?_, fun y hy => ?_⟩
  · obtain ⟨g, g', rfl, hg', hcollects, hcollects'⟩ := h.exists_render h' hv hw hp hx
    exact ⟨_, hg', hcollects.alike hcollects' fun _ _ => rfl⟩
  · obtain ⟨g', g, rfl, hg, hcollects', hcollects⟩ := h'.exists_render h hw hv hp.symm hy
    exact ⟨_, hg, hcollects.alike hcollects' fun _ _ => rfl⟩

end

variable {root : Root Item} {r s t u : Shape} {v w w' x : View Item} {f f' g : Int → Option Int}

/-- At each position of its shape `u` the one array shows what the other one, of shape `t`, shows at
the position that `f` gives, or its fill where `f` gives none. -/
structure ComesFrom (root : Root Item) (r t u : Shape) (w v : View Item) (f : Int → Option Int) :
    Prop where
  standsOn : StandsOn root r w u
  prototype_eq : w.prototype = v.prototype
  holds : ∀ i j, u.Holds i → f i = some j → t.Holds j
  links : ∀ ls, v.links = .ok ls → ∃ ms, w.links = .ok ms ∧
    ∀ i, u.Holds i → reachAll ms i = (f i).bind (reachAll ls)
  exists_links : ∀ ms, w.links = .ok ms → ∃ ls, v.links = .ok ls

theorem StandsOn.comesFrom_self (h : StandsOn root r v t) : ComesFrom root r t t v v some := by
  refine ⟨h, rfl, ?_, fun ls hls => ⟨ls, hls, fun _ _ => rfl⟩, fun ms hms => ⟨ms, hms⟩⟩
  rintro i j hi ⟨⟩
  exact hi

/-- Under one transform the cells come from where its link leads. -/
theorem StandsOn.comesFrom_under (h : StandsOn root r v t) {y : Step} {l : Link} (hs : y.IsSound t)
    (hu : y.shapeOver (.ofShape t) = .ok (.ofShape u)) (hl : y.linkOver (.ofShape t) = .ok l)
    (hw : y.isWindow = false) : ComesFrom root r t u (v.under y) v l.reach := by
  have hk := h.stands.keeps Item.fillOf
  obtain ⟨u', hu', hleads⟩ := hs.leads hk.proper hu
  obtain rfl := Extents.ofShape_inj hu'
  refine ⟨h.above hs hu, prototype_under hw, fun i j hi hj => (hleads.2 l hl).holds hi hj,
    fun ls hls => ?_, fun ms hms => ?_⟩
  · obtain ⟨ms, hms, _, hreach⟩ := h.links_under hs hu hl hls
    exact ⟨ms, hms, hreach⟩
  · have hf := (Level.advances_of_isSound Item.fillOf root.facts hk hs hu).follows
    obtain ⟨rfl, _⟩ := h
    cases hls : v.links with
    | ok ls => exact ⟨ls, rfl⟩
    | error e =>
        unfold links at hls hms
        rw [hl, hls] at hf
        exact absurd hms (hf ms)

theorem ComesFrom.trans (h : ComesFrom root r s t w v f) (h' : ComesFrom root r t u x w g) :
    ComesFrom root r s u x v fun i => (g i).bind f := by
  refine ⟨h'.standsOn, h'.prototype_eq.trans h.prototype_eq, fun i j hi hj => ?_, fun ls hls => ?_,
    fun ms hms => ?_⟩
  · obtain ⟨k, hk, hj⟩ := Option.bind_eq_some_iff.mp hj
    exact h.holds k j (h'.holds i k hi hk) hj
  · obtain ⟨ms, hms, hreach⟩ := h.links ls hls
    obtain ⟨ns, hns, hreach'⟩ := h'.links ms hms
    refine ⟨ns, hns, fun i hi => ?_⟩
    rw [hreach' i hi, Option.bind_assoc]
    cases hk : g i with
    | none => rfl
    | some k => exact hreach k (h'.holds i k hi hk)
  · obtain ⟨ns, hns⟩ := h'.exists_links ms hms
    exact h.exists_links ns hns

/-- The cells that come from an array, and its fill where there is no cell, can be read. -/
structure IsReadable (v : View Item) (u : Shape) (f : Int → Option Int) (ls : List Link)
    (cells : Gen Item) : Prop where
  cells : ∀ i, u.Holds i →
    ∃ y, Tower.shown cells v.prototype ((f i).bind (reachAll ls)) = .ok y
  prototype : u.size = 0 → ∃ p, v.prototype = .ok p

theorem ComesFrom.isReadable (h : ComesFrom root r t u w v f) {g : Grid Item}
    (hg : Tower.collect w.settled = .ok g) : ∃ ls cells, v.links = .ok ls ∧
      (Item.settledRoot root).generator .now = .ok cells ∧ IsReadable v u f ls cells := by
  obtain ⟨gen, xs, _, fill, hgen, hxs, _, hfill, _⟩ :=
    (Tower.collect_eq_ok ((shape_settled w).trans h.standsOn.shape_eq)).mp hg
  obtain ⟨ms, cells, hms, hcells⟩ := Tower.generator_ok hgen
  rw [Item.ofSteps_settled] at hms
  rw [h.standsOn.root_eq] at hcells
  obtain ⟨ls, hls⟩ := h.exists_links ms hms
  obtain ⟨ms', hms', hreach⟩ := h.links ls hls
  obtain rfl := Except.ok.inj (hms.symm.trans hms')
  obtain ⟨gen', hgen', hcell⟩ := h.standsOn.generator_settled hms hcells
  obtain rfl := Except.ok.inj (hgen.symm.trans hgen')
  refine ⟨ls, cells, hls, hcells, fun i hi => ?_, fun h0 => ?_⟩
  · obtain ⟨y, _, hy⟩ := (mapM_upTo hxs).2 i hi
    refine ⟨y, ?_⟩
    rw [← hreach i hi, ← h.prototype_eq, ← hcell i hi, hy]
  · rw [if_pos h0, prototype_settled, h.prototype_eq] at hfill
    obtain ⟨p, hp, _⟩ := map_eq_ok.mp hfill
    exact ⟨p, hp⟩

theorem ComesFrom.isSupplied (h : ComesFrom root r t u w v f) (he : ∃ e, w.etype = .ok e)
    (hp : u.size = 0 → ∃ p, v.prototype = .ok p) : Tower.IsSupplied w.settled u := by
  refine ⟨?_, fun h0 => ?_⟩
  · rwa [etype_settled]
  · rw [prototype_settled, h.prototype_eq]
    exact hp h0

/-- Two arrays whose cells come from the same positions are collected into alike arrays, if these
cells can be read and both have an element type. -/
theorem ComesFrom.collect_alike (h : ComesFrom root r t u w v f)
    (h' : ComesFrom root r t u w' v f') (heq : ∀ i, u.Holds i → f i = f' i) {ls : List Link}
    {cells : Gen Item} (hls : v.links = .ok ls)
    (hcells : (Item.settledRoot root).generator .now = .ok cells)
    (hread : IsReadable v u f ls cells) (he : ∃ e, w.etype = .ok e)
    (he' : ∃ e, w'.etype = .ok e) :
    ∃ g g', Tower.collect w.settled = .ok g ∧ Tower.collect w'.settled = .ok g' ∧
      Item.Alike (.array g) (.array g') := by
  obtain ⟨ms, hms, hreach⟩ := h.links ls hls
  obtain ⟨ms', hms', hreach'⟩ := h'.links ls hls
  obtain ⟨gen, hgen, hcell⟩ := h.standsOn.generator_settled hms hcells
  obtain ⟨gen', hgen', hcell'⟩ := h'.standsOn.generator_settled hms' hcells
  refine (Tower.collect_alike ((shape_settled w).trans h.standsOn.shape_eq)
    ((shape_settled w').trans h'.standsOn.shape_eq) hgen hgen').mpr
    ⟨h.isSupplied he hread.prototype, h'.isSupplied he' hread.prototype, fun i hi => ?_⟩
  obtain ⟨y, hy⟩ := hread.cells i hi
  refine ⟨y, y, ?_, ?_, .refl _⟩
  · rw [hcell i hi, hreach i hi, h.prototype_eq, hy]
  · rw [hcell' i hi, hreach' i hi, h'.prototype_eq, ← heq i hi, hy]

/-- Two arrays whose cells come from the same positions of an array: if both render, it is to alike
arrays, and if the one has an element type exactly if the other has one, then the one renders
exactly if the other one does. -/
theorem ComesFrom.rendersAlike (h : ComesFrom root r t u w v f) (h' : ComesFrom root r t u w' v f')
    (heq : ∀ i, u.Holds i → f i = f' i) (hw : ¬ ∃ g, w = ofGrid g) (hw' : ¬ ∃ g, w' = ofGrid g) :
    (∀ x y, (Item.view w).render = .ok x → (Item.view w').render = .ok y → Item.Alike x y) ∧
      (((∃ e, w.etype = .ok e) ↔ ∃ e, w'.etype = .ok e) → w.RendersAlike w') := by
  have hshape := (shape_settled w).trans h.standsOn.shape_eq
  have hshape' := (shape_settled w').trans h'.standsOn.shape_eq
  have hetype {g : Grid Item} (hg : Tower.collect w.settled = .ok g) : ∃ e, w.etype = .ok e :=
    etype_settled w ▸ (Tower.isSupplied_of_collect hshape hg).etype
  have hetype' {g : Grid Item} (hg : Tower.collect w'.settled = .ok g) : ∃ e, w'.etype = .ok e :=
    etype_settled w' ▸ (Tower.isSupplied_of_collect hshape' hg).etype
  -- whichever of the two is collected, the cells that both show have been read
  have hfrom {g : Grid Item} (hg : Tower.collect w.settled = .ok g) (he' : ∃ e, w'.etype = .ok e) :
      ∃ g g', Tower.collect w.settled = .ok g ∧ Tower.collect w'.settled = .ok g' ∧
        Item.Alike (.array g) (.array g') := by
    obtain ⟨ls, cells, hls, hcells, hread⟩ := h.isReadable hg
    exact h.collect_alike h' heq hls hcells hread (hetype hg) he'
  have hfrom' {g : Grid Item} (hg : Tower.collect w'.settled = .ok g) (he : ∃ e, w.etype = .ok e) :
      ∃ g g', Tower.collect w.settled = .ok g ∧ Tower.collect w'.settled = .ok g' ∧
        Item.Alike (.array g) (.array g') := by
    obtain ⟨ls, cells, hls, hcells, hread⟩ := h'.isReadable hg
    refine h.collect_alike h' heq hls hcells ⟨fun i hi => ?_, hread.prototype⟩ he (hetype' hg)
    rw [heq i hi]
    exact hread.cells i hi
  rw [RendersAlike, render_eq hw, render_eq hw']
  refine ⟨fun x y hx hy => ?_, fun hiff => ⟨fun x hx => ?_, fun y hy => ?_⟩⟩
  · obtain ⟨g, hg, rfl⟩ := map_eq_ok.mp hx
    obtain ⟨g', hg', rfl⟩ := map_eq_ok.mp hy
    obtain ⟨_, _, h1, h2, halike⟩ := hfrom hg (hetype' hg')
    cases hg.symm.trans h1
    cases hg'.symm.trans h2
    exact halike
  · obtain ⟨g, hg, rfl⟩ := map_eq_ok.mp hx
    obtain ⟨_, g', h1, h2, halike⟩ := hfrom hg (hiff.mp (hetype hg))
    cases hg.symm.trans h1
    exact ⟨_, map_eq_ok.mpr ⟨g', h2, rfl⟩, halike⟩
  · obtain ⟨g', hg', rfl⟩ := map_eq_ok.mp hy
    obtain ⟨g, _, h1, h2, halike⟩ := hfrom' hg' (hiff.mpr (hetype' hg'))
    cases hg'.symm.trans h2
    exact ⟨_, map_eq_ok.mpr ⟨g, h1, rfl⟩, halike⟩

/-- Of two arrays whose cells come from the same positions of an array, and which have the same
element type, the one renders to what the other one renders to. -/
theorem ComesFrom.renders_same (h : ComesFrom root r t u w v f) (h' : ComesFrom root r t u w' v f')
    (heq : ∀ i, u.Holds i → f i = f' i) (hetype : w.etype = w'.etype) (hw : ¬ ∃ g, w = ofGrid g)
    (hw' : ¬ ∃ g, w' = ofGrid g) {y : Item} (hy : (Item.view w).render = .ok y) :
    (Item.view w').render = .ok y := by
  rw [render_eq hw] at hy
  rw [render_eq hw']
  obtain ⟨g, hg, rfl⟩ := map_eq_ok.mp hy
  obtain ⟨ls, cells, hls, hcells, _⟩ := h.isReadable hg
  obtain ⟨ms, hms, hreach⟩ := h.links ls hls
  obtain ⟨ms', hms', hreach'⟩ := h'.links ls hls
  obtain ⟨gen, hgen, hcell⟩ := h.standsOn.generator_settled hms hcells
  obtain ⟨gen', hgen', hcell'⟩ := h'.standsOn.generator_settled hms' hcells
  have hread : (upTo u.size).mapM (fun i : Int => gen.cell i) =
      (upTo u.size).mapM fun i : Int => gen'.cell i := by
    refine mapM_congr fun i hi => ?_
    have hi := mem_upTo.mp hi
    rw [hcell i hi, hcell' i hi, hreach i hi, hreach' i hi, heq i hi, h.prototype_eq,
      h'.prototype_eq]
  have hcollect : Tower.collect w.settled = Tower.collect w'.settled := by
    rw [Tower.collect_eq ((shape_settled w).trans h.standsOn.shape_eq),
      Tower.collect_eq ((shape_settled w').trans h'.standsOn.shape_eq), hgen, hgen', etype_settled,
      etype_settled, hetype, prototype_settled, prototype_settled, h.prototype_eq, h'.prototype_eq]
    simp only [bind, Except.bind, hread]
  rw [← hcollect, hg]
  rfl

/-- The cells of an array that yields items can be read. -/
theorem Yields.exists_cells {F : Int → Item} (h : v.Yields t F) (hs : StandsOn root r v t) :
    ∃ ls cells, v.links = .ok ls ∧ (Item.settledRoot root).generator .now = .ok cells ∧
      ∀ i, t.Holds i → ∃ y, Tower.shown cells v.prototype (reachAll ls i) = .ok y := by
  obtain ⟨gen, hgen, hcell⟩ := h.cells
  have hsettles := settles h.ready.fill
  rw [hgen] at hsettles
  obtain ⟨gen', hgen', heach⟩ := hsettles
  obtain ⟨ls, cells, hls, hcells⟩ := Tower.generator_ok hgen'
  rw [Item.ofSteps_settled] at hls
  rw [hs.root_eq] at hcells
  obtain ⟨gen'', hgen'', hshown⟩ := hs.generator_settled hls hcells
  obtain rfl := Except.ok.inj (hgen'.symm.trans hgen'')
  refine ⟨ls, cells, hls, hcells, fun i hi => ⟨F i, ?_⟩⟩
  rw [← hshown i hi, heach, hcell i hi]

/-- What comes from an array that yields items and has a fill renders, if it has an element type. -/
theorem ComesFrom.exists_render {F : Int → Item} (h : ComesFrom root r t u w v f)
    (hs : StandsOn root r v t) (hy : v.Yields t F) (hp : ∃ p, v.prototype = .ok p)
    (he : ∃ e, w.etype = .ok e) (hw : ¬ ∃ g, w = ofGrid g) :
    ∃ y, (Item.view w).render = .ok y := by
  obtain ⟨ls, cells, hls, hcells, hread⟩ := hy.exists_cells hs
  have hreadable : IsReadable v u f ls cells := by
    refine ⟨fun i hi => ?_, fun _ => hp⟩
    cases hj : f i with
    | none => exact hp
    | some j => exact hread j (h.holds i j hi hj)
  obtain ⟨g, _, hg, _⟩ := h.collect_alike h (fun _ _ => rfl) hls hcells hreadable he he
  rw [render_eq hw]
  exact ⟨_, map_eq_ok.mpr ⟨g, hg, rfl⟩⟩

/-- An array that shows at each position what the array below shows there, and has its element type,
renders like it, also if that one is at hand. -/
theorem ComesFrom.rendersAlike_source (h : ComesFrom root r t t w v f) (hs : StandsOn root r v t)
    (hr : (⟨root, []⟩ : View Item).IsReady) (hsame : ∀ i, t.Holds i → f i = some i)
    (hetype : w.etype = v.etype) (hw : ¬ ∃ g, w = ofGrid g) : w.RendersAlike v := by
  by_cases hv : ∃ g, v = ofGrid g
  · obtain ⟨g, rfl⟩ := hv
    obtain rfl := hs.root_eq
    obtain ⟨F, hy, hg⟩ := yields_ofGrid hr
    obtain rfl : g.shape = t := Extents.ofShape_inj (Except.ok.inj hs.shape_eq)
    obtain ⟨ls, cells, hls, hcells, hread⟩ := hy.exists_cells hs
    have hreadable : IsReadable (ofGrid g) g.shape f ls cells := by
      refine ⟨fun i hi => ?_, fun _ => ⟨_, rfl⟩⟩
      rw [hsame i hi]
      exact hread i hi
    obtain ⟨g₁, g₂, hg₁, hg₂, halike⟩ := h.collect_alike hs.comesFrom_self hsame hls hcells
      hreadable (hetype ▸ hy.etype) hy.etype
    obtain ⟨_, hcollect, hown⟩ := hy.exists_collect
    obtain rfl := Except.ok.inj (hg₂.symm.trans hcollect)
    have hrender : (Item.view w).render = .ok (.array g₁) := by
      rw [render_eq hw, hg₁]
      rfl
    -- what is at hand holds the items that would be collected from it
    obtain ⟨F₁, hy₁, hfirst⟩ := (h.standsOn.isReady hr).exists_yields hrender
    have hshape : g₁.shape = g.shape :=
      Extents.ofShape_inj (Except.ok.inj (hy₁.shape.symm.trans h.standsOn.shape_eq))
    rw [hshape] at hfirst
    have hequal : Item.Alike (.array g₁) (.array g) :=
      (hfirst.alike_iff hg).mpr ((hfirst.alike_iff hown).mp halike)
    refine ⟨fun x hx => ⟨_, rfl, ?_⟩, fun y hy => ⟨_, hrender, ?_⟩⟩
    · obtain rfl := Except.ok.inj (hrender.symm.trans hx)
      exact hequal
    · cases hy
      exact hequal
  · exact (h.rendersAlike hs.comesFrom_self hsame hw hv).2 (by rw [hetype])

end View
end LazyApl
