import LazyApl.Proofs.Collecting
/-!
# What a rendered array shows

An array is rendered by collecting it over its root rendered. The array at hand that comes out
answers like the array itself: it has the same shape, the same cells up to the way they are stored,
and the same fill if it has no cell.
-/
namespace LazyApl

open Outcome

namespace Tower

theorem Stands.of_shape {root root' : Facts Item} (hr : root'.shape.get = root.shape.get)
    {r s : Shape} {steps : List Step} (h : Stands root r steps s) : Stands root' r steps s := by
  induction h with
  | root h hp => exact .root (hr.trans h) hp
  | above _ hs hu ih => exact .above ih hs hu

end Tower

namespace Grid

/-- The cells of an array at hand are its items, also when it is rendered once more. -/
theorem IsKept.cells {g : Grid Item} (h : g.IsKept) :
    ∃ rc, (Item.settledRoot (.concrete g)).generator .now = .ok rc ∧
      ∀ i, g.shape.Holds i → ∃ y, g.items[i.toNat]? = some y ∧ y.IsKept ∧
        rc.cell (.int i) = .ok y := by
  have hs := Item.settles_grid g
  obtain ⟨shape, items, fill⟩ := g
  have hitem {i : Int} (hi : shape.Holds i) : ∃ y, items[i.toNat]? = some y ∧ y.IsKept := by
    have hl : items.length = shape.size.toNat := h.length_eq
    unfold Shape.Holds at hi
    have hk : i.toNat < items.length := by omega
    exact ⟨_, List.getElem?_eq_getElem hk, h.items _ (List.getElem_mem hk)⟩
  cases shape with
  | nil =>
      cases items with
      | nil => exact absurd h.length_eq (by simp)
      | cons x xs =>
          obtain ⟨rc, hrc, hcell⟩ := hs
          refine ⟨rc, hrc, fun i hi => ?_⟩
          obtain ⟨y, hy, hk⟩ := hitem hi
          have h0 : i.toNat = 0 := by
            unfold Shape.Holds at hi
            simp only [Shape.size_nil] at hi
            omega
          rw [h0] at hy ⊢
          cases hy
          exact ⟨x, rfl, hk, (hcell _).trans hk.settle_eq⟩
  | cons n s =>
      obtain ⟨rc, hrc, hcell⟩ := hs
      refine ⟨rc, hrc, fun i hi => ?_⟩
      obtain ⟨y, hy, hk⟩ := hitem hi
      refine ⟨y, hy, hk, ?_⟩
      rw [hcell, Gen.cell_indexed, pickBy_int, (pickAt_ok hi.1).mpr hy]
      exact hk.settle_eq

end Grid

namespace View

variable {root : Root Item} {r s t : Shape} {v : View Item} {g : Grid Item}

/-- What an array answers while it is rendered: its root hands out rendered cells. -/
def settled (v : View Item) : Facts Item :=
  Tower.facts (fun y => .ok y.typify) (Item.settledRoot v.root) v.steps

/-- An array at hand, as an array to build on. -/
def ofGrid (g : Grid Item) : View Item := ⟨.concrete g, []⟩

theorem shape_settled (v : View Item) : v.settled.shape.get = v.shape := by
  unfold settled View.shape View.facts
  rw [Tower.shape_facts, Tower.shape_facts, Item.ofSteps_settled]

theorem etype_settled (v : View Item) : v.settled.etype.get = v.etype := by
  unfold settled View.etype View.facts
  rw [Tower.etype_facts, Tower.etype_facts, Item.ofSteps_settled]

theorem prototype_settled (v : View Item) : v.settled.prototype .now = v.prototype := by
  unfold settled View.prototype View.facts
  rw [Tower.prototype_facts, Tower.prototype_facts, Item.ofSteps_settled]

def IsEmpty (v : View Item) : Prop := v.count = .ok 0

theorem isEmpty_iff (h : v.shape = .ok (.ofShape s)) : v.IsEmpty ↔ s.size = 0 := by
  simp [IsEmpty, count, h, bind, Except.bind]

/-- The links of a tower, the outermost first. -/
def links (v : View Item) : Except Fault (List Link) :=
  (Level.ofSteps Item.fillOf v.root.facts v.steps).stage.chain.get

/-- The rendered cells of an array are rendered cells of its root, and its fill where no cell of
the root shows. -/
theorem StandsOn.generator_settled (h : StandsOn root r v s) {ls : List Link} {rc : Gen Item}
    (hl : v.links = .ok ls) (hr : (Item.settledRoot root).generator .now = .ok rc) :
    ∃ g, v.settled.generator .now = .ok g ∧ ∀ i, s.Holds i →
      g.cell (.int i) = Tower.shown rc v.prototype (Link.reachAll ls i) := by
  obtain ⟨rfl, hst⟩ := h
  have hst' : Tower.Stands (Item.settledRoot v.root) r v.steps s :=
    hst.of_shape (shape_settled ⟨v.root, []⟩)
  have hl' := hl
  unfold links at hl'
  rw [← Item.ofSteps_settled] at hl'
  obtain ⟨g, hg, hcell⟩ := hst'.generator_eq hl' hr
  refine ⟨g, hg, fun i hi => ?_⟩
  rw [hcell i hi]
  exact congrArg (fun p => Tower.shown rc p _) (prototype_settled v)

theorem render_eq (h : ¬ ∃ g, v = ofGrid g) :
    (Item.view v).render = Item.array <$> Tower.collect v.settled := by
  obtain ⟨root, steps⟩ := v
  cases steps with
  | cons s steps => simp only [Item.render, settled]
  | nil =>
      cases root with
      | concrete g => exact absurd ⟨g, rfl⟩ h
      | computed f => simp only [Item.render, settled]

theorem settle_ofGrid (g : Grid Item) : (Item.view (ofGrid g)).settle = .ok g.unboxed := by
  simp only [Item.settle, ofGrid, Item.settleView]

/-- As an item an array that is collected is what it renders to, out of its box if it is in one. -/
theorem settle_eq (h : ¬ ∃ g, v = ofGrid g) :
    (Item.view v).settle = Grid.unboxed <$> Tower.collect v.settled := by
  obtain ⟨root, steps⟩ := v
  cases steps with
  | cons s steps => cases root <;> simp only [Item.settle, Item.settleView, settled] <;> rfl
  | nil =>
      cases root with
      | concrete g => exact absurd ⟨g, rfl⟩ h
      | computed f =>
          simp only [Item.settle, Item.settleView, settled]
          rfl

theorem under_ne_ofGrid (v : View Item) (x : Step) : ¬ ∃ g, v.under x = ofGrid g := by
  rintro ⟨g, hg⟩
  exact List.cons_ne_nil x v.steps (congrArg View.steps hg)

theorem render_under (v : View Item) (x : Step) :
    (Item.view (v.under x)).render = Item.array <$> Tower.collect (v.under x).settled :=
  render_eq (under_ne_ofGrid v x)

/-- An array at hand that shows what an array shows. -/
structure RendersTo (v : View Item) (t : Shape) (g : Grid Item) : Prop where
  shape_eq : g.shape = t
  kept : g.IsKept
  etype : ∃ e, v.etype = .ok e
  prototype : t.size = 0 → v.prototype = .ok g.prototype
  cells : ∃ ls rc, v.links = .ok ls ∧ (Item.settledRoot v.root).generator .now = .ok rc ∧
    ∀ i, t.Holds i → ∃ x k, Tower.shown rc v.prototype (Link.reachAll ls i) = .ok x ∧
      g.items[i.toNat]? = some (x.countedFor k).stored

theorem rendersTo_ofGrid {g : Grid Item} (h : g.IsKept) : (ofGrid g).RendersTo g.shape g := by
  refine ⟨rfl, h, ⟨g.etype, rfl⟩, fun _ => rfl, ?_⟩
  obtain ⟨rc, hrc, hcell⟩ := h.cells
  refine ⟨[], rc, rfl, hrc, fun i hi => ?_⟩
  obtain ⟨y, hy, hk, hc⟩ := hcell i hi
  refine ⟨y, .mixed, hc, ?_⟩
  rw [hy]
  exact congrArg some hk.stored_eq.symm

theorem RendersTo.standsOn (hg : v.RendersTo t g) (ht : t.IsProper) :
    StandsOn (.concrete g) t (ofGrid g) t := by
  obtain rfl := hg.shape_eq
  exact ⟨rfl, .root rfl ht⟩

theorem RendersTo.rendersTo_self (hg : v.RendersTo t g) : (ofGrid g).RendersTo t g := by
  obtain rfl := hg.shape_eq
  exact rendersTo_ofGrid hg.kept

/-- Two arrays that render to the same array show items that are stored alike. -/
theorem stored_alike {a b : Except Fault Item} {y : Option Item}
    (ha : ∃ x k, a = .ok x ∧ y = some (x.countedFor k).stored)
    (hb : ∃ x k, b = .ok x ∧ y = some (x.countedFor k).stored) :
    ∃ x z, a = .ok x ∧ b = .ok z ∧ Item.Alike x.stored z.stored := by
  obtain ⟨x, k, ha, hx⟩ := ha
  obtain ⟨z, k', hb, hz⟩ := hb
  refine ⟨x, z, ha, hb, ?_⟩
  rw [hx] at hz
  have h : Item.Alike (x.countedFor k).stored (z.countedFor k').stored := by
    rw [Option.some.inj hz]
    exact .refl _
  rwa [Item.alike_countedFor, Item.alike_countedFor_right] at h

/-- What rendering an array gives shows what the array shows. -/
theorem StandsOn.rendersTo (h : StandsOn root r v t) {g : Grid Item}
    (hg : (Item.view v).render = .ok (.array g)) (hk : g.IsKept) : v.RendersTo t g := by
  have hshape := h.shape_eq
  by_cases hv : ∃ g', v = ofGrid g'
  · obtain ⟨g', rfl⟩ := hv
    cases hg
    obtain rfl : g.shape = t := Extents.ofShape_inj (Except.ok.inj hshape)
    exact rendersTo_ofGrid hk
  · rw [render_eq hv] at hg
    obtain ⟨g', hg, hg'⟩ := map_eq_ok.mp hg
    cases hg'
    obtain ⟨cells, xs, e, fill, hc, hx, he, hf, rfl⟩ :=
      (Tower.collect_eq_ok ((shape_settled v).trans hshape)).mp hg
    obtain ⟨ls, rc, hl, hr⟩ := Tower.generator_ok hc
    rw [Item.ofSteps_settled] at hl
    obtain ⟨cells', hc', hcell⟩ := h.generator_settled hl (h.root_eq ▸ hr)
    rw [hc] at hc'
    cases hc'
    obtain ⟨hlen, hx⟩ := mapM_upTo hx
    rw [etype_settled] at he
    rw [prototype_settled] at hf
    refine ⟨rfl, hk, ⟨e, he⟩, fun h0 => ?_, ls, rc, hl, hr, fun i hi => ?_⟩
    · rw [if_pos h0] at hf
      obtain ⟨p, hp, rfl⟩ := map_eq_ok.mp hf
      have hnil : xs = [] := by
        apply List.length_eq_zero_iff.mp
        omega
      rw [hp, hnil]
      rfl
    · obtain ⟨x, hi', hxc⟩ := hx i hi
      refine ⟨x, e.kind, ?_, ?_⟩
      · rw [← hcell i hi]
        exact hxc
      · simp [Grid.of, hi']

/-- The cells of an array, rendered one by one, are those of the array that it renders to. -/
theorem RendersTo.cell_settled (h : StandsOn root r v t) (hg : v.RendersTo t g) :
    ∃ gen, v.generator = .ok gen ∧ ∀ i, t.Holds i →
      ∃ x k, gen.cell (.int i) >>= Item.settle = .ok x ∧
        g.items[i.toNat]? = some (x.countedFor k).stored := by
  obtain ⟨ls, rc, hls, hr, hshown⟩ := hg.cells
  obtain ⟨rfl, hst⟩ := h
  have hsettles := Item.settles_root v.root
  rw [hr] at hsettles
  cases hraw : v.root.facts.generator .now with
  | error f =>
      rw [hraw] at hsettles
      cases hsettles
  | ok raw =>
      rw [hraw] at hsettles
      obtain ⟨rc', hrc, hcell⟩ := hsettles
      cases hrc
      obtain ⟨gen, hgen, hgcell⟩ := hst.generator_eq hls hraw
      refine ⟨gen, hgen, fun i hi => ?_⟩
      obtain ⟨x, k, hx, hxi⟩ := hshown i hi
      refine ⟨x, k, ?_, hxi⟩
      rw [hgcell i hi]
      cases hj : Link.reachAll ls i with
      | some j =>
          rw [hj] at hx
          exact (hcell _).symm.trans hx
      | none =>
          rw [hj] at hx
          have hp : v.prototype = .ok x := hx
          have hk := hg.kept.items _ (List.mem_of_getElem? hxi)
          change v.prototype >>= Item.settle = .ok x
          rw [hp]
          exact Item.settle_of_isKept hk

variable {x : Step} {u : Shape} {l : Link} {ls : List Link}

theorem StandsOn.above (h : StandsOn root r v t) (hs : x.IsSound t)
    (hu : x.shapeOver (.ofShape t) = .ok (.ofShape u)) : StandsOn root r (v.under x) u :=
  ⟨h.root_eq, .above h.stands hs hu⟩

theorem prototype_under (hw : x.isWindow = false) : (v.under x).prototype = v.prototype :=
  Tower.prototype_cons hw

theorem etype_under_of_keepsType (hx : x.keepsType = true) : (v.under x).etype = v.etype := by
  unfold View.etype View.facts
  rw [Tower.etype_facts, Tower.etype_facts]
  cases x with
  | reshape _ _ => cases hx
  | cut _ _ _ _ => cases hx
  | compress _ _ _ _ _ => cases hx
  | _ => rfl

/-- One more transform leads where its own link leads, and from there where the array leads. -/
theorem StandsOn.links_under (h : StandsOn root r v t) (hs : x.IsSound t)
    (hu : x.shapeOver (.ofShape t) = .ok (.ofShape u)) (hl : x.linkOver (.ofShape t) = .ok l)
    (hls : v.links = .ok ls) :
    ∃ ms, (v.under x).links = .ok ms ∧ l.Carries u t ∧
      ∀ i, u.Holds i → Link.reachAll ms i = (l.reach i).bind (Link.reachAll ls) := by
  have hk := h.stands.keeps Item.fillOf
  have hf := (Level.advances_of_isSound Item.fillOf root.facts hk hs hu).follows
  obtain ⟨rfl, hst⟩ := h
  unfold links at hls
  rw [hl, hls] at hf
  obtain ⟨ms, hms, _, hreach⟩ := hf
  obtain ⟨u', hu', hleads⟩ := hs.leads hk.proper hu
  obtain rfl := Extents.ofShape_inj hu'
  exact ⟨ms, hms, hleads.2 l hl, hreach⟩

/-- The rendered cells of an array with one more transform on top. -/
theorem StandsOn.cells_under (h : StandsOn root r v t) (hs : x.IsSound t)
    (hu : x.shapeOver (.ofShape t) = .ok (.ofShape u)) (hl : x.linkOver (.ofShape t) = .ok l)
    (hls : v.links = .ok ls) {rc : Gen Item}
    (hr : (Item.settledRoot root).generator .now = .ok rc) :
    ∃ cells, (v.under x).settled.generator .now = .ok cells ∧ ∀ i, u.Holds i →
      cells.cell (.int i) =
        Tower.shown rc (v.under x).prototype ((l.reach i).bind (Link.reachAll ls)) := by
  obtain ⟨ms, hms, _, hreach⟩ := h.links_under hs hu hl hls
  obtain ⟨cells, hc, hcell⟩ := (h.above hs hu).generator_settled hms hr
  refine ⟨cells, hc, fun i hi => ?_⟩
  rw [hcell i hi, hreach i hi]

end View
end LazyApl
