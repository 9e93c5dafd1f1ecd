import LazyApl.Proofs.Keeping
import LazyApl.Proofs.WindowRendering
/-!
# Arrays enclosed as a whole

An array that is enclosed as a whole is the one item of a scalar, unless it is no array: a simple
value stays what it is. Whether an array is one is decided before it is rendered, by asking the one
cell that a scalar shows. The answer is what it would be for the rendered array.
-/
namespace LazyApl

open Outcome

namespace Item

/-- A settled item is an array if it is one as it is stored. -/
theorem IsSettled.isArray_eq {x : Item} (h : x.IsSettled) : x.isArray = .ok x.stored.isGrid := by
  cases h with
  | scalar h =>
      rw [h.stored_eq]
      simp [isArray, isGrid]
  | list xs => simp [isArray, stored, isGrid]
  | @array g h =>
      obtain ⟨s, xs, f⟩ := g
      rw [stored_array]
      simp only [isArray, isBox, Grid.unboxed]
      split
      · rename_i y
        cases hg : y.isGrid with
        | true => rfl
        | false => exact congrArg Except.ok hg.symm
      · rfl

/-- A kept item is an array if it is an array at hand. -/
theorem IsKept.isArray_eq {x : Item} (h : x.IsKept) : x.isArray = .ok x.isGrid := by
  cases x with
  | scalar s => simp [isArray, isGrid]
  | list xs => simp [isArray, isGrid]
  | view v => cases h
  | array g =>
      obtain ⟨s, xs, f⟩ := g
      have hbox : isBox ⟨s, xs, f⟩ = false := by
        rw [Bool.eq_false_iff]
        intro hb
        unfold isBox at hb
        split at hb
        · rename_i x hs hx
          dsimp only at hs hx
          subst hs hx
          have h' := h.stored_eq
          have hx : x.isGrid = false := by simpa using hb
          simp only [stored, hx] at h'
          rw [if_neg Bool.false_ne_true] at h'
          rw [h'] at hx
          cases hx
        · cases hb
      simp [isArray, isGrid, hbox]

theorem isGrid_countedFor {x : Item} (k : Kind) :
    (x.countedFor k).stored.isGrid = x.stored.isGrid := by
  unfold countedFor
  split
  · cases x with
    | scalar s => cases s <;> rfl
    | _ => rfl
  · rfl

theorem arrayNth_eq (xs : List Item) (k : Nat) :
    arrayNth xs k = match xs[k]? with
      | some x => x.isArray
      | none => .error .offEnd := by
  induction xs generalizing k with
  | nil => rfl
  | cons x xs ih =>
      cases k with
      | zero => simp [arrayNth]
      | succ k => simp [arrayNth, ih]

/-- Whether cells are arrays is asked of the cells that the root hands out, one by one. -/
theorem arrayCells_eq (root : Root Item) : arrayCells root = (do
    let cells ← root.facts.generator .now
    return fun i => cells.cell i >>= isArray) := by
  cases root with
  | concrete g =>
      obtain ⟨shape, xs, fill⟩ := g
      cases shape with
      | nil =>
          cases xs with
          | nil => rfl
          | cons x xs =>
              simp only [arrayCells, arrayGrid]
              rfl
      | cons n s =>
          exact congrArg Except.ok (funext (placeIn_bind (arrayNth_eq xs)))
  | computed f =>
      obtain ⟨_, _, _, generator, _⟩ := f
      change arrayGen (generator .now) = (do
        let cells ← generator .now
        return fun i => cells.cell i >>= isArray)
      cases generator .now with
      | error e => rfl
      | ok cells =>
          cases cells with
          | single x => rfl
          | indexed f =>
              refine congrArg Except.ok (funext fun i => ?_)
              simp only [arrayIndexed, Gen.cell_indexed]
              cases f i <;> rfl

end Item

namespace View

variable {v : View Item} {g : Grid Item}

/-- A rendered cell is one of the root or the fill, as the chain leads. -/
theorem cell_settled_eq {gen : Gen Item} (hg : v.settled.generator .now = .ok gen) :
    ∃ ls rc, v.links = .ok ls ∧ (Item.settledRoot v.root).generator .now = .ok rc ∧
      ∀ i, gen.cell i = (do
        match ← Link.compose ls i with
        | some j => rc.cell j
        | none => v.prototype) := by
  have hp := prototype_settled v
  unfold settled at hg hp
  rw [Tower.prototype_facts] at hp
  obtain ⟨root, steps⟩ := v
  cases steps with
  | nil => exact ⟨[], gen, rfl, hg, fun i => rfl⟩
  | cons s rest =>
      obtain ⟨ls, hls, hg⟩ := bind_eq_ok.mp hg
      obtain ⟨rc, hrc, hg⟩ := bind_eq_ok.mp hg
      cases hg
      rw [Item.ofSteps_settled] at hls
      refine ⟨ls, rc, hls, hrc, fun i => ?_⟩
      rw [Gen.cell_indexed, hp, Level.source]
      cases Link.compose ls i with
      | error e => rfl
      | ok r =>
          cases r with
          | none => rfl
          | some j =>
              simp only [bind, Except.bind]
              cases rc.cell j <;> rfl

/-- Whether a scalar is an array is asked of the one cell that it shows. -/
theorem isArray_scalar (h : v.shape = .ok []) : (Item.view v).isArray = (do
    let ls ← v.links
    let cells ← v.root.facts.generator .now
    match ← Link.compose ls 0 with
    | some j => cells.cell j >>= Item.isArray
    | none => do
      match ← v.prototype with
      | .array g => return !Item.isBox g
      | _ => return false) := by
  obtain ⟨root, steps⟩ := v
  have h' : (Tower.facts Item.fillOf root.facts steps).shape.get = .ok [] := h
  cases steps with
  | nil =>
      simp only [Item.isArray, Item.isArrayView, h', Item.arrayCells_eq, bind, Except.bind]
      cases root.facts.generator .now <;> rfl
  | cons s rest =>
      simp only [Item.isArray, Item.isArrayView, h', Item.arrayCells_eq, bind, Except.bind]
      unfold links
      cases (Level.ofSteps Item.fillOf root.facts (s :: rest)).stage.chain.get with
      | error e => rfl
      | ok ls =>
          cases root.facts.generator .now with
          | error e => rfl
          | ok cells =>
              rfl

/-- The root hands out items of which it is known before they are rendered whether they are
arrays. -/
def Tells (root : Root Item) : Prop :=
  ∀ gen i x, root.facts.generator .now = .ok gen → gen.cell i = .ok x →
    ∀ y, x.settle = .ok y → x.isArray = .ok y.stored.isGrid

/-- A scalar is an array if the rendered cell that it shows is one. -/
theorem isArray_of_cell (hs : v.root.IsSettled) (ht : Tells v.root) (hshape : v.shape = .ok [])
    {gen : Gen Item} {x : Item} (hg : v.settled.generator .now = .ok gen)
    (hx : gen.cell 0 = .ok x) : (Item.view v).isArray = .ok x.stored.isGrid := by
  obtain ⟨ls, rc, hls, hrc, hcell⟩ := cell_settled_eq hg
  have hsettles := Item.settles_root v.root
  rw [hrc] at hsettles
  cases hraw : v.root.facts.generator .now with
  | error e =>
      rw [hraw] at hsettles
      cases hsettles
  | ok raw =>
      rw [hraw] at hsettles
      obtain ⟨rc', hrc', heach⟩ := hsettles
      cases hrc'
      rw [hcell] at hx
      obtain ⟨r, hr, hx⟩ := bind_eq_ok.mp hx
      rw [isArray_scalar hshape, hls, hraw]
      change (Link.compose ls 0 >>= _) = _
      rw [hr]
      cases r with
      | some j =>
          change rc.cell j = .ok x at hx
          rw [heach] at hx
          obtain ⟨z, hz, hzx⟩ := bind_eq_ok.mp hx
          change raw.cell j >>= Item.isArray = _
          rw [hz]
          exact ht raw j z hraw hz x hzx
      | none =>
          change v.prototype = .ok x at hx
          change (v.prototype >>= _) = _
          rw [hx]
          have hsx : x.IsSettled := by
            rw [← prototype_settled, settled, Tower.prototype_facts] at hx
            exact Tower.isSettled_prototype hs.fill hx
          have harr := hsx.isArray_eq
          cases hsx with
          | scalar h =>
              simp only [Item.isArray] at harr
              exact harr
          | list xs =>
              simp only [Item.isArray] at harr
              exact harr
          | array h =>
              simp only [Item.isArray] at harr
              exact harr

theorem isArray_of_shape {t : Shape} (h : v.shape = .ok (.ofShape t)) (ht : t ≠ []) :
    (Item.view v).isArray = .ok true := by
  obtain ⟨root, steps⟩ := v
  have h' : (Tower.facts Item.fillOf root.facts steps).shape.get = .ok (.ofShape t) := h
  cases t with
  | nil => exact absurd rfl ht
  | cons n t => simp [Item.isArray, Item.isArrayView, h', bind, Except.bind, Extents.ofShape, pure,
      Except.pure]

theorem isGrid_unboxed {x : Item} {fill : Option Item} (h : x.IsKept) :
    (Grid.unboxed ⟨[], [x], fill⟩).stored.isGrid = x.isGrid := by
  have hk : (⟨[], [x], fill⟩ : Grid Item).unboxed.IsKept :=
    Item.isKept_unboxed (by simpa using h)
  rw [hk.stored_eq]
  unfold Grid.unboxed
  dsimp only
  split
  · rename_i hg
    exact hg.symm
  · rfl

theorem isGrid_of_shape {s : Shape} (hs : s ≠ []) (xs : List Item) (fill : Option Item) :
    (Grid.unboxed ⟨s, xs, fill⟩).stored.isGrid = true := by
  cases s with
  | nil => exact absurd rfl hs
  | cons n s => rfl

/-- A view is an array if it is one once it is rendered. -/
theorem isArray_of_settle (hs : v.root.IsSettled) (ht : Tells v.root) (hv : ¬ ∃ g, v = ofGrid g)
    {y : Item} (hy : (Item.view v).settle = .ok y) :
    (Item.view v).isArray = .ok y.stored.isGrid := by
  rw [settle_eq hv] at hy
  obtain ⟨g, hg, rfl⟩ := map_eq_ok.mp hy
  have he := (Tower.items_of_collect hg).1
  have hshape : v.shape = .ok (.ofShape g.shape) := (shape_settled v).symm.trans he
  by_cases hne : g.shape = []
  · rw [hne] at he hshape
    obtain ⟨cells, xs, t, fill, hcells, hx, _, _, rfl⟩ := (Tower.collect_eq_ok he).mp hg
    obtain ⟨hlen, hx⟩ := mapM_upTo hx
    obtain ⟨x, hx0, hcell⟩ := hx 0 ⟨le_refl 0, Int.one_pos⟩
    obtain ⟨z, rfl⟩ : ∃ z, xs = [z] := List.length_eq_one_iff.mp hlen
    obtain rfl : z = x := Option.some.inj hx0
    have hk := (Tower.isSettled_cell hs.fill hs.cells hcells hcell).countedFor t.kind
    rw [isArray_of_cell hs ht hshape hcells hcell]
    unfold Grid.of
    rw [List.map_cons, List.map_nil, List.map_cons, List.map_nil, isGrid_unboxed hk.isKept_stored,
      Item.isGrid_countedFor]
  · rw [isArray_of_shape hshape hne]
    obtain ⟨s, xs, fill⟩ := g
    rw [isGrid_of_shape hne]

theorem tells_concrete (h : (Item.array g).IsMade) : Tells (.concrete g) := by
  intro gen i x hgen hx y hy
  cases h with
  | array kept cells _ =>
      have hmem := Root.mem_of_cell hgen hx
      have hk := kept.items x hmem
      rw [hk.settle_eq] at hy
      cases hy
      exact ((cells x hmem).isSettled hk).isArray_eq

theorem isArray_ofGrid (hk : g.IsKept) :
    (Item.view (ofGrid g)).isArray = .ok g.unboxed.stored.isGrid := by
  by_cases hs : g.shape = []
  · obtain ⟨shape, items, fill⟩ := g
    obtain rfl : shape = [] := hs
    obtain ⟨y, rfl⟩ : ∃ y, items = [y] := List.length_eq_one_iff.mp hk.length_eq
    have hky := hk.items y List.mem_cons_self
    have hy := hky.isArray_eq
    have hshape : (Root.concrete ⟨[], [y], fill⟩).facts.shape.get = .ok [] := rfl
    rw [isGrid_unboxed hky]
    simp [ofGrid, Item.isArray, Item.isArrayView, hshape, Item.arrayCells, Item.arrayGrid,
      Item.arrayNth, hy, bind, Except.bind]
  · rw [isArray_of_shape (v := ofGrid g) rfl hs]
    obtain ⟨s, xs, fill⟩ := g
    rw [isGrid_of_shape hs]

end View

/-- Whether an item that has been made so is an array is known before it is rendered. -/
theorem Item.IsMade.isArray_eq {x : Item} (h : x.IsMade) :
    ∀ y, x.settle = .ok y → x.isArray = .ok y.stored.isGrid := by
  induction h with
  | scalar h =>
      intro y hy
      simp only [Item.settle] at hy
      cases hy
      exact (IsSettled.scalar h).isArray_eq
  | list xs =>
      intro y hy
      simp only [Item.settle] at hy
      cases hy
      exact (IsSettled.list xs).isArray_eq
  | array kept cells fill =>
      intro y hy
      simp only [Item.settle] at hy
      cases hy
      exact (IsSettled.array kept.items).isArray_eq
  | @concrete g steps made ih =>
      intro y hy
      by_cases hv : ∃ g', (⟨.concrete g, steps⟩ : View Item) = View.ofGrid g'
      · obtain ⟨g', hg⟩ := hv
        cases hg
        have hs := View.settle_ofGrid g
        rw [View.ofGrid, hy] at hs
        cases hs
        cases made with
        | array kept _ _ => exact View.isArray_ofGrid kept
      · exact View.isArray_of_settle (Root.isSettled_concrete made) (View.tells_concrete made) hv hy
  | @computed f steps cells fill ih =>
      intro y hy
      have hroot : Root.IsSettled (.computed f) :=
        Root.isSettled_of_cells (fun gen i x hgen hx => (cells gen i x hgen hx).settle) fill
      have htells : View.Tells (.computed f) := ih
      refine View.isArray_of_settle hroot htells ?_ hy
      rintro ⟨g, hg⟩
      cases hg

namespace View

variable {root : Root Item} {r t : Shape} {v : View Item} {g : Grid Item}

/-- What an array renders to is what it is as an item, if it is in no box. -/
theorem settle_of_render (h : (Item.view v).render = .ok (.array g)) :
    (Item.view v).settle = .ok g.unboxed := by
  by_cases hv : ∃ g', v = ofGrid g'
  · obtain ⟨g', rfl⟩ := hv
    cases h
    exact settle_ofGrid g
  · rw [render_eq hv] at h
    obtain ⟨g', hg, hg'⟩ := map_eq_ok.mp h
    cases hg'
    rw [settle_eq hv, hg]
    rfl

theorem render_of_settle {y : Item} (h : (Item.view v).settle = .ok y) :
    ∃ g, (Item.view v).render = .ok (.array g) ∧ y = g.unboxed := by
  by_cases hv : ∃ g, v = ofGrid g
  · obtain ⟨g, rfl⟩ := hv
    rw [settle_ofGrid] at h
    exact ⟨g, rfl, (Except.ok.inj h).symm⟩
  · rw [settle_eq hv] at h
    obtain ⟨g, hg, rfl⟩ := map_eq_ok.mp h
    exact ⟨g, by rw [render_eq hv, hg]; rfl, rfl⟩

theorem isArray_of_render (h : StandsOn root r v t) (hm : root.IsMade)
    (hr : (Item.view v).render = .ok (.array g)) :
    (Item.view v).isArray = .ok g.unboxed.stored.isGrid := by
  obtain ⟨rfl, _⟩ := h
  exact (hm.view v.steps).isArray_eq _ (settle_of_render hr)

variable (name : String) (origin : Origin)

/-- The one item of an array enclosed as a whole: the array as an item, or its only cell if the
array is none. -/
theorem encloseWhole_settled (h : StandsOn root r v t) (hg : v.RendersTo t g)
    (hr : (Item.view v).render = .ok (.array g)) {b : Bool} (hb : (Item.view v).isArray = .ok b) :
    ∃ cells x, (Item.encloseWhole name v origin).generator = .ok cells ∧
      (∀ i, cells.cell i >>= Item.settle = .ok x) ∧ (b = true → x = g.unboxed) ∧
        (b = false → t = [] ∧ ∃ k, g.items[0]? = some (x.countedFor k).stored) := by
  cases b with
  | true =>
      refine ⟨.single (.view v), g.unboxed, ?_, fun i => settle_of_render hr, fun _ => rfl, ?_⟩
      · simp [Item.encloseWhole, hb, bind, Except.bind, pure, Except.pure]
      · intro h
        cases h
  | false =>
      have hnil : t = [] := by
        by_contra hne
        rw [isArray_of_shape h.shape_eq hne] at hb
        cases hb
      subst hnil
      have h0 : Shape.Holds [] 0 := by simp [Shape.Holds]
      obtain ⟨gen, hgen, hcell⟩ := hg.cell_settled h
      obtain ⟨x, k, hx, hxi⟩ := hcell 0 h0
      obtain ⟨y, hy, hyx⟩ := bind_eq_ok.mp hx
      have hv : v.cell (.int 0) = .ok y := bind_eq_ok.mpr ⟨gen, hgen, hy⟩
      refine ⟨.single y, x, ?_, fun i => hyx, ?_, fun _ => ⟨rfl, k, hxi⟩⟩
      · simp [Item.encloseWhole, hb, hv, bind, Except.bind, pure, Except.pure]
      · intro h
        cases h

variable {name origin}

theorem isComputed_encloseWhole : (Item.encloseWhole name v origin).IsComputed := ⟨_, rfl⟩

theorem etype_encloseWhole {b : Bool} (hb : (Item.view v).isArray = .ok b) :
    (Item.encloseWhole name v origin).etype = if b = true then .ok EType.mixed else v.etype := by
  cases b <;> simp [Item.encloseWhole, hb, bind, Except.bind, pure, Except.pure]

/-- An array and what it renders to, each enclosed as a whole, render to alike arrays. -/
theorem RendersTo.encloseWhole_alike (h : StandsOn root r v t) (hm : root.IsMade)
    (hg : v.RendersTo t g) (hr : (Item.view v).render = .ok (.array g)) :
    ∃ a b, (Item.view (Item.encloseWhole name v origin)).render = .ok a ∧
      (Item.view (Item.encloseWhole name (ofGrid g) origin)).render = .ok b ∧ Item.Alike a b := by
  have ht := (h.stands.keeps Item.fillOf).proper
  have hgrid := hg.standsOn ht
  have hb := isArray_of_render h hm hr
  have hc := isArray_ofGrid hg.kept
  generalize g.unboxed.stored.isGrid = b at hb hc
  obtain ⟨cells, x, hgen, hcell, harr, hbox⟩ := encloseWhole_settled name origin h hg hr hb
  obtain ⟨cells', y, hgen', hcell', harr', hbox'⟩ :=
    encloseWhole_settled name origin hgrid hg.rendersTo_self rfl hc
  have hwhole : ∃ e, (Item.encloseWhole name v origin).etype = .ok e := by
    rw [etype_encloseWhole hb]
    split
    · exact ⟨_, rfl⟩
    · exact hg.etype
  have hwhole' : ∃ e, (Item.encloseWhole name (ofGrid g) origin).etype = .ok e := by
    rw [etype_encloseWhole hc]
    split
    · exact ⟨_, rfl⟩
    · exact ⟨g.etype, rfl⟩
  have halike : Item.Alike x.stored y.stored := by
    cases b with
    | true =>
        rw [harr rfl, harr' rfl]
        exact .refl _
    | false =>
        obtain ⟨_, k, hx⟩ := hbox rfl
        obtain ⟨_, k', hy⟩ := hbox' rfl
        obtain ⟨_, _, h1, h2, ha⟩ := stored_alike (a := .ok x) (b := .ok y)
          ⟨x, k, rfl, hx⟩ ⟨y, k', rfl, hy⟩
        cases h1
        cases h2
        exact ha
  rw [isComputed_encloseWhole.render_alike_iff isComputed_encloseWhole (s := []) rfl rfl hgen
    hgen']
  refine ⟨⟨?_, fun h0 => absurd h0 Int.one_ne_zero⟩, ⟨?_, fun h0 => absurd h0 Int.one_ne_zero⟩,
    fun i _ => ⟨x, y, hcell _, hcell' _, halike⟩⟩
  · rw [etype_settled]
    exact hwhole
  · rw [etype_settled]
    exact hwhole'

end View
end LazyApl
