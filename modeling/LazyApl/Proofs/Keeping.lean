import LazyApl.Proofs.Rendering
/-!
# Rendered arrays store their cells

An array at hand holds no simple scalar in a box and no text that is not a single character; nor do
the arrays in it. Rendering keeps this up: what is collected is stored cell by cell, cells that are
arrays have been rendered themselves, and fills are stored when they are made.
-/
namespace LazyApl

open Outcome

namespace Item

/-- An item as rendering hands it out: no view, no text of several characters, and if it is an array
then one that stores its cells. -/
inductive IsSettled : Item → Prop
  | scalar {s : Scalar} (h : (scalar s).IsKept) : IsSettled (scalar s)
  | list (xs : List Item) : IsSettled (list xs)
  | array {g : Grid Item} (h : ∀ y ∈ g.items, y.IsKept) : IsSettled (array g)

theorem stored_array (g : Grid Item) : (array g).stored = g.unboxed := by
  obtain ⟨s, xs, f⟩ := g
  rfl

theorem isKept_unboxed {g : Grid Item} (h : ∀ y ∈ g.items, y.IsKept) : g.unboxed.IsKept := by
  obtain ⟨s, xs, f⟩ := g
  unfold Grid.unboxed
  dsimp only at h ⊢
  split
  · rename_i y
    split
    · rename_i hg
      simp [IsKept, stored, hg]
    · exact h y List.mem_cons_self
  · simp only [IsKept, stored]

theorem IsSettled.isKept_stored {x : Item} (h : x.IsSettled) : x.stored.IsKept := by
  cases h with
  | scalar h =>
      rw [h.stored_eq]
      exact h
  | list xs => rfl
  | array h =>
      rw [stored_array]
      exact isKept_unboxed h

theorem isKept_char {s : String} (h : s.length = 1) : (text s).IsKept := by
  simp [IsKept, stored, h]

theorem IsSettled.settle_eq {x : Item} (h : x.IsSettled) : x.settle = .ok x := by
  refine settle_of_ne_view fun v hv => ?_
  rw [hv] at h
  cases h

theorem isSettled_int (n : Int) : (int n).IsSettled := .scalar rfl

theorem isSettled_blank : blank.IsSettled := .scalar (isKept_char rfl)

theorem isSettled_unboxed {g : Grid Item} (h : ∀ y ∈ g.items, y.IsKept) : g.unboxed.IsSettled := by
  have hk := isKept_unboxed h
  unfold Grid.unboxed at hk ⊢
  split
  · rename_i y _ hy
    split
    · exact .array h
    · rename_i hn
      have hky := h y (by rw [hy]; exact List.mem_cons_self)
      cases y with
      | scalar s => exact .scalar hky
      | list xs => exact .list xs
      | array g => exact absurd rfl hn
      | view v => cases hky
  · exact .array h

theorem IsSettled.countedFor {x : Item} (h : x.IsSettled) (k : Kind) :
    (x.countedFor k).IsSettled := by
  unfold Item.countedFor
  split
  · cases h with
    | @scalar s h =>
        cases s with
        | truth b => exact isSettled_int _
        | _ => exact .scalar h
    | list xs => exact .list xs
    | array h => exact .array h
  · exact h

mutual

/-- A fill is settled whatever it is made from. -/
theorem isSettled_typify : ∀ x : Item, x.typify.IsSettled
  | scalar s => by
      cases s with
      | text t => exact isSettled_blank
      | _ => exact isSettled_int 0
  | list xs => isSettled_int 0
  | view v => isSettled_int 0
  | array ⟨s, xs, f⟩ => by
      simp only [typify]
      exact .array (isKept_typifyAll xs)

theorem isKept_typifyAll : ∀ xs : List Item, ∀ y ∈ typifyAll xs, y.IsKept
  | [] => by simp [typifyAll]
  | x :: xs => by
      simp only [typifyAll]
      exact List.forall_mem_cons.mpr ⟨(isSettled_typify x).isKept_stored, isKept_typifyAll xs⟩

end

/-- An item as its construction leaves it: arrays at hand store their cells, those at the roots of
views as well, and what computed arrays hand out has been constructed likewise. -/
inductive IsMade : Item → Prop
  | scalar {s : Scalar} (kept : (scalar s).IsKept) : IsMade (scalar s)
  | list (xs : List Item) : IsMade (list xs)
  | array {g : Grid Item} (kept : g.IsKept) (cells : ∀ y ∈ g.items, IsMade y)
      (fill : g.prototype.IsSettled) : IsMade (array g)
  | concrete {g : Grid Item} {steps : List Step} (made : IsMade (array g)) :
      IsMade (view ⟨.concrete g, steps⟩)
  | computed {f : Facts Item} {steps : List Step}
      (cells : ∀ gen i x, f.generator .now = .ok gen → gen.cell i = .ok x → IsMade x)
      (fill : ∀ p, f.prototype .now = .ok p → p.IsSettled) : IsMade (view ⟨.computed f, steps⟩)

theorem IsMade.isSettled {x : Item} (h : x.IsMade) (hk : x.IsKept) : x.IsSettled := by
  cases h with
  | scalar h => exact .scalar h
  | list xs => exact .list xs
  | array kept _ _ => exact .array kept.items
  | concrete _ => cases hk
  | computed _ _ => cases hk

end Item

namespace Tower

variable {root : Facts Item} {steps : List Step}

/-- A fill of a tower is the one of its root, or has been made from an item. -/
theorem prototype_induction {P : Item → Prop} (hp : ∀ p, root.prototype .now = .ok p → P p)
    (ht : ∀ x : Item, P x.typify) {p : Item}
    (h : (Level.ofSteps (fun x => .ok x.typify) root steps).stage.prototype.get = .ok p) : P p := by
  induction steps generalizing p with
  | nil => exact hp p h
  | cons s rest ih =>
      cases s with
      | window offset dims =>
          simp only [Level.ofSteps, Level.above, Lazy.get_keep, Level.windowFill] at h
          obtain ⟨e, _, h⟩ := bind_eq_ok.mp h
          obtain ⟨n, _, h⟩ := bind_eq_ok.mp h
          split at h
          · exact ih h
          · obtain ⟨ls, _, h⟩ := bind_eq_ok.mp h
            obtain ⟨cells, _, h⟩ := bind_eq_ok.mp h
            obtain ⟨x, _, h⟩ := bind_eq_ok.mp h
            cases x with
            | none => cases h
            | some x =>
                cases h
                exact ht x
      | _ => exact ih h

theorem isSettled_prototype (hp : ∀ p, root.prototype .now = .ok p → p.IsSettled) {p : Item}
    (h : (Level.ofSteps (fun x => .ok x.typify) root steps).stage.prototype.get = .ok p) :
    p.IsSettled :=
  prototype_induction hp Item.isSettled_typify h

/-- A cell of a tower is a cell of its root, or a fill. -/
theorem isSettled_cell (hp : ∀ p, root.prototype .now = .ok p → p.IsSettled)
    (hc : ∀ gen i x, root.generator .now = .ok gen → gen.cell i = .ok x → x.IsSettled)
    {gen : Gen Item} {i : Number} {x : Item}
    (hg : (facts (fun x => .ok x.typify) root steps).generator .now = .ok gen)
    (hx : gen.cell i = .ok x) : x.IsSettled := by
  cases steps with
  | nil => exact hc gen i x hg hx
  | cons s rest =>
      obtain ⟨ls, _, hg⟩ := bind_eq_ok.mp hg
      obtain ⟨cells, hcells, hg⟩ := bind_eq_ok.mp hg
      cases hg
      obtain ⟨y, hy, hx⟩ := bind_eq_ok.mp hx
      cases y with
      | none => exact isSettled_prototype hp hx
      | some y =>
          cases hx
          obtain ⟨j, _, hy⟩ := bind_eq_ok.mp hy
          cases j with
          | none => cases hy
          | some j =>
              obtain ⟨z, hz, hy⟩ := bind_eq_ok.mp hy
              cases hy
              exact hc cells j _ hcells hz

/-- What is collected is stored cell by cell, in the shape that the extents are. -/
theorem items_of_collect {f : Facts Item} {g : Grid Item} (h : collect f = .ok g) :
    f.shape.get = .ok (.ofShape g.shape) ∧
      ∃ (gen : Gen Item) (xs : List Item) (k : Kind), f.generator .now = .ok gen ∧
        g.items = (xs.map (Item.countedFor k)).map Item.stored ∧
          ∀ x ∈ xs, ∃ i, gen.cell i = .ok x := by
  obtain ⟨e, he, h⟩ := bind_eq_ok.mp h
  obtain ⟨gen, hgen, h⟩ := bind_eq_ok.mp h
  obtain ⟨n, _, h⟩ := bind_eq_ok.mp h
  obtain ⟨xs, hxs, h⟩ := bind_eq_ok.mp h
  obtain ⟨t, _, h⟩ := bind_eq_ok.mp h
  have hg : ∃ s fill, e.shape = .ok s ∧ g = Grid.of s (xs.map (Item.countedFor t.kind)) fill := by
    rw [← map_countedFor]
    by_cases hn : n = 0
    · simp only [if_pos hn] at h
      obtain ⟨fill, _, h⟩ := bind_eq_ok.mp h
      obtain ⟨s, hs, h⟩ := bind_eq_ok.mp h
      exact ⟨s, fill, hs, (Except.ok.inj h).symm⟩
    · simp only [if_neg hn] at h
      obtain ⟨fill, _, h⟩ := bind_eq_ok.mp h
      obtain ⟨s, hs, h⟩ := bind_eq_ok.mp h
      exact ⟨s, fill, hs, (Except.ok.inj h).symm⟩
  obtain ⟨s, fill, hs, rfl⟩ := hg
  refine ⟨?_, gen, xs, t.kind, hgen, rfl, fun x hx => ?_⟩
  · exact he.trans (congrArg Except.ok (Extents.eq_ofShape_of_shape hs))
  · obtain ⟨k, hk, rfl⟩ := List.getElem_of_mem hx
    have hall := List.forall₂_iff_get.mp (mapM_eq_ok.mp hxs)
    exact ⟨_, hall.2 k (by rw [hall.1]; exact hk) hk⟩

theorem isKept_of_collect {f : Facts Item} {g : Grid Item} (h : collect f = .ok g)
    (hc : ∀ gen i x, f.generator .now = .ok gen → gen.cell i = .ok x → x.IsSettled) :
    ∀ y ∈ g.items, y.IsKept := by
  obtain ⟨_, gen, xs, k, hgen, hitems, hxs⟩ := items_of_collect h
  rw [hitems]
  intro y hy
  obtain ⟨z, hz, rfl⟩ := List.mem_map.mp hy
  obtain ⟨x, hx, rfl⟩ := List.mem_map.mp hz
  obtain ⟨i, hi⟩ := hxs x hx
  exact ((hc gen i x hgen hi).countedFor k).isKept_stored

end Tower
namespace Root

/-- A root that hands out settled items once they are rendered, and settled fills. -/
structure IsSettled (root : Root Item) : Prop where
  cells : ∀ gen i x, (Item.settledRoot root).generator .now = .ok gen → gen.cell i = .ok x →
    x.IsSettled
  fill : ∀ p, (Item.settledRoot root).prototype .now = .ok p → p.IsSettled

theorem prototype_settledRoot (root : Root Item) :
    (Item.settledRoot root).prototype .now = root.facts.prototype .now := by
  cases root with
  | concrete g =>
      obtain ⟨_, _, _⟩ := g
      rfl
  | computed f =>
      obtain ⟨_, _, _, _, _⟩ := f
      rfl

theorem isSettled_of_cells {root : Root Item}
    (hc : ∀ gen i x, root.facts.generator .now = .ok gen → gen.cell i = .ok x →
      ∀ y, x.settle = .ok y → y.IsSettled)
    (hp : ∀ p, root.facts.prototype .now = .ok p → p.IsSettled) : root.IsSettled := by
  refine ⟨fun gen i y hgen hy => ?_, fun p h => hp p (prototype_settledRoot root ▸ h)⟩
  have hs := Item.settles_root root
  cases hraw : root.facts.generator .now with
  | error e =>
      rw [hraw] at hs
      rw [hs] at hgen
      cases hgen
  | ok raw =>
      rw [hraw] at hs
      obtain ⟨gen', hgen', hcell⟩ := hs
      rw [hgen'] at hgen
      cases hgen
      rw [hcell] at hy
      obtain ⟨x, hx, hy⟩ := bind_eq_ok.mp hy
      exact hc raw i x hraw hx y hy

theorem mem_of_cell {g : Grid Item} {gen : Gen Item} {i : Number} {x : Item}
    (h : g.generator = .ok gen) (hx : gen.cell i = .ok x) : x ∈ g.items := by
  unfold Grid.generator at h
  split at h
  · rename_i y ys _ hitems
    cases h
    cases hx
    rw [hitems]
    exact List.mem_cons_self
  · cases h
  · cases h
    exact pickBy_mem hx

theorem isSettled_concrete {g : Grid Item} (h : (Item.array g).IsMade) :
    (concrete g).IsSettled := by
  cases h with
  | array kept cells fill =>
      refine isSettled_of_cells (fun gen i x hgen hx y hy => ?_) fun p hp => ?_
      · have hmem := mem_of_cell hgen hx
        have hk := kept.items x hmem
        rw [hk.settle_eq] at hy
        cases hy
        exact (cells x hmem).isSettled hk
      · cases hp
        exact fill

end Root

namespace View

variable {v : View Item} {root : Root Item} {g : Grid Item}

/-- An array that renders has whole extents, and what it renders to has the same ones. -/
theorem shape_of_render (h : (Item.view v).render = .ok (.array g)) :
    v.shape = .ok (.ofShape g.shape) := by
  by_cases hv : ∃ g', v = ofGrid g'
  · obtain ⟨g', rfl⟩ := hv
    cases h
    rfl
  · rw [render_eq hv] at h
    obtain ⟨g', hcollect, hg⟩ := map_eq_ok.mp h
    cases hg
    exact (shape_settled v).symm.trans (Tower.items_of_collect hcollect).1

theorem isKept_of_collect (h : v.root.IsSettled) (hg : Tower.collect v.settled = .ok g) :
    ∀ y ∈ g.items, y.IsKept :=
  Tower.isKept_of_collect hg fun _ _ _ hgen hx => Tower.isSettled_cell h.fill h.cells hgen hx

theorem isSettled_of_settle (h : v.root.IsSettled) (hv : ¬ ∃ g, v = ofGrid g) {y : Item}
    (hy : (Item.view v).settle = .ok y) : y.IsSettled := by
  rw [settle_eq hv] at hy
  obtain ⟨g, hg, rfl⟩ := map_eq_ok.mp hy
  exact Item.isSettled_unboxed (isKept_of_collect h hg)

end View

/-- Rendering an item that has been made so settles it. -/
theorem Item.IsMade.settle {x : Item} (h : x.IsMade) : ∀ y, x.settle = .ok y → y.IsSettled := by
  induction h with
  | scalar h =>
      intro y hy
      simp only [Item.settle] at hy
      cases hy
      exact .scalar h
  | list xs =>
      intro y hy
      simp only [Item.settle] at hy
      cases hy
      exact .list xs
  | array kept cells fill =>
      intro y hy
      simp only [Item.settle] at hy
      cases hy
      exact .array kept.items
  | @concrete g steps made ih =>
      intro y hy
      by_cases hv : ∃ g', (⟨.concrete g, steps⟩ : View Item) = View.ofGrid g'
      · obtain ⟨g', hg⟩ := hv
        cases hg
        cases made with
        | array kept _ _ =>
            have hg := View.settle_ofGrid g
            rw [View.ofGrid, hy] at hg
            cases hg
            exact isSettled_unboxed kept.items
      · exact View.isSettled_of_settle (Root.isSettled_concrete made) hv hy
  | @computed f steps cells fill ih =>
      intro y hy
      have hroot : (Root.computed f).IsSettled := Root.isSettled_of_cells ih fill
      refine View.isSettled_of_settle hroot ?_ hy
      rintro ⟨g, hg⟩
      cases hg

namespace Root

def IsMade (root : Root Item) : Prop := (Item.view ⟨root, []⟩).IsMade

/-- A vector of simple values has been made so. -/
theorem isMade_ofList {l : List Scalar} (hl : ∀ s ∈ l, (Item.scalar s).IsKept) (hne : l ≠ []) :
    (concrete (Grid.ofList (l.map .scalar))).IsMade := by
  have hstored : (Grid.ofList (l.map .scalar)).items = l.map .scalar := by
    unfold Grid.ofList Grid.of
    rw [List.map_map]
    exact List.map_congr_left fun s hs => (hl s hs).stored_eq
  have hitem : ∀ y ∈ (Grid.ofList (l.map .scalar)).items, ∃ s ∈ l, y = .scalar s := by
    intro y hy
    rw [hstored] at hy
    obtain ⟨s, hs, rfl⟩ := List.mem_map.mp hy
    exact ⟨s, hs, rfl⟩
  refine .concrete (.array ⟨?_, fun y hy => ?_⟩ (fun y hy => ?_) ?_)
  · simp [Grid.ofList, Grid.of]
  · obtain ⟨s, hs, rfl⟩ := hitem y hy
    exact hl s hs
  · obtain ⟨s, hs, rfl⟩ := hitem y hy
    exact .scalar (hl s hs)
  · unfold Grid.prototype
    rw [hstored]
    cases l with
    | nil => exact absurd rfl hne
    | cons s l => exact Item.isSettled_typify _

theorem IsMade.view {root : Root Item} (h : root.IsMade) (steps : List Step) :
    (Item.view ⟨root, steps⟩).IsMade := by
  cases h with
  | concrete made => exact .concrete made
  | computed cells fill => exact .computed cells fill

theorem IsMade.isSettled {root : Root Item} (h : root.IsMade) : root.IsSettled := by
  cases h with
  | concrete made => exact isSettled_concrete made
  | computed cells fill =>
      exact isSettled_of_cells (fun gen i x hgen hx => (cells gen i x hgen hx).settle) fill

theorem IsMade.isKept {g : Grid Item} (h : (concrete g).IsMade) : g.IsKept := by
  cases h with
  | concrete made =>
      cases made with
      | array kept _ _ => exact kept

end Root

namespace View

/-- An array over a root that has been made so renders to an array that stores its cells. -/
theorem StandsOn.isKept_of_render {root : Root Item} {r t : Shape} {v : View Item} {g : Grid Item}
    (h : StandsOn root r v t) (hm : root.IsMade) (hg : (Item.view v).render = .ok (.array g)) :
    g.IsKept := by
  have hshape := h.shape_eq
  obtain ⟨rfl, _⟩ := h
  by_cases hv : ∃ g', v = ofGrid g'
  · obtain ⟨g', rfl⟩ := hv
    cases hg
    exact hm.isKept
  · rw [render_eq hv] at hg
    obtain ⟨g', hg, hg'⟩ := map_eq_ok.mp hg
    cases hg'
    refine ⟨?_, isKept_of_collect hm.isSettled hg⟩
    obtain ⟨cells, xs, e, fill, _, hx, _, _, rfl⟩ :=
      (Tower.collect_eq_ok ((shape_settled v).trans hshape)).mp hg
    obtain ⟨hlen, _⟩ := mapM_upTo hx
    simpa [Grid.of] using hlen

end View
end LazyApl
