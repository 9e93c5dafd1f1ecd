import LazyApl.Proofs.WholeItems
import LazyApl.Proofs.Yielding
/-!
# Items that are sound to any depth

To render a nested array is to render the arrays in it. An item is sound if every array in it, to
any depth, is ready for that. Lists of simple values and of such lists become items of this kind.
-/
namespace LazyApl

open Outcome

namespace Item

variable {node y : Item} {t : Shape}

/-- An item that is sound to any depth: every array in it, at hand or not, is ready to be
rendered. -/
inductive IsSound : Item → Prop
  | scalar (s : Scalar) : IsSound (scalar s)
  | list (xs : List Item) : IsSound (list xs)
  | array {g : Grid Item} (ready : (View.ofGrid g).IsReady) (items : ∀ y ∈ g.items, IsSound y) :
      IsSound (array g)
  | view {v : View Item} (ready : v.IsReady)
      (cells : ∀ gen i x, v.generator = .ok gen → gen.cell i = .ok x → IsSound x) : IsSound (view v)

theorem IsSound.isReady {v : View Item} (h : (Item.view v).IsSound) : v.IsReady := by
  cases h with
  | view ready _ => exact ready

/-- An item with axes that is sound and can be rendered yields what it renders to. -/
theorem IsSound.exists_yields (hn : node.IsSound) (hs : node.shapeOf = .ok (.ofShape t))
    (ht : t ≠ []) (hy : node.settle = .ok y) :
    ∃ g f, y = .array g ∧ node.lift.Yields t f ∧ g.Collects t f := by
  cases hn with
  | scalar s => exact absurd (Extents.ofShape_inj (Except.ok.inj hs.symm)) ht
  | list xs => exact absurd (Extents.ofShape_inj (Except.ok.inj hs.symm)) ht
  | @array g ready _ =>
      obtain rfl : g.shape = t := Extents.ofShape_inj (Except.ok.inj hs)
      obtain ⟨f, hf, hg⟩ := View.yields_ofGrid ready
      cases hy
      exact ⟨g, f, rfl, hf, hg⟩
  | @view v ready _ =>
      obtain ⟨g, hr, rfl⟩ := View.render_of_settle hy
      obtain ⟨f, hf, hg⟩ := ready.exists_yields hr
      obtain rfl : g.shape = t := Extents.ofShape_inj (Except.ok.inj (hf.shape.symm.trans hs))
      exact ⟨g, f, Grid.unboxed_of_shape ht, hf, hg⟩

theorem isSound_ofGrid {g : Grid Item} (ready : (View.ofGrid g).IsReady)
    (items : ∀ y ∈ g.items, y.IsSound) : (view (View.ofGrid g)).IsSound :=
  .view ready fun _ _ x hgen hx => items x (Root.mem_of_cell hgen hx)

theorem isKept_ofText (s : String) : (Grid.ofText s).IsKept := by
  refine ⟨by simp [Grid.ofText, Shape.size, String.length_toList], fun x hx => ?_⟩
  obtain ⟨c, _, rfl⟩ := List.mem_map.mp hx
  exact isKept_char (by simp)

theorem isReady_ofText (s : String) : (View.ofGrid (Grid.ofText s)).IsReady := by
  refine View.isReady_ofGrid (isKept_ofText s) (by simp [Grid.ofText, Shape.IsProper]) ?_
  intro p hp
  cases hp
  exact isSettled_blank

theorem isSound_of_mem_ofText {s : String} {x : Item} (h : x ∈ (Grid.ofText s).items) :
    x.IsSound := by
  obtain ⟨c, _, rfl⟩ := List.mem_map.mp h
  exact .scalar _

/-- A simple value, or a list of such values and of such lists. -/
inductive IsLiteral : Item → Prop
  | scalar (s : Scalar) : IsLiteral (scalar s)
  | list {xs : List Item} (h : ∀ x ∈ xs, IsLiteral x) : IsLiteral (list xs)

theorem isReady_of {xs : List Item} {t : Shape} (ht : t.IsProper) (hl : xs.length = t.size.toNat)
    (h : ∀ x ∈ xs, x.stored.IsKept ∧ x.stored.IsSound) :
    (View.ofGrid (Grid.of t xs none)).IsReady ∧ ∀ y ∈ (Grid.of t xs none).items, y.IsSound := by
  have hitems : ∀ y ∈ (Grid.of t xs none).items, y.IsKept ∧ y.IsSound := by
    intro y hy
    obtain ⟨x, hx, rfl⟩ := List.mem_map.mp hy
    exact h x hx
  have hkept : (Grid.of t xs none).IsKept := by
    refine ⟨?_, fun y hy => (hitems y hy).1⟩
    simpa [Grid.of] using hl
  have hfill : ∀ p ∈ (Grid.of t xs none).fill, p.IsSettled := by simp [Grid.of]
  exact ⟨View.isReady_ofGrid hkept ht hfill, fun y hy => (hitems y hy).2⟩

theorem isReady_ofVectors {xs : List Item}
    (h : ∀ x ∈ xs, x.vectorOf.stored.IsKept ∧ x.vectorOf.stored.IsSound) :
    (View.ofGrid (Grid.ofList (vectorsOf xs))).IsReady ∧
      ∀ y ∈ (Grid.ofList (vectorsOf xs)).items, y.IsSound := by
  refine isReady_of (by simp [Shape.IsProper]) (by simp [Shape.size]) ?_
  rw [vectorsOf_eq_map]
  intro y hy
  obtain ⟨x, hx, rfl⟩ := List.mem_map.mp hy
  exact h x hx

/-- What is made of a literal as an item of an array is sound. -/
theorem IsLiteral.stored_vectorOf {x : Item} (h : x.IsLiteral) :
    x.vectorOf.stored.IsKept ∧ x.vectorOf.stored.IsSound := by
  induction h with
  | scalar s =>
      cases s with
      | text s =>
          by_cases hs : s.length = 1
          · have hstored : (text s).vectorOf.stored = text s := by
              simp [vectorOf, counted, stored, hs]
            rw [hstored]
            exact ⟨isKept_char hs, .scalar _⟩
          · have hstored : (text s).vectorOf.stored = array (Grid.ofText s) := by
              simp [vectorOf, counted, stored, hs, characters, Grid.ofText]
            rw [hstored]
            exact ⟨rfl, .array (isReady_ofText s) fun y hy => isSound_of_mem_ofText hy⟩
      | _ => exact ⟨rfl, .scalar _⟩
  | list _ ih =>
      obtain ⟨hready, hsound⟩ := isReady_ofVectors ih
      exact ⟨rfl, .array hready hsound⟩

/-- A literal is sound as an array, however deep its lists are nested. -/
theorem IsLiteral.isSound_lift {x : Item} (h : x.IsLiteral) : (view x.lift).IsSound := by
  have hx := h.stored_vectorOf
  cases h with
  | scalar s =>
      have hsingle (y : Item) (hy : y.stored.IsKept ∧ y.stored.IsSound) :
          (view (View.ofGrid (Grid.ofScalar y))).IsSound := by
        obtain ⟨hready, hsound⟩ := isReady_of (t := []) (by simp [Shape.IsProper]) rfl
          (List.forall_mem_singleton.mpr hy)
        exact isSound_ofGrid hready hsound
      cases s with
      | text s =>
          by_cases hs : s.length = 1
          · have hlift : (text s).lift = View.ofGrid (Grid.ofScalar (text s)) := by
              simp [lift, vectorOf, counted, hs, View.ofGrid]
            rw [hlift]
            exact hsingle _ hx
          · have hlift : (text s).lift = View.ofGrid (Grid.ofText s) := by
              simp [lift, vectorOf, counted, hs, View.ofGrid]
            rw [hlift]
            exact isSound_ofGrid (isReady_ofText s) fun y hy => isSound_of_mem_ofText hy
      | _ => exact hsingle _ hx
  | list h =>
      obtain ⟨hready, hsound⟩ := isReady_ofVectors fun x hx => (h x hx).stored_vectorOf
      exact isSound_ofGrid hready hsound

end Item
end LazyApl
