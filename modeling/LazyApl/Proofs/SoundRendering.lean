import LazyApl.Proofs.Reading
import LazyApl.Proofs.Replacing
/-!
# Rendering keeps items sound

What a sound array renders to is sound again: its cells are stored as an array at hand keeps them,
and the fill has been rendered when it was made. So is what a pick hands out of a sound array, and a
sound array in which a pick has replaced an item by a sound one.
-/
namespace LazyApl

open Outcome

namespace View

variable {v : View Item} {t : Shape}

/-- A cell is one of the root or the fill, as the chain leads. -/
theorem cell_eq {gen : Gen Item} (hg : v.generator = .ok gen) :
    ∃ ls cells, v.links = .ok ls ∧ v.root.facts.generator .now = .ok cells ∧
      ∀ i, gen.cell i = (do
        match ← Link.compose ls i with
        | some j => cells.cell j
        | none => v.prototype) := by
  obtain ⟨root, steps⟩ := v
  cases steps with
  | nil => exact ⟨[], gen, rfl, hg, fun i => rfl⟩
  | cons s rest =>
      obtain ⟨ls, hls, hg⟩ := bind_eq_ok.mp hg
      obtain ⟨cells, hcells, hg⟩ := bind_eq_ok.mp hg
      cases hg
      refine ⟨ls, cells, hls, hcells, fun i => ?_⟩
      rw [Gen.cell_indexed, Level.source]
      cases Link.compose ls i with
      | error e => rfl
      | ok r =>
          cases r with
          | none => rfl
          | some j =>
              simp only [bind, Except.bind]
              cases cells.cell j <;> rfl

/-- A scalar that is an array shows one in its cell. -/
theorem isArray_of_isArray_scalar (hs : v.shape = .ok []) (h : (Item.view v).isArray = .ok true)
    {gen : Gen Item} (hg : v.generator = .ok gen) {x : Item} (hx : gen.cell 0 = .ok x) :
    x.isArray = .ok true := by
  obtain ⟨ls, cells, hls, hcells, hcell⟩ := cell_eq hg
  rw [isArray_scalar hs, hls, hcells] at h
  change (Link.compose ls 0 >>= _) = _ at h
  rw [hcell] at hx
  obtain ⟨r, hr, hx⟩ := bind_eq_ok.mp hx
  rw [hr] at h
  cases r with
  | some j =>
      change cells.cell j = .ok x at hx
      change cells.cell j >>= Item.isArray = .ok true at h
      rw [hx] at h
      exact h
  | none =>
      change v.prototype = .ok x at hx
      change (v.prototype >>= _) = _ at h
      rw [hx] at h
      cases x with
      | array g =>
          rw [Item.isArray]
          exact h
      | _ => cases h

end View

namespace Item

variable {x y : Item} {g : Grid Item} {b : View Item} {origin : Origin}

theorem unboxed_of_isBox (h : isBox g = false) : g.unboxed = array g := by
  unfold isBox at h
  unfold Grid.unboxed
  split
  · rename_i x hs hx
    rw [hs, hx] at h
    have hx : x.isGrid = true := by simpa using h
    rw [if_pos hx]
  · rfl

/-- What is an array before it is rendered is rendered to an array in no box. -/
theorem IsSound.exists_array (h : x.IsSound) (ha : x.isArray = .ok true) (hy : x.settle = .ok y) :
    ∃ g, y = .array g ∧ (Item.array g).IsKept ∧ (Item.view x.lift).render = .ok (.array g) := by
  induction h generalizing y with
  | scalar s => simp [isArray] at ha
  | list xs => simp [isArray] at ha
  | @array g ready _ _ =>
      simp only [settle, Except.ok.injEq] at hy
      subst hy
      simp only [isArray, Except.ok.injEq, Bool.not_eq_true'] at ha
      refine ⟨g, rfl, ?_, rfl⟩
      change stored _ = _
      rw [stored_array]
      exact unboxed_of_isBox ha
  | @view v ready cells ih =>
      obtain ⟨g, hr, rfl⟩ := View.render_of_settle hy
      obtain ⟨f, hf, hg⟩ := ready.exists_yields hr
      by_cases hs : g.shape = []
      · obtain ⟨gen, hgen, hcell⟩ := hf.cells
        have hzero : g.shape.Holds 0 := by
          rw [hs]
          simp [Shape.Holds]
        obtain ⟨x, hx, hsettle⟩ := bind_eq_ok.mp (hcell 0 hzero)
        have hscalar : v.shape = .ok [] := by
          rw [hf.shape, hs]
          rfl
        have hinner := View.isArray_of_isArray_scalar hscalar ha hgen hx
        obtain ⟨g', hg', hkept, _⟩ := ih gen _ x hgen hx hinner hsettle
        have hbox : g.unboxed = .array g := by
          obtain ⟨k, hk⟩ := hg.cells 0 hzero
          rw [hg', countedFor_eq_self (by simp), hkept.stored_eq] at hk
          refine unboxed_of_isBox ?_
          unfold isBox
          split
          · rename_i x hs hx
            rw [hx] at hk
            cases hk
            rfl
          · rfl
        rw [hbox]
        refine ⟨g, rfl, ?_, hr⟩
        change stored _ = _
        rw [stored_array, hbox]
      · rw [Grid.unboxed_of_shape hs]
        exact ⟨g, rfl, Grid.stored_of_shape hs, hr⟩

theorem IsSound.lift (h : x.IsSound) (ha : x.isArray = .ok true) : (Item.view x.lift).IsSound := by
  cases h with
  | scalar s => simp [isArray] at ha
  | list xs => simp [isArray] at ha
  | array ready items => exact isSound_ofGrid ready items
  | view ready cells => exact .view ready cells

theorem IsSound.stored_countedFor (h : x.IsSound) (hk : x.IsKept) (k : Kind) :
    (x.countedFor k).stored.IsKept ∧ (x.countedFor k).stored.IsSound := by
  by_cases ht : ∃ b, x = .scalar (.truth b)
  · obtain ⟨b, rfl⟩ := ht
    unfold countedFor
    split
    · exact ⟨rfl, .scalar _⟩
    · exact ⟨rfl, .scalar _⟩
  · rw [countedFor_eq_self fun b hb => ht ⟨b, hb⟩, hk.stored_eq]
    exact ⟨hk, h⟩

theorem IsSound.unboxed (h : (Item.array g).IsSound) : g.unboxed.IsKept ∧ g.unboxed.IsSound := by
  cases h with
  | array ready items =>
      cases hbox : isBox g with
      | false =>
          have hone := unboxed_of_isBox hbox
          rw [hone]
          exact ⟨(stored_array g).trans hone, .array ready items⟩
      | true =>
          unfold isBox at hbox
          split at hbox
          · rename_i x hs hx
            have hmem : x ∈ g.items := by simp [hx]
            have hone : g.unboxed = x := by
              have hg : x.isGrid = false := by simpa using hbox
              simp [Grid.unboxed, hs, hx, hg]
            rw [hone]
            exact ⟨(ready.kept g rfl).items x hmem, items x hmem⟩
          · cases hbox

/-- A sound array renders to one that is ready as soon as its items are kept. -/
theorem isReady_render {v : View Item} (hv : v.IsReady)
    (hr : (Item.view v).render = .ok (.array g)) (hk : ∀ y ∈ g.items, y.IsKept) :
    (View.ofGrid g).IsReady := by
  by_cases hgrid : ∃ g', v = View.ofGrid g'
  · obtain ⟨g', rfl⟩ := hgrid
    cases hr
    exact hv
  · obtain ⟨f, hf, hg⟩ := hv.exists_yields hr
    refine ⟨fun e he => ⟨g.shape, (Except.ok.inj he).symm, hf.isProper⟩, fun p hp => ?_,
      fun g' hg' => ?_⟩
    · have hfill : ∀ q ∈ g.fill, q.settle = .ok q := by
        intro q hq
        rw [View.render_eq hgrid, Item.collect_settled hv hf.shape] at hr
        obtain ⟨g', hcollect, hsame⟩ := map_eq_ok.mp hr
        cases hsame
        obtain ⟨xs, _, hcollect⟩ := bind_eq_ok.mp hcollect
        obtain ⟨e, _, hcollect⟩ := bind_eq_ok.mp hcollect
        obtain ⟨fill, hfill, hcollect⟩ := bind_eq_ok.mp hcollect
        obtain rfl : fill = g.fill := by
          rw [← Except.ok.inj hcollect]
          rfl
        rw [Option.mem_def.mp hq] at hfill
        split at hfill
        · obtain ⟨r, hr, hsame⟩ := map_eq_ok.mp hfill
          cases hsame
          exact hv.fill q hr
        · cases hfill
      obtain rfl : g.prototype = p := Except.ok.inj hp
      unfold Grid.prototype
      split
      · cases hq : g.fill with
        | none => rfl
        | some q => exact hfill q hq
      · exact (isSettled_typify _).settle_eq
    · cases hg'
      exact ⟨hg.length_eq, hk⟩

theorem stored_scalar (s : Scalar) : (scalar s).stored.IsKept ∧ (scalar s).stored.IsSound := by
  cases s with
  | text u => exact (IsLiteral.scalar (.text u)).stored_vectorOf
  | _ => exact ⟨rfl, .scalar _⟩

theorem isSound_render_of_cells {v : View Item} (hv : v.IsReady)
    (hr : (Item.view v).render = .ok (.array g))
    (h : ∀ gen i x y, v.generator = .ok gen → gen.cell i = .ok x → x.settle = .ok y →
      ∀ k, (y.countedFor k).stored.IsKept ∧ (y.countedFor k).stored.IsSound) :
    (Item.array g).IsSound := by
  obtain ⟨f, hf, hg⟩ := hv.exists_yields hr
  obtain ⟨k, hk⟩ := hg.exists_items
  obtain ⟨gen, hgen, hcell⟩ := hf.cells
  have hitems : ∀ y ∈ g.items, y.IsKept ∧ y.IsSound := by
    intro y hy
    rw [hk] at hy
    obtain ⟨i, hi, rfl⟩ := List.mem_map.mp hy
    obtain ⟨x, hx, hsettle⟩ := bind_eq_ok.mp (hcell i (mem_upTo.mp hi))
    exact h gen _ x _ hgen hx hsettle (k i)
  exact .array (isReady_render hv hr fun y hy => (hitems y hy).1) fun y hy => (hitems y hy).2

/-- What is rendered is sound as it is stored. -/
theorem IsSound.of_settle (h : x.IsSound) (hy : x.settle = .ok y) (k : Kind) :
    (y.countedFor k).stored.IsKept ∧ (y.countedFor k).stored.IsSound := by
  induction h generalizing y k with
  | scalar s =>
      simp only [settle, Except.ok.injEq] at hy
      subst hy
      unfold countedFor
      split
      · cases s <;> exact stored_scalar _
      · exact stored_scalar s
  | list xs =>
      simp only [settle, Except.ok.injEq] at hy
      subst hy
      rw [countedFor_eq_self (by simp)]
      exact ⟨rfl, .list xs⟩
  | @array g ready items _ =>
      simp only [settle, Except.ok.injEq] at hy
      subst hy
      rw [countedFor_eq_self (by simp), stored_array]
      exact IsSound.unboxed (.array ready items)
  | @view v ready cells ih =>
      obtain ⟨g, hr, rfl⟩ := View.render_of_settle hy
      have hg := (isSound_render_of_cells ready hr fun gen i x y hgen hx hy k =>
        ih gen i x hgen hx hy k).unboxed
      exact hg.2.stored_countedFor hg.1 k

theorem IsSound.render {v : View Item} (h : (Item.view v).IsSound)
    (hr : (Item.view v).render = .ok (.array g)) : (Item.array g).IsSound := by
  cases h with
  | view ready cells =>
      exact isSound_render_of_cells ready hr fun gen i x y hgen hx hy k =>
        (cells gen i x hgen hx).of_settle hy k

/-- The answers of a sound item as an array. -/
theorem IsSound.answers (h : x.IsSound) :
    (∀ e, x.shapeOf = .ok e → ∃ s : Shape, e = .ofShape s ∧ s.IsProper) ∧
    (∀ p, x.prototypeOf = .ok p → p.settle = .ok p) ∧
    ∀ gen i y, x.generatorOf = .ok gen → gen.cell i = .ok y → y.IsSound := by
  have hsimple (x : Item) (hx : x.IsSound) (hs : x.shapeOf = .ok (.ofShape []))
      (hp : x.prototypeOf = .ok x.typify) (hg : x.generatorOf = .ok (.single x)) :
      (∀ e, x.shapeOf = .ok e → ∃ s : Shape, e = .ofShape s ∧ s.IsProper) ∧
      (∀ p, x.prototypeOf = .ok p → p.settle = .ok p) ∧
      ∀ gen i y, x.generatorOf = .ok gen → gen.cell i = .ok y → y.IsSound := by
    refine ⟨fun e he => ?_, fun p hp' => ?_, fun gen i y hgen hy => ?_⟩
    · exact ⟨[], Except.ok.inj (he.symm.trans hs), Shape.isProper_nil⟩
    · cases hp.symm.trans hp'
      exact (isSettled_typify x).settle_eq
    · cases hg.symm.trans hgen
      cases hy
      exact hx
  cases h with
  | scalar s => exact hsimple _ (.scalar s) rfl rfl rfl
  | list xs => exact hsimple _ (.list xs) rfl rfl rfl
  | @array g ready items =>
      exact ⟨ready.shape, ready.fill, fun gen i y hgen hy => items y (Root.mem_of_cell hgen hy)⟩
  | view ready cells => exact ⟨ready.shape, ready.fill, cells⟩

/-- A pick is sound if the item at the end of its path is. -/
theorem IsSound.pickAlong {p : Path} (h : Path.target origin 0 p (.view b) = .ok x)
    (hx : x.IsSound) : (Item.view (pickAlong b p origin)).IsSound := by
  have hshape : (Item.pickAlong b p origin).shape = x.shapeOf := by
    simp only [Item.pickAlong, View.shape_computed, Lazy.get_delay, Lazy.get_keep, h]
    rfl
  have hfill : (Item.pickAlong b p origin).prototype = x.prototypeOf := by
    simp only [Item.pickAlong, View.prototype_computed, Lazy.get_keep, h]
    rfl
  have hgen : (Item.pickAlong b p origin).generator = x.generatorOf := by
    simp only [Item.pickAlong, View.generator_computed, Lazy.get_keep, h]
    rfl
  obtain ⟨shape, fill, cells⟩ := hx.answers
  refine .view ⟨fun e he => shape e (hshape ▸ he), fun p hp => fill p (hfill ▸ hp),
    fun g hg => ?_⟩ fun gen i y hg hy => cells gen i y (hgen ▸ hg) hy
  cases hg

/-- An array in which an item has been replaced is sound if it was and the new item is. -/
theorem IsSound.replaceAlong {new : Item} {step : List Int} (hb : (Item.view b).IsSound)
    (hnew : (Replacement.placed new).IsSound) :
    (Item.view (replaceAlong ⟨some new, none⟩ origin [step] b)).IsSound := by
  cases hb with
  | view ready cells =>
      refine .view (isReady_replaceAlong ready) fun gen i x hgen hx => ?_
      obtain ⟨_, _, hgen⟩ := bind_eq_ok.mp hgen
      obtain ⟨raw, hraw, hgen⟩ := bind_eq_ok.mp hgen
      obtain ⟨place, _, hgen⟩ := bind_eq_ok.mp hgen
      cases hgen
      obtain ⟨old, hold, hx⟩ := bind_eq_ok.mp hx
      split at hx
      · cases hx
        exact cells raw i x hraw hold
      · cases hx
        exact hnew

end Item
end LazyApl
