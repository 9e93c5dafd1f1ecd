import LazyApl.Primitive.Reach
import LazyApl.Proofs.SoundItems
import LazyApl.Proofs.WholeItems
/-!
# Paths into nested arrays

Each step of a path names an item in the array that the steps before it lead to. An array in which
the item at the end of a path has been replaced has the shape of the old one, and differs from it
only in the item that the first step names; that item is rebuilt in the same way. So the same path
leads to the new item, and a path that parts from it at some step leads to the old item still.
-/
namespace LazyApl

open Outcome

namespace Path

variable {o : Int} {origin : Origin} {node old x y : Item} {t : Shape} {step : List Int}
  {p q rest : Path} {level : Nat}

/-- The coordinates of a step, counted from zero. -/
def stripped (o : Int) (step : List Int) : List Int := step.map (· - o)

theorem stripped_inj {step' : List Int} (h : stripped o step = stripped o step') :
    step = step' :=
  List.map_injective_iff.mpr (fun _ _ hab => by simpa using hab) h

/-- A step names an item in an array. -/
structure Finds (o : Int) (step : List Int) (node : Item) (t : Shape) (old : Item) : Prop where
  shape : node.shapeOf = .ok (.ofShape t)
  within : t.Within (stripped o step)
  cell : node.elementAt (.int (Shape.dot (stripped o step) t.strides)) = .ok old

theorem Finds.unique {t' : Shape} {old' : Item} (h : Finds o step node t old)
    (h' : Finds o step node t' old') : old = old' := by
  obtain rfl := Extents.ofShape_inj (Except.ok.inj (h.shape.symm.trans h'.shape))
  exact Except.ok.inj (h.cell.symm.trans h'.cell)

theorem Finds.shape_ne_nil (h : Finds o step node t old) (hne : step ≠ []) : t ≠ [] := by
  rintro rfl
  have hl := h.within.length_eq
  simp only [stripped, List.length_map, List.length_nil, List.length_eq_zero_iff] at hl
  exact hne hl

/-- A path leads from an item to one in it. No step is empty. -/
inductive Leads (o : Int) : Path → Item → Item → Prop
  | nil (x : Item) : Leads o [] x x
  | cons {step : List Int} {rest : Path} {t : Shape} {node old x : Item} (hne : step ≠ [])
      (h : Finds o step node t old) (hs : Leads o rest old x) : Leads o (step :: rest) node x

theorem isArray_of_shapeOf (h : node.shapeOf = .ok (.ofShape t)) (ht : t ≠ []) :
    node.isArray = .ok true := by
  cases node with
  | view v => exact View.isArray_of_shape h ht
  | array g =>
      obtain rfl := Extents.ofShape_inj (Except.ok.inj h)
      have hbox : Item.isBox g = false := by
        unfold Item.isBox
        split
        · rename_i hnil _
          exact absurd hnil ht
        · rfl
      simp [Item.isArray, hbox]
  | scalar s => exact absurd (Extents.ofShape_inj (Except.ok.inj h.symm)) ht
  | list xs => exact absurd (Extents.ofShape_inj (Except.ok.inj h.symm)) ht

theorem areWithin_iff {c : List Int} (hl : c.length = t.length) :
    areWithin (c.map .int) (.ofShape t) = .ok true ↔ t.Within c := by
  induction t generalizing c with
  | nil =>
      obtain rfl := List.length_eq_zero_iff.mp hl
      simp [areWithin, Extents.ofShape]
  | cons n t ih =>
      cases c with
      | nil => simp at hl
      | cons a c =>
          have ih := ih (c := c) (by simpa using hl)
          have hcons : Extents.ofShape (n :: t) = .int n :: Extents.ofShape t := rfl
          rw [hcons, List.map_cons, areWithin, Shape.within_cons, ← ih]
          by_cases h0 : 0 ≤ a
          · by_cases hn : a < n <;>
              simp [Selection.isWithin, h0, hn, bind, Except.bind, pure, Except.pure]
          · simp [Selection.isWithin, h0, bind, Except.bind, pure, Except.pure]

theorem strip_step (ho : origin.number = .ok (.int o)) (step : List Int) :
    step.mapM origin.strip = .ok ((stripped o step).map .int) := by
  rw [stripped, List.map_map]
  exact mapM_ok fun v _ => by simp [Scalar.strip, ho, bind, Except.bind]

/-- A step that is accepted is within the shape, and names a position. -/
theorem offset_spec (ho : origin.number = .ok (.int o)) (hs : node.shapeOf = .ok (.ofShape t))
    {i : Number} (h : offset node step level origin = .ok i) :
    t.Within (stripped o step) ∧ i = .int (Shape.dot (stripped o step) t.strides) := by
  have hlength : (stripped o step).length = step.length := List.length_map _
  simp only [offset, hs, bind, Except.bind] at h
  cases harray : node.isArray with
  | error e => simp [harray] at h
  | ok b =>
      cases b with
      | false => simp [harray] at h
      | true =>
          simp only [harray, Bool.not_true, Bool.false_eq_true, if_false, Extents.length_ofShape,
            strip_step ho] at h
          split at h
          · cases h
          · rename_i hlen
            have hl : (stripped o step).length = t.length := by omega
            split at h
            · cases h
            · rename_i b hb
              split at h
              · rename_i htrue
                subst htrue
                rw [Extents.position_ofShape, Shape.position_eq_dot hl] at h
                exact ⟨(areWithin_iff hl).mp hb, (Except.ok.inj h).symm⟩
              · cases h

theorem Finds.offset_eq (h : Finds o step node t old) (ho : origin.number = .ok (.int o))
    (ht : t ≠ []) (level : Nat) :
    offset node step level origin = .ok (.int (Shape.dot (stripped o step) t.strides)) := by
  have hlength : (stripped o step).length = step.length := List.length_map _
  have hl : step.length = t.length := hlength ▸ h.within.length_eq
  simp only [offset, h.shape, isArray_of_shapeOf h.shape ht, strip_step ho,
    (areWithin_iff h.within.length_eq).mpr h.within, bind, Except.bind, Extents.length_ofShape, hl,
    Extents.position_ofShape, Shape.position_eq_dot h.within.length_eq]
  simp

theorem exists_finds (ho : origin.number = .ok (.int o)) (hs : node.shapeOf = .ok (.ofShape t))
    (h : target origin level (step :: rest) node = .ok x) :
    ∃ old, Finds o step node t old ∧ target origin (level + 1) rest old = .ok x := by
  obtain ⟨i, hi, hcell⟩ := bind_eq_ok.mp h
  obtain ⟨old, hold, hrest⟩ := bind_eq_ok.mp hcell
  obtain ⟨hw, rfl⟩ := offset_spec ho hs hi
  exact ⟨old, ⟨hs, hw, hold⟩, hrest⟩

theorem Finds.target_eq (h : Finds o step node t old) (ho : origin.number = .ok (.int o))
    (ht : t ≠ []) (hrest : target origin (level + 1) rest old = .ok x) :
    target origin level (step :: rest) node = .ok x :=
  bind_eq_ok.mpr ⟨_, h.offset_eq ho ht level, bind_eq_ok.mpr ⟨old, h.cell, hrest⟩⟩

theorem Leads.target_eq (h : Leads o p node x) (ho : origin.number = .ok (.int o)) (level : Nat) :
    target origin level p node = .ok x := by
  induction h generalizing level with
  | nil x => rfl
  | cons hne hfinds _ ih => exact hfinds.target_eq ho (hfinds.shape_ne_nil hne) (ih (level + 1))

theorem Finds.lift (h : Finds o step node t old) (ht : t ≠ []) :
    Finds o step (.view node.lift) t old := by
  obtain ⟨hshape, hwithin, hcell⟩ := h
  cases node with
  | view v => exact ⟨hshape, hwithin, hcell⟩
  | array g =>
      obtain rfl : g.shape = t := Extents.ofShape_inj (Except.ok.inj hshape)
      have hgen : g.generator = .ok (.indexed (pickBy g.items)) := by
        unfold Grid.generator
        split
        · rename_i hnil _
          exact absurd hnil ht
        · rename_i hnil _
          exact absurd hnil ht
        · rfl
      refine ⟨rfl, hwithin, ?_⟩
      change g.generator >>= (fun cells => cells.cell _) = .ok old
      rw [hgen]
      exact hcell
  | scalar s => exact absurd (Extents.ofShape_inj (Except.ok.inj hshape.symm)) ht
  | list xs => exact absurd (Extents.ofShape_inj (Except.ok.inj hshape.symm)) ht

theorem Leads.lift (h : Leads o p node x) (hp : p ≠ []) : Leads o p (.view node.lift) x := by
  cases h with
  | nil x => exact absurd rfl hp
  | cons hne hfinds hs => exact .cons hne (hfinds.lift (hfinds.shape_ne_nil hne)) hs

theorem Leads.target_lift (h : Leads o p node x) (ho : origin.number = .ok (.int o)) (hp : p ≠ [])
    (hq : q ≠ []) (ht : target origin level q node = .ok y) :
    target origin level q (.view node.lift) = .ok y := by
  cases h with
  | nil x => exact absurd rfl hp
  | @cons _ _ t _ _ _ hne hfinds _ =>
      have hshape := hfinds.shape_ne_nil hne
      cases q with
      | nil => exact absurd rfl hq
      | cons step rest =>
          obtain ⟨old, hfound, hrest⟩ := exists_finds ho hfinds.shape ht
          exact (hfound.lift hshape).target_eq ho hshape hrest

/-- What a step finds in an item that is sound is sound. -/
theorem Finds.isSound (h : Finds o step node t old) (hn : node.IsSound) : old.IsSound := by
  cases hn with
  | scalar s =>
      cases h.cell
      exact .scalar s
  | list xs =>
      cases h.cell
      exact .list xs
  | array _ items => exact items old (pickBy_mem h.cell)
  | view _ cells =>
      obtain ⟨gen, hgen, hold⟩ := bind_eq_ok.mp h.cell
      exact cells gen _ old hgen hold

/-- What a step finds in an item that is sound can be rendered if the item can. -/
theorem Finds.exists_settle (h : Finds o step node t old) (hn : node.IsSound) {n : Item}
    (hs : node.settle = .ok n) : ∃ y, old.settle = .ok y := by
  cases hn with
  | scalar s =>
      cases h.cell
      exact ⟨_, hs⟩
  | list xs =>
      cases h.cell
      exact ⟨_, hs⟩
  | @array g ready _ => exact ⟨old, ((ready.kept g rfl).items old (pickBy_mem h.cell)).settle_eq⟩
  | @view v ready _ =>
      obtain ⟨g, hr, _⟩ := View.render_of_settle hs
      obtain ⟨f, hf, _⟩ := ready.exists_yields hr
      obtain rfl := Extents.ofShape_inj (Except.ok.inj (hf.shape.symm.trans h.shape))
      obtain ⟨gen, hgen, hcell⟩ := hf.cells
      obtain ⟨gen', hgen', hold⟩ := bind_eq_ok.mp h.cell
      obtain rfl := Except.ok.inj (hgen.symm.trans hgen')
      have hsettle := hcell _ h.within.holds
      rw [hold] at hsettle
      exact ⟨_, hsettle⟩

theorem exists_shapeOf (hn : node.IsSound)
    (h : target origin level (step :: rest) node = .ok x) :
    ∃ t, node.shapeOf = .ok (.ofShape t) := by
  cases hn with
  | scalar s => exact ⟨[], rfl⟩
  | list xs => exact ⟨[], rfl⟩
  | @array g _ _ => exact ⟨g.shape, rfl⟩
  | @view v ready _ =>
      obtain ⟨i, hi, _⟩ := bind_eq_ok.mp h
      obtain ⟨e, he, _⟩ := bind_eq_ok.mp hi
      obtain ⟨t, rfl, _⟩ := ready.shape e he
      exact ⟨t, he⟩

theorem leads_of_target (ho : origin.number = .ok (.int o)) (hp : ∀ step ∈ p, step ≠ [])
    (hn : node.IsSound) (h : target origin level p node = .ok x) : Leads o p node x := by
  induction p generalizing level node with
  | nil =>
      obtain rfl := Except.ok.inj h
      exact .nil _
  | cons step rest ih =>
      obtain ⟨hne, hrest⟩ := List.forall_mem_cons.mp hp
      obtain ⟨t, hshape⟩ := exists_shapeOf hn h
      obtain ⟨old, hfinds, hon⟩ := exists_finds ho hshape h
      exact .cons hne hfinds (ih hrest (hfinds.isSound hn) hon)

/-- The target of a path in an item that is sound is sound. -/
theorem isSound_of_target (ho : origin.number = .ok (.int o)) (hn : node.IsSound)
    (h : target origin level p node = .ok x) : x.IsSound := by
  induction p generalizing level node with
  | nil =>
      obtain rfl := Except.ok.inj h
      exact hn
  | cons step rest ih =>
      obtain ⟨t, hshape⟩ := exists_shapeOf hn h
      obtain ⟨old, hfinds, hon⟩ := exists_finds ho hshape h
      exact ih (hfinds.isSound hn) hon

theorem exists_settle_of_target (ho : origin.number = .ok (.int o)) (hn : node.IsSound)
    (h : target origin level p node = .ok x) {n : Item} (hs : node.settle = .ok n) :
    ∃ y, x.settle = .ok y := by
  induction p generalizing level node n with
  | nil =>
      obtain rfl := Except.ok.inj h
      exact ⟨n, hs⟩
  | cons step rest ih =>
      obtain ⟨t, hshape⟩ := exists_shapeOf hn h
      obtain ⟨old, hfinds, hon⟩ := exists_finds ho hshape h
      obtain ⟨y, hy⟩ := hfinds.exists_settle hn hs
      exact ih (hfinds.isSound hn) hon hy

end Path

namespace Item

/-- The item that takes the place of an old one on the way along a path, of which the rest is
given. -/
def renewed (change : Replacement) (origin : Origin) (rest : Path) (old : Item) :
    Except Fault Item :=
  if rest.isEmpty then change.apply old else .ok (view (replaceAlong change origin rest old.lift))

open LazyApl.Path

variable {o : Int} {origin : Origin} {change : Replacement} {b : View Item} {old x : Item}
  {t : Shape} {step : List Int} {rest : Path}

/-- The cells of an array with an item replaced are those of the array, except for the one on the
way to that item. -/
theorem generator_replaceAlong (change : Replacement) (ho : origin.number = .ok (.int o))
    (h : Leads o (step :: rest) (.view b) x) (hfinds : Finds o step (.view b) t old) :
    ∃ gen cells, b.generator = .ok gen ∧
      (replaceAlong change origin (step :: rest) b).generator = .ok cells ∧
      ∀ i : Int, cells.cell (.int i) = (do
        let old ← gen.cell (.int i)
        if i = Shape.dot (stripped o step) t.strides then renewed change origin rest old
        else return old) := by
  have htarget := h.target_eq ho 0
  obtain ⟨gen, hgen, _⟩ := bind_eq_ok.mp hfinds.cell
  have hgen : b.generator = .ok gen := hgen
  have hne : step ≠ [] := by
    cases h with
    | cons hne _ _ => exact hne
  have hoffset := hfinds.offset_eq ho (hfinds.shape_ne_nil hne) 0
  simp only [replaceAlong, View.generator_computed, htarget, hgen, hoffset, bind, Except.bind, pure,
    Except.pure]
  refine ⟨gen, _, rfl, rfl, fun i => ?_⟩
  simp only [Gen.cell_indexed, Number.eq_int, renewed]
  cases gen.cell (.int i) with
  | error e => rfl
  | ok before =>
      by_cases hi : i = Shape.dot (stripped o step) t.strides
      · simp [hi]
      · simp [hi]

/-- A step into an array with an item replaced finds the renewed item if it is the first step of the
path, and else what it found before. -/
theorem finds_replaceAlong (ho : origin.number = .ok (.int o))
    (h : Leads o (step :: rest) (.view b) x) {step' : List Int} {t' : Shape} {old' new : Item}
    (h' : Finds o step' (.view b) t' old')
    (hn : (if step' = step then renewed change origin rest old' else .ok old') = .ok new) :
    Finds o step' (.view (replaceAlong change origin (step :: rest) b)) t' new := by
  cases h with
  | @cons _ _ t _ old _ hne hfinds hs =>
      obtain rfl := Extents.ofShape_inj (Except.ok.inj (h'.shape.symm.trans hfinds.shape))
      obtain ⟨gen, cells, hgen, hcells, heach⟩ :=
        generator_replaceAlong change ho (.cons hne hfinds hs) hfinds
      refine ⟨h'.shape, h'.within, ?_⟩
      obtain ⟨gen', hgen', hold'⟩ := bind_eq_ok.mp h'.cell
      obtain rfl := Except.ok.inj (hgen.symm.trans hgen')
      have hplace : Shape.dot (stripped o step') t'.strides =
          Shape.dot (stripped o step) t'.strides ↔ step' = step := by
        constructor
        · intro hdot
          exact stripped_inj (h'.within.dot_inj hfinds.within hdot)
        · rintro rfl
          rfl
      refine bind_eq_ok.mpr ⟨cells, hcells, ?_⟩
      rw [heach, hold']
      simp only [hplace, bind, Except.bind]
      exact hn

theorem leads_replaceAlong (ho : origin.number = .ok (.int o)) {p : Path} {new : Item}
    (h : Leads o p (.view b) x) (hp : p ≠ []) (hx : change.apply x = .ok new) :
    Leads o p (.view (replaceAlong change origin p b)) new := by
  induction p generalizing b with
  | nil => exact absurd rfl hp
  | cons step rest ih =>
      have hleads := h
      cases h with
      | @cons _ _ t _ old _ hne hfinds hs =>
          cases rest with
          | nil =>
              cases hs
              refine .cons hne (finds_replaceAlong ho hleads hfinds ?_) (.nil new)
              rw [if_pos rfl]
              exact hx
          | cons next rest =>
              have hon := ih (hs.lift (by simp)) (by simp)
              refine .cons hne (finds_replaceAlong ho hleads hfinds ?_) hon
              rw [if_pos rfl]
              rfl

/-- A path that parts from the one to the old item has the target that it had before. -/
theorem target_replaceAlong (ho : origin.number = .ok (.int o)) {p q : Path} {y : Item}
    {level : Nat} (h : Leads o p (.view b) x) (hq : target origin level q (.view b) = .ok y)
    (hpq : ¬ p <+: q) (hqp : ¬ q <+: p) :
    target origin level q (.view (replaceAlong change origin p b)) = .ok y := by
  induction p generalizing b q level with
  | nil => exact absurd List.nil_prefix hpq
  | cons step rest ih =>
      have hleads := h
      cases h with
      | @cons _ _ t _ old _ hne hfinds hs =>
          have ht := hfinds.shape_ne_nil hne
          cases q with
          | nil => exact absurd List.nil_prefix hqp
          | cons step' rest' =>
              obtain ⟨old', hfinds', hq⟩ := exists_finds ho hfinds.shape hq
              by_cases hstep : step' = step
              · subst hstep
                obtain rfl := hfinds.unique hfinds'
                rw [List.cons_prefix_cons, not_and] at hpq hqp
                have hrest : rest ≠ [] := by
                  rintro rfl
                  exact hpq rfl List.nil_prefix
                have hrest' : rest' ≠ [] := by
                  rintro rfl
                  exact hqp rfl List.nil_prefix
                have hon := ih (hs.lift hrest) (hs.target_lift ho hrest hrest' hq) (hpq rfl)
                  (hqp rfl)
                have hrenewed : (if step' = step' then renewed change origin rest old
                    else .ok old) = .ok (view (replaceAlong change origin rest old.lift)) := by
                  rw [if_pos rfl, renewed, if_neg]
                  simpa using hrest
                have hnew := finds_replaceAlong ho hleads hfinds hrenewed
                exact hnew.target_eq ho ht hon
              · have hkept : (if step' = step then renewed change origin rest old'
                    else .ok old') = .ok old' := if_neg hstep
                have hsame := finds_replaceAlong ho hleads hfinds' hkept
                exact hsame.target_eq ho ht hq

end Item
end LazyApl
