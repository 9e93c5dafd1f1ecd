import LazyApl.Primitive.Function
import LazyApl.Primitive.Pervade
import LazyApl.Proofs.Paths
import LazyApl.Proofs.Picking
/-!
# Replacing items along a path

What has been put at the end of a path is picked again by this path, and a path that parts from it
picks what it picked before. Putting back what has been picked leaves an array alike, with one
exception. A text that is no single character is a vector of characters as an item of an array. Once
it has been picked it is a scalar, which holds that vector.
-/
namespace LazyApl

open Outcome

namespace Item

open LazyApl.Path

variable {o : Int} {origin : Origin} {change : Replacement} {b : View Item}
  {node old new x y z : Item} {p rest : Path} {t : Shape} {step : List Int} {f : Int → Item}

theorem isReady_replaceAlong (hb : b.IsReady) :
    (replaceAlong change origin (step :: rest) b).IsReady := by
  refine ⟨hb.shape, hb.fill, fun g hg => ?_⟩
  cases hg

/-- An array in which the item on the way along a path is renewed yields what it did before, except
for that item. -/
theorem yields_replaceAlong (ho : origin.number = .ok (.int o)) (hb : b.Yields t f)
    (h : Leads o (step :: rest) (view b) x) (hfinds : Finds o step (view b) t old)
    (hnew : renewed change origin rest old = .ok new) (hz : new.settle = .ok z) :
    (replaceAlong change origin (step :: rest) b).Yields t
      (Function.update f (Shape.dot (stripped o step) t.strides) z) := by
  obtain ⟨gen, cells, hgen, hcells, heach⟩ := generator_replaceAlong change ho h hfinds
  obtain ⟨gen', hgen', hcell⟩ := hb.cells
  obtain rfl := Except.ok.inj (hgen.symm.trans hgen')
  obtain ⟨gen'', hgen'', hold⟩ := bind_eq_ok.mp hfinds.cell
  obtain rfl := Except.ok.inj (hgen.symm.trans hgen'')
  refine ⟨⟨hb.shape, ⟨_, rfl⟩, cells, hcells, fun i hi => ?_⟩, isReady_replaceAlong hb.ready,
    hb.prototype⟩
  rw [heach]
  by_cases hplace : i = Shape.dot (stripped o step) t.strides
  · subst hplace
    rw [hold, Function.update_self]
    simp only [bind, Except.bind, if_true, hnew]
    exact hz
  · rw [Function.update_of_ne hplace, ← hcell i hi]
    cases gen.cell (.int i) with
    | error e => rfl
    | ok before =>
        simp only [bind, Except.bind, if_neg hplace]
        rfl

/-- Along a path, each array is alike to what it was before if the new item at the end of the path
is alike to the old one. The induction is on the path, from its end: an array on the way is built
anew around one that has been built before. -/
theorem settle_renewed {P : Prop} (ho : origin.number = .ok (.int o)) (h : Leads o p node x)
    (hn : node.IsSound) (hx : change.apply x = .ok new)
    (hnew : ∀ y, x.settle = .ok y → ∃ z, new.settle = .ok z ∧ (Alike z.stored y.stored ↔ P))
    (hy : node.settle = .ok y) :
    ∃ item z, renewed change origin p node = .ok item ∧ item.settle = .ok z ∧
      (Alike z.stored y.stored ↔ P) := by
  induction h generalizing y with
  | nil x =>
      obtain ⟨z, hz, halike⟩ := hnew y hy
      exact ⟨new, z, hx, hz, halike⟩
  | @cons step rest t node old x hne hfinds hleads ih =>
      have ht := hfinds.shape_ne_nil hne
      obtain ⟨y', hy'⟩ := hfinds.exists_settle hn hy
      obtain ⟨item, z, hitem, hz, halike⟩ := ih (hfinds.isSound hn) hx hnew hy'
      obtain ⟨g, f, rfl, hf, hg⟩ := hn.exists_yields hfinds.shape ht hy
      have hlift := hfinds.lift ht
      have hrenewed := yields_replaceAlong ho hf (.cons hne hlift hleads) hlift hitem hz
      obtain ⟨h, hr, hh⟩ := hrenewed.exists_render
      have hsettle := View.settle_of_render hr
      rw [Grid.unboxed_of_shape (hh.shape_eq ▸ ht)] at hsettle
      have hold : f (Shape.dot (stripped o step) t.strides) = y' := by
        obtain ⟨gen, hgen, hcell⟩ := hf.cells
        obtain ⟨gen', hgen', hold⟩ := bind_eq_ok.mp hlift.cell
        obtain rfl := Except.ok.inj (hgen.symm.trans hgen')
        have hcell := hcell _ hfinds.within.holds
        rw [hold] at hcell
        exact Except.ok.inj (hcell.symm.trans hy')
      refine ⟨_, array h, rfl, hsettle, ?_⟩
      rw [Grid.stored_of_shape (hh.shape_eq ▸ ht), Grid.stored_of_shape (hg.shape_eq ▸ ht),
        hh.alike_iff hg, ← halike]
      constructor
      · intro hall
        have hplace := hall _ hfinds.within.holds
        rwa [Function.update_self, hold] at hplace
      · intro hz i hi
        by_cases hplace : i = Shape.dot (stripped o step) t.strides
        · subst hplace
          rwa [Function.update_self, hold]
        · rw [Function.update_of_ne hplace]
          exact .refl _

theorem yields_replaceAlong_nil (hb : b.IsReady) (hx : change.apply (view b) = .ok x)
    (hf : x.disclosed.Yields t f) (hfill : t.size = 0 → ∃ fill, b.prototype = .ok fill) :
    (replaceAlong change origin [] b).Yields t f := by
  have hshape : (replaceAlong change origin [] b).shape = .ok (.ofShape t) := by
    rw [← hf.shape]
    simp only [replaceAlong, disclosed, View.shape_computed, Lazy.get_delay, Lazy.get_keep, hx]
    rfl
  have hgen : (replaceAlong change origin [] b).generator = x.disclosed.generator := by
    simp only [replaceAlong, disclosed, View.generator_computed, Lazy.get_keep, hx]
    rfl
  refine ⟨⟨hshape, ⟨_, rfl⟩, ?_⟩, ⟨fun e he => ?_, hb.fill, fun g hg => ?_⟩, hfill⟩
  · rw [hgen]
    exact hf.cells
  · rw [hshape] at he
    cases he
    exact ⟨t, rfl, hf.isProper⟩
  · cases hg

end Item

namespace View

open LazyApl.Path

variable {o : Int} {origin : Origin} {v w : View Item} {t : Shape} {q : Path} {y : Item}

/-- Paths lead to the same items in arrays that answer the same. -/
theorem AnswersAs.target_eq (hw : w.AnswersAs v) (ho : origin.number = .ok (.int o))
    (hs : v.shape = .ok (.ofShape t)) (ht : t ≠ []) (hq : q ≠ []) {level : Nat}
    (h : target origin level q (.view v) = .ok y) : target origin level q (.view w) = .ok y := by
  cases q with
  | nil => exact absurd rfl hq
  | cons step rest =>
      have hshape : (Item.view v).shapeOf = .ok (.ofShape t) := hs
      obtain ⟨old, hfinds, hrest⟩ := exists_finds ho hshape h
      have hcell : (Item.view w).elementAt (.int (Shape.dot (stripped o step) t.strides)) =
          .ok old := by
        obtain ⟨gen, hgen, hold⟩ := bind_eq_ok.mp hfinds.cell
        exact bind_eq_ok.mpr ⟨gen, hw.generator.trans hgen, hold⟩
      have hsame : Finds o step (.view w) t old :=
        ⟨hw.shape.trans hfinds.shape, hfinds.within, hcell⟩
      exact hsame.target_eq ho ht hrest

end View

namespace Item

open LazyApl.Path

variable {o : Int} {origin : Origin} {change : Replacement} {a w : View Item}
  {path other x y : Item} {p q : Path} {t : Shape} {gv : Grid Item}

theorem exists_shape_of_leads (h : Leads o p (view a) x) (hp : p ≠ []) :
    ∃ t, a.shape = .ok (.ofShape t) ∧ t ≠ [] := by
  cases h with
  | nil x => exact absurd rfl hp
  | cons hne hfinds _ => exact ⟨_, hfinds.shape, hfinds.shape_ne_nil hne⟩

theorem target_assigned (ho : origin.number = .ok (.int o)) (h : Leads o p (view a) x)
    (hp : p ≠ []) (hw : w.AnswersAs (replaceAlong change origin p a)) (hq : q ≠ [])
    (hy : target origin 0 q (view (replaceAlong change origin p a)) = .ok y) :
    target origin 0 q (view w) = .ok y := by
  obtain ⟨t, hshape, ht⟩ := exists_shape_of_leads h hp
  cases p with
  | nil => exact absurd rfl hp
  | cons step rest => exact hw.target_eq ho hshape ht hq hy

/-- What has been put at the end of a path is picked again by the path. -/
theorem pick_placed (ho : origin.number = .ok (.int o)) (hp : Path.of path = .ok p)
    (h : Leads o p (view a) x) (ha : a.IsReady) {v : Item} (hv : v.lift.IsReady)
    (hr : (view v.lift).render = .ok (array gv))
    (hfill : p = [] → gv.shape.size = 0 → ∃ fill, a.prototype = .ok fill)
    (hw : w.AnswersAs (replaceAlong ⟨some v, none⟩ origin p a)) :
    ∃ back h, pick (view w) path ⟨none, none⟩ origin = .ok back ∧
      (view back).render = .ok (array h) ∧ Alike (array h) (array gv) := by
  obtain ⟨f, hf, hg⟩ := hv.exists_yields hr
  obtain ⟨f', hf', hg'⟩ := exists_yields_placed hf hg
  have hback : ∃ back, pick (view w) path ⟨none, none⟩ origin = .ok back ∧
      back.Yields gv.shape f' := by
    by_cases hnil : p = []
    · subst hnil
      have hplaced : Replacement.apply ⟨some v, none⟩ (view a) = .ok (Replacement.placed v) := rfl
      have hassigned := hw.yields (yields_replaceAlong_nil ha hplaced hf' (hfill rfl))
      obtain ⟨back, hback, hanswers⟩ := exists_pick hp (rfl : target origin 0 [] (view w) = _)
      have hsame := hanswers.trans (answersAs_disclosed_view w)
      exact ⟨back, hback, hsame.yields hassigned⟩
    · have hplaced : Replacement.apply ⟨some v, none⟩ x = .ok (Replacement.placed v) := rfl
      have htarget := (leads_replaceAlong ho h hnil hplaced).target_eq ho 0
      obtain ⟨back, hback, hanswers⟩ := exists_pick hp (target_assigned ho h hnil hw hnil htarget)
      exact ⟨back, hback, hanswers.yields hf'⟩
  obtain ⟨back, hback, hyields⟩ := hback
  obtain ⟨h, hr', hh⟩ := hyields.exists_render
  exact ⟨back, h, hback, hr', hh.alike hg' fun _ _ => rfl⟩

/-- A path that parts from the one to the new item picks what it picked before. -/
theorem pick_parted (ho : origin.number = .ok (.int o)) (h : Leads o p (view a) x)
    (ha : (view a).IsSound) (hw : w.AnswersAs (replaceAlong change origin p a))
    (hq : Path.of other = .ok q) (hy : target origin 0 q (view a) = .ok y) (hpq : ¬ p <+: q)
    (hqp : ¬ q <+: p) :
    ∃ here there, pick (view a) other ⟨none, none⟩ origin = .ok here ∧
      pick (view w) other ⟨none, none⟩ origin = .ok there ∧
      (view there).render = (view here).render ∧
      ∀ g, (view a).render = .ok (array g) → ∃ h, (view here).render = .ok (array h) := by
  have hnil : p ≠ [] := by
    rintro rfl
    exact hpq List.nil_prefix
  have hnil' : q ≠ [] := by
    rintro rfl
    exact hqp List.nil_prefix
  have htarget := target_assigned ho h hnil hw hnil' (target_replaceAlong ho h hy hpq hqp)
  obtain ⟨here, hhere, hanswers⟩ := exists_pick hq hy
  obtain ⟨there, hthere, hanswers'⟩ := exists_pick hq htarget
  refine ⟨here, there, hhere, hthere, hanswers'.render_eq hanswers, fun g hg => ?_⟩
  obtain ⟨z, hz⟩ := exists_settle_of_target ho ha hy (View.settle_of_render hg)
  obtain ⟨z', hz', _⟩ := settle_picked (isSound_of_target ho ha hy) hanswers hz
  obtain ⟨h, hr, _⟩ := View.render_of_settle hz'
  exact ⟨h, hr⟩

/-- Putting back what has been picked leaves the array alike, unless it is a text that an array
holds as a vector of characters. -/
theorem pick_put_back (ho : origin.number = .ok (.int o)) (hp : Path.of path = .ok p)
    (leads : Leads o p (view a) x) (ha : (view a).IsSound) {own : View Item}
    (hown : own.AnswersAs x.disclosed)
    (hw : w.AnswersAs (replaceAlong ⟨some (view own), none⟩ origin p a)) {g : Grid Item}
    (hg : (view a).render = .ok (array g)) :
    ∃ h, (view w).render = .ok (array h) ∧ (Alike (array h) (array g) ↔ ¬ x.IsLongText) := by
  have hready := ha.isReady
  obtain ⟨f, hf, hgf⟩ := hready.exists_yields hg
  cases p with
  | nil =>
      cases leads
      have hsame := (hown.trans (answersAs_disclosed_view a)).yields hf
      have hplaced : Replacement.apply ⟨some (view own), none⟩ (view a) = .ok (view own) := rfl
      have hassigned := hw.yields (yields_replaceAlong_nil hready hplaced
        ((answersAs_disclosed_view own).yields hsame) hf.prototype)
      obtain ⟨h, hr, hh⟩ := hassigned.exists_render
      exact ⟨h, hr, iff_of_true (hh.alike hgf fun _ _ => rfl) (by simp [IsLongText])⟩
  | cons step rest =>
      have hx := isSound_of_target ho ha (leads.target_eq ho 0)
      have hplaced : Replacement.apply ⟨some (view own), none⟩ x = .ok (view own) := rfl
      obtain ⟨item, z, hitem, hz, halike⟩ := settle_renewed ho leads ha hplaced
        (fun y hy => settle_picked hx hown hy) (View.settle_of_render hg)
      cases hitem
      obtain ⟨h, hr, rfl⟩ := View.render_of_settle hz
      obtain ⟨_, hf', _⟩ := (isReady_replaceAlong hready).exists_yields hr
      obtain ⟨t, hshape, ht⟩ := exists_shape_of_leads leads (List.cons_ne_nil step rest)
      have hshape' : (replaceAlong ⟨some (view own), none⟩ origin (step :: rest) a).shape =
          .ok (.ofShape t) := hshape
      obtain rfl : g.shape = t := Extents.ofShape_inj (Except.ok.inj (hf.shape.symm.trans hshape))
      have heq : h.shape = g.shape :=
        Extents.ofShape_inj (Except.ok.inj (hf'.shape.symm.trans hshape'))
      have hboxes := Grid.alike_unboxed (heq ▸ ht) ht
      have hrender := hw.render_eq (.refl isComputed_replaceAlong)
      exact ⟨h, hrender.trans hr, hboxes.symm.trans halike⟩

/-- Assignment along a path and picking by paths fit together. What has been put at the end of a
path is picked again, as an array of its own; an empty array that takes the place of the whole one
shows the fill of that, so there has to be one. A path that is neither a part of it nor goes on from
it picks the same as before. Putting back what has been picked leaves the array alike, unless it is
a text that an array holds as a vector of characters. -/
theorem pick_assign (ha : (view a).IsSound) (ho : origin.number = .ok (.int o))
    (hp : Path.of path = .ok p) (hne : ∀ step ∈ p, step ≠ [])
    (hx : target origin 0 p (view a) = .ok x) :
    (∀ v, ∃ w, pick (view a) path ⟨some v, none⟩ origin = .ok w ∧
      (∀ gv, v.lift.IsReady → (view v.lift).render = .ok (array gv) →
        (p = [] → gv.shape.size = 0 → ∃ fill, a.prototype = .ok fill) →
          ∃ back h, pick (view w) path ⟨none, none⟩ origin = .ok back ∧
            (view back).render = .ok (array h) ∧ Alike (array h) (array gv)) ∧
      ∀ other q y, Path.of other = .ok q → target origin 0 q (view a) = .ok y →
        ¬ p <+: q → ¬ q <+: p →
          ∃ here there, pick (view a) other ⟨none, none⟩ origin = .ok here ∧
            pick (view w) other ⟨none, none⟩ origin = .ok there ∧
            (view there).render = (view here).render ∧
            ∀ g, (view a).render = .ok (array g) → ∃ h, (view here).render = .ok (array h)) ∧
    ∃ own w, pick (view a) path ⟨none, none⟩ origin = .ok own ∧
      pick (view a) path ⟨some (view own), none⟩ origin = .ok w ∧
      ∀ g, (view a).render = .ok (array g) →
        ∃ h, (view w).render = .ok (array h) ∧ (Alike (array h) (array g) ↔ ¬ x.IsLongText) := by
  have hleads := leads_of_target ho hne ha hx
  have hready := ha.isReady
  constructor
  · intro v
    obtain ⟨w, hpick, hw⟩ := exists_pick_assign hp v
    refine ⟨w, hpick, ?_, ?_⟩
    · intro gv hv hr hfill
      exact pick_placed ho hp hleads hready hv hr hfill hw
    · intro other q y hq hy hpq hqp
      exact pick_parted ho hleads ha hw hq hy hpq hqp
  · obtain ⟨own, hpick, hown⟩ := exists_pick hp hx
    obtain ⟨w, hassign, hw⟩ := exists_pick_assign hp (view own)
    refine ⟨own, w, hpick, hassign, ?_⟩
    intro g hg
    exact pick_put_back ho hp hleads ha hown hw hg

/-- Two vectors of characters, joined one by one. -/
def joined : View Item :=
  View.pervade (CellFunction.dyadic add) (.fixed EType.mixed)
    [View.ofGrid (Grid.ofList [text "a", text "c"]), View.ofGrid (Grid.ofList [text "b", text "d"])]

theorem joined_answers : joined.IsComputed ∧ joined.shape = .ok (.ofShape [2]) ∧
    joined.etype = .ok EType.mixed ∧ joined.prototype = .ok blank ∧
    ∃ gen, joined.generator = .ok gen ∧ gen.cell 0 = .ok (text "ab") ∧
      gen.cell 1 = .ok (text "cd") ∧ ∀ i x, gen.cell i = .ok x → ∃ s, x = text s := by
  unfold joined
  rw [View.pervade]
  refine ⟨⟨_, rfl⟩, rfl, rfl, rfl, _, rfl, rfl, rfl, ?_⟩
  intro i x h
  rw [Gen.cell_indexed] at h
  split at h
  · cases h
  · rename_i args hargs
    obtain ⟨l, hl, hargs⟩ := bind_eq_ok.mp hargs
    obtain ⟨rest, hrest, hargs⟩ := bind_eq_ok.mp hargs
    obtain ⟨r, hr, hrest⟩ := bind_eq_ok.mp hrest
    cases hrest
    cases hargs
    have hleft : ∃ s, l = text s := by
      have hmem : l ∈ [text "a", text "c"] := pickBy_mem hl
      simp only [List.mem_cons, List.not_mem_nil, or_false] at hmem
      rcases hmem with rfl | rfl <;> exact ⟨_, rfl⟩
    have hright : ∃ s, r = text s := by
      have hmem : r ∈ [text "b", text "d"] := pickBy_mem hr
      simp only [List.mem_cons, List.not_mem_nil, or_false] at hmem
      rcases hmem with rfl | rfl <;> exact ⟨_, rfl⟩
    obtain ⟨s, rfl⟩ := hleft
    obtain ⟨s', rfl⟩ := hright
    split at h
    · cases h
    · rename_i harray
      simp [Pervade.anyArray, isArray, bind, Except.bind] at harray
    · cases h
      exact ⟨_, rfl⟩

theorem joined_isSound : (view joined).IsSound := by
  obtain ⟨⟨facts, hfacts⟩, hshape, _, hfill, gen, hgen, _, _, htext⟩ := joined_answers
  refine .view ⟨fun e he => ?_, fun p hp => ?_, fun g hg => ?_⟩ fun gen' i x hgen' hx => ?_
  · rw [hshape] at he
    cases he
    exact ⟨[2], rfl, by simp [Shape.IsProper]⟩
  · rw [hfill] at hp
    cases hp
    exact isSettled_blank.settle_eq
  · rw [hfacts] at hg
    cases hg
  · rw [hgen] at hgen'
    cases hgen'
    obtain ⟨s, rfl⟩ := htext i x hx
    exact .scalar _

/-- The first text is picked and put back: it is in a box then. A number that is put in its place is
picked again. -/
theorem joined_pick_assign :
    ∃ own w g h, pick (view joined) (ints [0]) ⟨none, none⟩ (.int 0) = .ok own ∧
      pick (view joined) (ints [0]) ⟨some (view own), none⟩ (.int 0) = .ok w ∧
      (view joined).render = .ok (array g) ∧ (view w).render = .ok (array h) ∧
      ¬ Alike (array h) (array g) ∧
      ∃ w' back h', pick (view joined) (ints [0]) ⟨some (int 7), none⟩ (.int 0) = .ok w' ∧
        pick (view w') (ints [0]) ⟨none, none⟩ (.int 0) = .ok back ∧
        (view back).render = .ok (array h') ∧ Alike (array h') (array (Grid.ofScalar (int 7))) := by
  obtain ⟨_, hshape, hetype, hfill, gen, hgen, hfirst, hsecond, _⟩ := joined_answers
  have path : Path.of (ints [0]) = .ok [[0]] := rfl
  have origin : Scalar.number (.int 0) = .ok (.int 0) := rfl
  have nonempty : ∀ step ∈ ([[0]] : Path), step ≠ [] := by simp
  have first : Finds 0 [0] (view joined) [2] (text "ab") :=
    ⟨hshape, by simp [stripped, Shape.within_cons], bind_eq_ok.mpr ⟨gen, hgen, hfirst⟩⟩
  have end_of_path : target (.int 0) 0 [[0]] (view joined) = .ok (text "ab") :=
    first.target_eq origin (by simp) rfl
  have yields : joined.Yields [2] fun i => if i = 0 then text "ab" else text "cd" := by
    refine ⟨⟨hshape, ⟨_, hetype⟩, gen, hgen, fun i hi => ?_⟩, joined_isSound.isReady, ?_⟩
    · have hi : i = 0 ∨ i = 1 := by
        have hi : 0 ≤ i ∧ i < 2 := hi
        omega
      rcases hi with rfl | rfl
      · exact bind_eq_ok.mpr ⟨_, hfirst, settle_of_ne_view (by simp)⟩
      · exact bind_eq_ok.mpr ⟨_, hsecond, settle_of_ne_view (by simp)⟩
    · intro _
      exact ⟨_, hfill⟩
  obtain ⟨g, hg, _⟩ := yields.exists_render
  obtain ⟨hassigned, own, w, hown, hw, hback⟩ :=
    pick_assign joined_isSound origin path nonempty end_of_path
  obtain ⟨h, hh, halike⟩ := hback g hg
  obtain ⟨w', hw', hagain, _⟩ := hassigned (int 7)
  have seven := (IsLiteral.scalar (.int 7)).isSound_lift.isReady
  obtain ⟨back, h', hpick, hr, hseven⟩ := hagain _ seven rfl (by simp)
  refine ⟨own, w, g, h, hown, hw, hg, hh, ?_, w', back, h', hw', hpick, hr, hseven⟩
  rw [halike, not_not]
  exact isLongText_text.mpr (by decide)

end Item
end LazyApl
