import LazyApl.Primitive.Reach
import LazyApl.Proofs.SoundItems
import LazyApl.Proofs.WholeItems
/-!
# Picking items out of nested arrays

A pick answers what the item at the end of its path answers. If that is an array, the pick renders
to the same array. A simple value is picked as a scalar that holds it, so a text that is no single
character comes out as a scalar, too, although an array at hand would hold it as a vector of
characters.
-/
namespace LazyApl

open Outcome

namespace Grid

variable {g h : Grid Item} {t : Shape} {f : Int → Item}

theorem Collects.eq_scalar (hg : g.Collects [] f) :
    ∃ k fill, g = ⟨[], [((f 0).countedFor k).stored], fill⟩ := by
  obtain ⟨s, xs, fill⟩ := g
  obtain rfl : s = [] := hg.shape_eq
  obtain ⟨k, hk⟩ := hg.cells 0 ⟨le_refl 0, Int.one_pos⟩
  obtain ⟨x, rfl⟩ : ∃ x, xs = [x] := List.length_eq_one_iff.mp hg.length_eq
  obtain rfl := Option.some.inj hk
  exact ⟨k, fill, rfl⟩

theorem Collects.exists_unboxed (hg : g.Collects [] f) (hk : (f 0).stored = f 0)
    (hbox : (f 0).isGrid = false) : ∃ k, g.unboxed.stored = ((f 0).countedFor k).stored := by
  obtain ⟨k, fill, rfl⟩ := hg.eq_scalar
  have hgrid : ((f 0).countedFor k).stored.isGrid = false := by
    rw [Item.isGrid_countedFor, hk, hbox]
  have hunboxed : Grid.unboxed ⟨[], [((f 0).countedFor k).stored], fill⟩ =
      ((f 0).countedFor k).stored := by
    simp [Grid.unboxed, hgrid]
  refine ⟨k, ?_⟩
  rw [hunboxed]
  by_cases hb : ∃ b, f 0 = .truth b
  · obtain ⟨b, hb⟩ := hb
    rw [hb]
    unfold Item.countedFor
    split <;> rfl
  · rw [Item.countedFor_eq_self fun b h => hb ⟨b, h⟩, hk, hk]

theorem unboxed_scalar_alike (x : Item) (fill fill' : Option Item) :
    Item.Alike (Grid.unboxed ⟨[], [x], fill⟩).stored (Grid.unboxed ⟨[], [x], fill'⟩).stored := by
  cases hgrid : x.isGrid with
  | true =>
      have hcells : Item.Alike (.array ⟨[], [x], fill⟩) (.array ⟨[], [x], fill'⟩) :=
        .cells (.cons (.refl x) .nil)
      simpa [Grid.unboxed, hgrid, Item.stored] using hcells
  | false =>
      simp only [Grid.unboxed, hgrid, Bool.false_eq_true, if_false]
      exact .refl _

theorem alike_unboxed (hg : g.shape ≠ []) (hh : h.shape ≠ []) :
    Item.Alike g.unboxed.stored h.unboxed.stored ↔ Item.Alike (.array g) (.array h) := by
  rw [unboxed_of_shape hg, unboxed_of_shape hh, stored_of_shape hg, stored_of_shape hh]

/-- Arrays that hold the same items are alike out of their boxes. -/
theorem Collects.unboxed_alike (hg : g.Collects t f) (hh : h.Collects t f) :
    Item.Alike g.unboxed.stored h.unboxed.stored := by
  by_cases ht : t = []
  · subst ht
    by_cases hb : ∃ b, f 0 = .truth b
    · obtain ⟨b, hb⟩ := hb
      have hstored : (f 0).stored = f 0 := by
        rw [hb]
        rfl
      have hbox : (f 0).isGrid = false := by
        rw [hb]
        rfl
      obtain ⟨k, hk⟩ := hg.exists_unboxed hstored hbox
      obtain ⟨l, hl⟩ := hh.exists_unboxed hstored hbox
      rw [hk, hl, Item.alike_countedFor, Item.alike_countedFor_right]
      exact .refl _
    · have hcounted := Item.countedFor_eq_self fun b h => hb ⟨b, h⟩
      obtain ⟨k, fill, rfl⟩ := hg.eq_scalar
      obtain ⟨l, fill', rfl⟩ := hh.eq_scalar
      rw [hcounted, hcounted]
      exact unboxed_scalar_alike _ fill fill'
  · have hgt : g.shape ≠ [] := hg.shape_eq ▸ ht
    have hht : h.shape ≠ [] := hh.shape_eq ▸ ht
    exact (alike_unboxed hgt hht).mpr (hg.alike hh fun _ _ => rfl)

end Grid

namespace View

variable {v w w' u : View Item} {t : Shape} {f : Int → Item}

/-- A computed array answers what an array answers. -/
structure AnswersAs (w v : View Item) : Prop where
  computed : w.IsComputed
  shape : w.shape = v.shape
  etype : w.etype = v.etype
  prototype : w.prototype = v.prototype
  generator : w.generator = v.generator

theorem AnswersAs.refl (h : v.IsComputed) : v.AnswersAs v := ⟨h, rfl, rfl, rfl, rfl⟩

theorem AnswersAs.trans (h : w.AnswersAs v) (h' : v.AnswersAs u) : w.AnswersAs u :=
  ⟨h.computed, h.shape.trans h'.shape, h.etype.trans h'.etype, h.prototype.trans h'.prototype,
    h.generator.trans h'.generator⟩

/-- What an array yields depends on its answers only. -/
theorem AnswersAs.yields (h : w.AnswersAs v) (hv : v.Yields t f) : w.Yields t f := by
  refine ⟨⟨?_, ?_, ?_⟩, ⟨fun e he => ?_, fun p hp => ?_, fun g hg => ?_⟩, fun h0 => ?_⟩
  · rw [h.shape]
    exact hv.shape
  · rw [h.etype]
    exact hv.etype
  · rw [h.generator]
    exact hv.cells
  · rw [h.shape] at he
    exact hv.ready.shape e he
  · rw [h.prototype] at hp
    exact hv.ready.fill p hp
  · obtain ⟨facts, rfl⟩ := h.computed
    cases hg
  · rw [h.prototype]
    exact hv.prototype h0

theorem IsComputed.generator_settledGen (h : w.IsComputed) :
    w.settled.generator .now = Item.settledGen w.generator := by
  obtain ⟨facts, rfl⟩ := h
  simp only [settled, View.computed, Item.settledRoot, Item.settledFacts]
  rfl

theorem AnswersAs.render_eq (h : w.AnswersAs v) (h' : w'.AnswersAs v) :
    (Item.view w).render = (Item.view w').render := by
  rw [h.computed.render_eq, h'.computed.render_eq, Tower.collect, Tower.collect,
    shape_settled, shape_settled, etype_settled, etype_settled, prototype_settled,
    prototype_settled, h.computed.generator_settledGen, h'.computed.generator_settledGen,
    h.shape, h'.shape, h.etype, h'.etype, h.prototype, h'.prototype, h.generator, h'.generator]

theorem IsComputed.answersAs_showing (h : v.IsComputed) (details : List (String × Lazy Item)) :
    (v.showing details).AnswersAs v := by
  obtain ⟨facts, rfl⟩ := h
  have hcomputed : ((View.computed facts).showing details).IsComputed :=
    ⟨{ facts with form := { facts.form with details := details } }, rfl⟩
  exact ⟨hcomputed, rfl, rfl, rfl, rfl⟩

end View

namespace Item

open LazyApl.Path

/-- A text that an array at hand holds as a vector of characters. -/
def IsLongText (x : Item) : Prop := ∃ s, x = text s ∧ s.length ≠ 1

/-- An item as it is picked: an array that answers what the item answers. -/
def disclosed (x : Item) : View Item :=
  View.computed
    { shape := .delay fun _ => x.shapeOf
      etype := .delay fun _ => x.etypeOf
      prototype := fun _ => x.prototypeOf
      generator := fun _ => x.generatorOf
      form := ⟨"Pick", [], false, none⟩ }

variable {origin : Origin} {change : Replacement} {b w : View Item} {path x y : Item} {p : Path}
  {t : Shape} {f : Int → Item} {g : Grid Item}

theorem answersAs_disclosed_view (v : View Item) : (view v).disclosed.AnswersAs v :=
  ⟨⟨_, rfl⟩, rfl, rfl, rfl, rfl⟩

theorem answersAs_disclosed_array (g : Grid Item) : (array g).disclosed.AnswersAs (View.ofGrid g) :=
  ⟨⟨_, rfl⟩, rfl, rfl, rfl, rfl⟩

theorem answersAs_pickAlong (ht : target origin 0 p (view b) = .ok x) :
    (pickAlong b p origin).AnswersAs x.disclosed := by
  refine ⟨⟨_, rfl⟩, ?_, ?_, ?_, ?_⟩
  · simp [pickAlong, disclosed, ht, bind, Except.bind]
  · simp [pickAlong, disclosed, ht, bind, Except.bind]
  · simp [pickAlong, disclosed, ht, bind, Except.bind]
  · simp [pickAlong, disclosed, ht, bind, Except.bind]

theorem exists_pick (hp : Path.of path = .ok p) (ht : target origin 0 p (view b) = .ok x) :
    ∃ w, pick (view b) path ⟨none, none⟩ origin = .ok w ∧ w.AnswersAs x.disclosed := by
  have hpick : pick (view b) path ⟨none, none⟩ origin = .ok ((pickAlong b p origin).showing
      (pickDetails (view b) (view b) p ⟨none, none⟩ origin)) := by
    simp only [pick, hp, bind, Except.bind]
    rfl
  have halong := answersAs_pickAlong ht
  exact ⟨_, hpick, (halong.computed.answersAs_showing _).trans halong⟩

theorem isComputed_replaceAlong : (replaceAlong change origin p b).IsComputed := by
  cases p with
  | nil => exact ⟨_, rfl⟩
  | cons step rest => exact ⟨_, rfl⟩

theorem exists_pick_assign (hp : Path.of path = .ok p) (v : Item) :
    ∃ w, pick (view b) path ⟨some v, none⟩ origin = .ok w ∧
      w.AnswersAs (replaceAlong ⟨some v, none⟩ origin p b) := by
  have hpick : pick (view b) path ⟨some v, none⟩ origin = .ok ((replaceAlong ⟨some v, none⟩ origin
      p b).showing (pickDetails (view b) (view b) p ⟨some v, none⟩ origin)) := by
    simp only [pick, hp, bind, Except.bind]
    rfl
  exact ⟨_, hpick, isComputed_replaceAlong.answersAs_showing _⟩

theorem yields_single {e : EType} (hs : x.shapeOf = .ok []) (he : x.etypeOf = .ok e)
    (hp : x.prototypeOf = .ok x.typify) (hg : x.generatorOf = .ok (.single x))
    (hx : x.settle = .ok x) : x.disclosed.Yields [] fun _ => x := by
  have hshape : x.disclosed.shape = .ok (.ofShape []) := hs
  have hfill : x.disclosed.prototype = .ok x.typify := hp
  refine ⟨⟨hshape, ⟨e, he⟩, _, hg, fun _ _ => hx⟩, ⟨fun e he => ?_, fun p hp => ?_, fun g h => ?_⟩,
    fun _ => ⟨_, hfill⟩⟩
  · rw [hshape] at he
    cases he
    exact ⟨[], rfl, Shape.isProper_nil⟩
  · rw [hfill] at hp
    cases hp
    exact (isSettled_typify x).settle_eq
  · cases h

theorem yields_disclosed_scalar (s : Scalar) :
    (scalar s).disclosed.Yields [] fun _ => scalar s :=
  yields_single rfl rfl rfl rfl (settle_of_ne_view (by simp))

theorem yields_disclosed_list (xs : List Item) : (list xs).disclosed.Yields [] fun _ => list xs :=
  yields_single rfl rfl rfl rfl (settle_of_ne_view (by simp))

theorem isLongText_text {s : String} : (text s).IsLongText ↔ s.length ≠ 1 := by
  constructor
  · rintro ⟨s', hs, hlen⟩
    cases hs
    exact hlen
  · intro hlen
    exact ⟨s, rfl, hlen⟩

theorem length_of_not_isLongText {s : String} (h : ¬ (text s).IsLongText) : s.length = 1 := by
  rwa [isLongText_text, not_not] at h

theorem lift_scalar {s : Scalar} (h : ¬ (scalar s).IsLongText) :
    (scalar s).lift = View.ofGrid (Grid.ofScalar (scalar s).counted) := by
  cases s with
  | text s => simp [lift, vectorOf, counted, length_of_not_isLongText h, View.ofGrid]
  | _ => rfl

theorem isKept_scalar {s : Scalar} (h : ¬ (scalar s).IsLongText) : (scalar s).IsKept := by
  cases s with
  | text s => exact isKept_char (length_of_not_isLongText h)
  | _ => rfl

theorem isKept_counted {s : Scalar} (h : ¬ (scalar s).IsLongText) :
    (scalar s).counted.IsKept := by
  cases s with
  | text s => exact isKept_scalar h
  | _ => rfl

theorem placed_scalar {s : Scalar} (h : ¬ (scalar s).IsLongText) :
    Replacement.placed (scalar s) = scalar s := by
  cases s with
  | text s => simp [Replacement.placed, length_of_not_isLongText h]
  | _ => rfl

theorem counted_of_yields {s : Scalar} (h : ¬ (scalar s).IsLongText)
    (hv : (scalar s).lift.Yields t f) : t = [] ∧ f 0 = (scalar s).counted := by
  rw [lift_scalar h] at hv
  obtain rfl : [] = t := Extents.ofShape_inj (Except.ok.inj hv.shape)
  obtain ⟨gen, hgen, hcell⟩ := hv.cells
  have hsettle := hcell 0 ⟨le_refl 0, Int.one_pos⟩
  have hcounted := (isKept_counted h).stored_eq
  have hgen : Except.ok (Gen.single (scalar s).counted.stored) = Except.ok gen := hgen
  cases hgen
  rw [hcounted] at hsettle
  have hsettle : (scalar s).counted.settle = .ok (f 0) := hsettle
  have hsimple : ∀ v, (scalar s).counted ≠ view v := by
    intro v hv
    cases s <;> cases hv
  rw [settle_of_ne_view hsimple] at hsettle
  exact ⟨rfl, (Except.ok.inj hsettle).symm⟩

/-- What is put at the end of a path yields what the array yields that the new item is. -/
theorem exists_yields_placed {v : Item} (hv : v.lift.Yields t f) (hg : g.Collects t f) :
    ∃ f', (Replacement.placed v).disclosed.Yields t f' ∧ g.Collects t f' := by
  have hlift : (view v.lift).disclosed.Yields t f :=
    (answersAs_disclosed_view v.lift).yields hv
  cases v with
  | view v => exact ⟨f, hlift, hg⟩
  | array g => exact ⟨f, hlift, hg⟩
  | list xs => exact ⟨f, hlift, hg⟩
  | scalar s =>
      by_cases hlong : (scalar s).IsLongText
      · obtain ⟨s, hs, hlen⟩ := hlong
        cases hs
        refine ⟨f, ?_, hg⟩
        simp only [Replacement.placed, if_neg hlen]
        exact hlift
      · obtain ⟨rfl, hf⟩ := counted_of_yields hlong hv
        rw [placed_scalar hlong]
        refine ⟨_, yields_disclosed_scalar s, hg.shape_eq, hg.length_eq, fun i hi => ⟨.int, ?_⟩⟩
        obtain rfl : i = 0 := by
          unfold Shape.Holds at hi
          simp only [Shape.size_nil] at hi
          omega
        obtain ⟨k, hk⟩ := hg.cells 0 hi
        have hcounted : (scalar s).counted.countedFor k = (scalar s).counted :=
          countedFor_eq_self (fun b => by cases s <;> simp [counted]) k
        rw [hk, hf, hcounted]
        rfl

theorem scalar_not_alike_text {s : String} {h : Grid Item} (hlen : s.length ≠ 1)
    (hh : h.Collects [] fun _ => text s) : ¬ Alike h.unboxed.stored (text s).stored := by
  obtain ⟨k, fill, rfl⟩ := hh.eq_scalar
  have htext : (text s).stored = characters s := by simp [stored, hlen]
  have hunboxed : (Grid.unboxed ⟨[], [characters s], fill⟩).stored =
      array ⟨[], [characters s], fill⟩ := by
    simp [Grid.unboxed, isGrid, characters, stored]
  rw [countedFor_eq_self (by simp), htext, hunboxed, characters]
  intro ha
  have hshape := (alike_array (by simp) (by simp [Shape.size, String.length_toList])).mp ha
  cases hshape.1

/-- An item that has been picked is alike to the item, unless it is a text that an array would hold
as a vector of characters. -/
theorem settle_picked (hx : x.IsSound) (hw : w.AnswersAs x.disclosed) (hy : x.settle = .ok y) :
    ∃ z, (view w).settle = .ok z ∧ (Alike z.stored y.stored ↔ ¬ x.IsLongText) := by
  cases hx with
  | scalar s =>
      have hyields := hw.yields (yields_disclosed_scalar s)
      obtain ⟨h, hr, hh⟩ := hyields.exists_render
      refine ⟨_, View.settle_of_render hr, ?_⟩
      cases hy
      by_cases hlong : (scalar s).IsLongText
      · obtain ⟨s, hs, hlen⟩ := id hlong
        cases hs
        exact iff_of_false (scalar_not_alike_text hlen hh) (not_not.mpr hlong)
      · obtain ⟨k, hk⟩ := hh.exists_unboxed (isKept_scalar hlong).stored_eq rfl
        rw [hk, alike_countedFor]
        exact iff_of_true (.refl _) hlong
  | list xs =>
      have hyields := hw.yields (yields_disclosed_list xs)
      obtain ⟨h, hr, hh⟩ := hyields.exists_render
      obtain ⟨k, hk⟩ := hh.exists_unboxed rfl rfl
      refine ⟨_, View.settle_of_render hr, ?_⟩
      cases hy
      rw [hk, alike_countedFor]
      exact iff_of_true (.refl _) (by simp [IsLongText])
  | @array g ready _ =>
      obtain ⟨f, hf, hg⟩ := View.yields_ofGrid ready
      have hyields := hw.yields ((answersAs_disclosed_array g).yields hf)
      obtain ⟨h, hr, hh⟩ := hyields.exists_render
      have hkept := isKept_unboxed (ready.kept g rfl).items
      refine ⟨_, View.settle_of_render hr, ?_⟩
      cases hy
      have halike := hh.unboxed_alike hg
      rw [hkept.stored_eq] at halike
      rw [stored_array]
      exact iff_of_true halike (by simp [IsLongText])
  | @view v ready _ =>
      obtain ⟨g, hr, hg⟩ := View.render_of_settle hy
      obtain ⟨f, hf, hgf⟩ := ready.exists_yields hr
      have hyields := hw.yields ((answersAs_disclosed_view v).yields hf)
      obtain ⟨h, hr', hh⟩ := hyields.exists_render
      refine ⟨_, View.settle_of_render hr', ?_⟩
      rw [hg]
      exact iff_of_true (hh.unboxed_alike hgf) (by simp [IsLongText])

end Item
end LazyApl
