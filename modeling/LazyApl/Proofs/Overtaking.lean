import LazyApl.Proofs.Bounds
import LazyApl.Proofs.Keeping
/-!
# Taking from an array and from what it renders to

A take from an array under transforms is folded into them and fills up with the fill that they have
inherited. A take from the rendered array fills up with the fill made of the first item of that one.
Both takes show the same items otherwise, so they match exactly when the two fills do wherever the
take needs one.
-/
namespace LazyApl

open Outcome

namespace Level

variable {fill : Item → Except Fault Item} {root : Facts Item}

theorem exists_paddedType {source : Stage} (he : ∃ e, source.etype.get = .ok e) :
    (∃ e, paddedType source = .ok e) ↔ ∃ p, source.prototype.get = .ok p := by
  obtain ⟨e, he⟩ := he
  unfold paddedType
  rw [he]
  constructor
  · rintro ⟨_, h⟩
    obtain ⟨_, _, h⟩ := bind_eq_ok.mp h
    obtain ⟨p, hp, _⟩ := bind_eq_ok.mp h
    exact ⟨p, hp⟩
  · rintro ⟨p, hp⟩
    exact ⟨_, bind_eq_ok.mpr ⟨e, rfl, bind_eq_ok.mpr ⟨p, hp, rfl⟩⟩⟩

theorem etype_cut {base : Level} {style : Cut} {drop : Bool} {counts : List Int}
    {axes : Option (List Int)} {source : Stage} {l : Layout}
    (h : mergedLayout base drop counts axes = .ok (source, l)) :
    (above fill root (.cut style drop counts axes) base).stage.etype.get =
      if l.isPadded then paddedType source else source.etype.get := by
  simp only [above, Lazy.get_delay, Lazy.get_keep, h, bind, Except.bind]

/-- The source that sections on top of each other share has the fill of each of them, and its
element type is known where that of the topmost is. -/
theorem offered_source {steps : List Step} {m : Lazy (Stage × Layout)} {source : Stage} {l : Layout}
    (hm : (ofSteps fill root steps).spans? = some m) (hg : m.get = .ok (source, l)) :
    source.prototype.get = (ofSteps fill root steps).stage.prototype.get ∧
      (ofSteps fill root steps).stage.etype.get =
        if l.isPadded then paddedType source else source.etype.get := by
  induction steps generalizing m source l with
  | nil => cases hm
  | cons x rest ih =>
      cases x with
      | cut style drop counts axes =>
          cases hm
          rw [Lazy.get_keep] at hg
          refine ⟨?_, etype_cut hg⟩
          change source.prototype.get = (ofSteps fill root rest).stage.prototype.get
          unfold mergedLayout at hg
          cases hb : (ofSteps fill root rest).spans? with
          | none =>
              rw [hb] at hg
              obtain ⟨_, _, hg⟩ := bind_eq_ok.mp hg
              obtain ⟨_, _, hg⟩ := bind_eq_ok.mp hg
              cases hg
              rfl
          | some below =>
              rw [hb] at hg
              obtain ⟨⟨source', inner⟩, hbelow, hg⟩ := bind_eq_ok.mp hg
              obtain ⟨_, _, hg⟩ := bind_eq_ok.mp hg
              obtain ⟨_, _, hg⟩ := bind_eq_ok.mp hg
              obtain ⟨_, _, hg⟩ := bind_eq_ok.mp hg
              cases hg
              exact (ih hb hbelow).1
      | _ => cases hm

/-- The element type of a section is known if its own layout is not padded or the fill is known. -/
theorem exists_etype_cut {steps : List Step} {r t : Shape}
    (hb : Keeps r t (ofSteps fill root steps))
    (he : ∃ e, (ofSteps fill root steps).stage.etype.get = .ok e) (style : Cut) {drop : Bool}
    {counts : List Int} {axes : Option (List Int)} {o : List Span}
    (ho : Section.layout drop counts axes (.ofShape t) = .ok (Layout.ofSpans o))
    (hf : Span.FitAll o t) :
    (∃ e, (above fill root (.cut style drop counts axes)
        (ofSteps fill root steps)).stage.etype.get = .ok e) ↔
      ((Layout.ofSpans o).isPadded = true →
        ∃ p, (ofSteps fill root steps).stage.prototype.get = .ok p) := by
  cases hm : (ofSteps fill root steps).spans? with
  | none =>
      have hmerged : mergedLayout (ofSteps fill root steps) drop counts axes =
          .ok ((ofSteps fill root steps).stage, Layout.ofSpans o) := by
        simp [mergedLayout, hm, hb.shape_eq, ho, bind, Except.bind, pure, Except.pure]
      rw [etype_cut hmerged]
      split
      · rename_i hp
        rw [exists_paddedType he]
        simp [hp]
      · rename_i hp
        simp [hp, he]
  | some m =>
      obtain ⟨source, i, t', hg, _, hi, rfl, _, _⟩ := hb.spans m hm
      have hmerged : mergedLayout (ofSteps fill root steps) drop counts axes =
          .ok (source, Layout.ofSpans (Span.mergeAll i o)) := by
        simp [mergedLayout, hm, hg, hb.shape_eq, ho, Layout.merge_ofSpans, bind, Except.bind, pure,
          Except.pure]
      obtain ⟨hproto, htype⟩ := offered_source hm hg
      obtain ⟨hp1, hp2⟩ := hi.isPadded_mergeAll hf
      rw [htype, Layout.isPadded_ofSpans] at he
      rw [etype_cut hmerged, Layout.isPadded_ofSpans, Layout.isPadded_ofSpans, ← hproto]
      -- the type of the source is known, and its fill as well if the lower layout is padded
      have hsource : (∃ e, source.etype.get = .ok e) ∧
          (i.any Span.isPadded = true → ∃ p, source.prototype.get = .ok p) := by
        obtain ⟨e, he⟩ := he
        split at he
        · have hpad := he
          obtain ⟨e', he', _⟩ := bind_eq_ok.mp hpad
          exact ⟨⟨e', he'⟩, fun _ => (exists_paddedType ⟨e', he'⟩).mp ⟨e, he⟩⟩
        · rename_i hn
          exact ⟨⟨e, he⟩, fun hp => absurd hp hn⟩
      split
      · rename_i hp
        rw [exists_paddedType hsource.1]
        constructor
        · intro h _
          exact h
        · intro h
          rcases hp2 hp with hp | hp
          · exact hsource.2 hp
          · exact h hp
      · rename_i hp
        constructor
        · intro _ ho
          exact absurd (hp1 ho) hp
        · intro _
          exact hsource.1

end Level

namespace View

variable {root root' : Root Item} {r r' t u : Shape} {v v' : View Item} {g : Grid Item} {x : Step}
  {l : Link}

/-- One more transform on two arrays that render to the same array: the results are alike if both
can be collected and the fills are alike wherever the transform shows one. -/
theorem RendersTo.under_alike (h : StandsOn root r v t) (h' : StandsOn root' r' v' t)
    (hg : v.RendersTo t g) (hg' : v'.RendersTo t g) (hs : x.IsSound t) (hw : x.isWindow = false)
    (hu : x.shapeOver (.ofShape t) = .ok (.ofShape u)) (hl : x.linkOver (.ofShape t) = .ok l) :
    (∃ a b, (Item.view (v.under x)).render = .ok a ∧ (Item.view (v'.under x)).render = .ok b ∧
        Item.Alike a b) ↔
      Tower.IsSupplied (v.under x).settled u ∧ Tower.IsSupplied (v'.under x).settled u ∧
        ((∃ i, u.Holds i ∧ l.reach i = none) →
          ∃ p q, v.prototype = .ok p ∧ v'.prototype = .ok q ∧ Item.Alike p.stored q.stored) := by
  obtain ⟨ls, rc, hls, hr, hshown⟩ := hg.cells
  obtain ⟨ls', rc', hls', hr', hshown'⟩ := hg'.cells
  obtain ⟨rfl, hst⟩ := h
  obtain ⟨rfl, hst'⟩ := h'
  have h : StandsOn v.root r v t := ⟨rfl, hst⟩
  have h' : StandsOn v'.root r' v' t := ⟨rfl, hst'⟩
  obtain ⟨ms, _, hc, _⟩ := h.links_under hs hu hl hls
  obtain ⟨cells, hcells, hcell⟩ := h.cells_under hs hu hl hls hr
  obtain ⟨cells', hcells', hcell'⟩ := h'.cells_under hs hu hl hls' hr'
  have hshape := (shape_settled _).trans (h.above hs hu).shape_eq
  have hshape' := (shape_settled _).trans (h'.above hs hu).shape_eq
  rw [render_under, render_under, Tower.alike_map_iff,
    Tower.collect_alike hshape hshape' hcells hcells']
  rw [prototype_under hw] at hcell hcell'
  have hsource : (∀ i, u.Holds i → ∃ x y, cells.cell (.int i) = .ok x ∧
        cells'.cell (.int i) = .ok y ∧ Item.Alike x.stored y.stored) ↔
      ((∃ i, u.Holds i ∧ l.reach i = none) →
          ∃ p q, v.prototype = .ok p ∧ v'.prototype = .ok q ∧ Item.Alike p.stored q.stored) := by
    constructor
    · rintro hall ⟨i, hi, hn⟩
      obtain ⟨p, q, hp, hq, ha⟩ := hall i hi
      rw [hcell i hi, hn] at hp
      rw [hcell' i hi, hn] at hq
      exact ⟨p, q, hp, hq, ha⟩
    · intro hfill i hi
      rw [hcell i hi, hcell' i hi]
      cases hj : l.reach i with
      | none => exact hfill ⟨i, hi, hj⟩
      | some j =>
          obtain ⟨y, k, hy, hyi⟩ := hshown j (hc.holds hi hj)
          obtain ⟨z, k', hz, hzi⟩ := hshown' j (hc.holds hi hj)
          exact stored_alike ⟨y, k, hy, hyi⟩ ⟨z, k', hz, hzi⟩
  rw [hsource]

/-- A section has an element type if its own layout shows no fills or the fill is known. -/
theorem StandsOn.exists_etype_cut (h : StandsOn root r v t) (he : ∃ e, v.etype = .ok e)
    (style : Cut) {drop : Bool} {counts : List Int} {axes : Option (List Int)} {o : List Span}
    (ho : Section.layout drop counts axes (.ofShape t) = .ok (Layout.ofSpans o))
    (hf : Span.FitAll o t) :
    (∃ e, (v.under (.cut style drop counts axes)).etype = .ok e) ↔
      ((Layout.ofSpans o).isPadded = true → ∃ p, v.prototype = .ok p) := by
  have hk := h.stands.keeps Item.fillOf
  obtain ⟨rfl, _⟩ := h
  have hbase : v.etype = (Level.ofSteps Item.fillOf v.root.facts v.steps).stage.etype.get :=
    Tower.etype_facts
  have hfill : v.prototype = (Level.ofSteps Item.fillOf v.root.facts v.steps).stage.prototype.get :=
    Tower.prototype_facts
  have htype := Level.exists_etype_cut hk (hbase ▸ he) style ho hf
  rwa [← hfill] at htype

/-- A section can be collected if the fill is known wherever it may be needed. -/
theorem isSupplied_cut (h : StandsOn root r v t) (he : ∃ e, v.etype = .ok e) (style : Cut)
    {drop : Bool} {counts : List Int} {axes : Option (List Int)} {o : List Span}
    (ho : Section.layout drop counts axes (.ofShape t) = .ok (Layout.ofSpans o))
    (hf : Span.FitAll o t) :
    Tower.IsSupplied (v.under (.cut style drop counts axes)).settled (Span.shape o) ↔
      ((Layout.ofSpans o).isPadded = true ∨ (Span.shape o).size = 0 →
        ∃ p, v.prototype = .ok p) := by
  have htype := h.exists_etype_cut he style ho hf
  have hown : (v.under (.cut style drop counts axes)).prototype = v.prototype :=
    prototype_under rfl
  constructor
  · rintro ⟨he', hp'⟩
    rw [etype_settled] at he'
    rw [prototype_settled, hown] at hp'
    rintro (hp | h0)
    · exact htype.mp he' hp
    · exact hp' h0
  · intro hp
    constructor
    · rw [etype_settled]
      exact htype.mpr fun hpad => hp (.inl hpad)
    · rw [prototype_settled, hown]
      exact fun h0 => hp (.inr h0)

/-- A section of two arrays that render to the same array. If the one knows its fill, its section
renders; the section of the other one renders to an alike array if it knows its fill wherever it may
be needed, and if the fills are alike wherever they show. -/
theorem RendersTo.cut_alike (h : StandsOn root r v t) (h' : StandsOn root' r' v' t)
    (hg : v.RendersTo t g) (hg' : v'.RendersTo t g) {q : Item} (hq : v'.prototype = .ok q)
    (style : Cut) {drop : Bool} {counts : List Int} {axes : Option (List Int)} {o : List Span}
    (ho : Section.layout drop counts axes (.ofShape t) = .ok (Layout.ofSpans o))
    (hf : Span.FitAll o t) :
    ∃ b, (Item.view (v'.under (.cut style drop counts axes))).render = .ok b ∧
      ((∃ a, (Item.view (v.under (.cut style drop counts axes))).render = .ok a ∧
          Item.Alike a b) ↔
        ((Layout.ofSpans o).isPadded = true ∨ (Span.shape o).size = 0 →
          ∃ p, v.prototype = .ok p ∧
            ((Layout.ofSpans o).isPadded = true → (Span.shape o).size ≠ 0 →
              Item.Alike p.stored q.stored))) := by
  have hu : (Step.cut style drop counts axes).shapeOver (.ofShape t) =
      .ok (.ofShape (Span.shape o)) := by
    simp only [Step.shapeOver, ho, Layout.extents_ofSpans, bind, Except.bind]
  have hl : (Step.cut style drop counts axes).linkOver (.ofShape t) =
      .ok (Section.linkOf o t) := by
    simp only [Step.linkOver, ho, Section.link_ofSpans, bind, Except.bind]
  have hsup := isSupplied_cut h hg.etype style ho hf
  have hsup' := (isSupplied_cut h' hg'.etype style ho hf).mpr fun _ => ⟨q, hq⟩
  have hsound : Step.IsSound t (.cut style drop counts axes) := trivial
  have hboth := hg.under_alike h h' hg' hsound rfl hu hl
  obtain ⟨b, _, hb, _, _⟩ := (hg'.under_alike h' h' hg' hsound rfl hu hl).mpr
    ⟨hsup', hsup', fun _ => ⟨q, q, hq, hq, .refl _⟩⟩
  refine ⟨b, hb, ?_⟩
  -- the section of what is at hand can be rendered, so it is the only one to compare with
  have hpair : (∃ a, (Item.view (v.under (.cut style drop counts axes))).render = .ok a ∧
      Item.Alike a b) ↔ ∃ a b', (Item.view (v.under (.cut style drop counts axes))).render = .ok a ∧
        (Item.view (v'.under (.cut style drop counts axes))).render = .ok b' ∧ Item.Alike a b' := by
    constructor
    · rintro ⟨a, ha, hab⟩
      exact ⟨a, b, ha, hb, hab⟩
    · rintro ⟨a, b', ha, hb', hab⟩
      rw [hb] at hb'
      cases hb'
      exact ⟨a, ha, hab⟩
  rw [hpair, hboth, hsup, Section.exists_reach_none hf]
  constructor
  · rintro ⟨hp, _, hfill⟩ hneed
    obtain ⟨p, hp⟩ := hp hneed
    refine ⟨p, hp, fun hpad h0 => ?_⟩
    obtain ⟨p', q', hp', hq', ha⟩ := hfill ⟨hpad, h0⟩
    rw [hp] at hp'
    rw [hq] at hq'
    cases hp'
    cases hq'
    exact ha
  · intro hneed
    refine ⟨fun hn => ?_, hsup', fun hshown => ?_⟩
    · obtain ⟨p, hp, _⟩ := hneed hn
      exact ⟨p, hp⟩
    · obtain ⟨p, hp, ha⟩ := hneed (.inl hshown.1)
      exact ⟨p, q, hp, hq, ha hshown.1 hshown.2⟩

/-- A scalar in a shape of one cell renders to the same item in that shape. -/
theorem RendersTo.reshape_one (h : StandsOn root r v []) (hg : v.RendersTo [] g) {d : Shape}
    (hd : d.IsProper) (h1 : d.size = 1) :
    (v.under (.reshape .reshape d)).RendersTo d ⟨d, g.items, none⟩ := by
  obtain ⟨ls, rc, hls, hr, hshown⟩ := hg.cells
  have hlink : (Step.reshape .reshape d).linkOver (.ofShape []) =
      .ok (Link.identity (.ofShape d)) := by
    simp [Step.linkOver, Reshape.link, h1, bind, Except.bind, pure, Except.pure]
  have hholds {i : Int} (hi : d.Holds i) : Shape.Holds [] i := hi.of_size h1.symm
  have hmaps : (Link.identity (.ofShape d)).Maps d [] some := by
    refine Link.maps_linear hd fun i hi => ⟨rfl, ?_⟩
    rintro j ⟨⟩
    exact hholds hi
  obtain ⟨ms, hms, _, hreach⟩ := h.links_under (x := .reshape .reshape d) hd rfl hlink hls
  have hlen : g.items.length = d.size.toNat := by
    rw [hg.kept.length_eq, hg.shape_eq, h1]
    rfl
  refine ⟨rfl, ⟨hlen, hg.kept.items⟩, ?_, fun h0 => ?_, ms, rc, hms, hr, fun i hi => ?_⟩
  · obtain ⟨e, he⟩ := hg.etype
    have hshape := h.shape_eq
    refine ⟨e, ?_⟩
    rw [View.etype, View.facts, Tower.etype_facts] at he ⊢
    rw [View.shape, View.facts, Tower.shape_facts] at hshape
    simp [under, Level.ofSteps, Level.above, hshape, he, bind, Except.bind]
  · rw [h1] at h0
    exact absurd h0 Int.one_ne_zero
  · rw [hreach i hi, hmaps.reach_eq hi, Option.bind_some, prototype_under rfl]
    exact hshown i (hholds hi)

/-- The array is a section that shows fills of its own, if it shows any cell: its layout of the
array directly below is padded. -/
def Overtakes (w : View Item) : Prop :=
  ∃ style drop counts axes rest e l, w.steps = .cut style drop counts axes :: rest ∧
    (⟨w.root, rest⟩ : View Item).shape = .ok e ∧ Section.layout drop counts axes e = .ok l ∧
      l.isPadded = true

theorem overtakes_iff (h : v.shape = .ok (.ofShape t)) {style : Cut} {drop : Bool}
    {counts : List Int} {axes : Option (List Int)} {o : Layout}
    (ho : Section.layout drop counts axes (.ofShape t) = .ok o) :
    (v.under (.cut style drop counts axes)).Overtakes ↔ o.isPadded = true := by
  constructor
  · rintro ⟨_, _, _, _, _, e, l, hs, he, hl, hp⟩
    cases hs
    rw [show (⟨(v.under (.cut style drop counts axes)).root, v.steps⟩ : View Item) = v from rfl,
      h] at he
    cases he
    rw [ho] at hl
    cases hl
    exact hp
  · intro hp
    exact ⟨_, _, _, _, _, _, o, rfl, h, ho, hp⟩

theorem Raises.prototype_eq {w : View Item} (h : Raises v w) (hv : v.shape = .ok (.ofShape t)) :
    w.prototype = v.prototype := by
  rcases h.under hv with ⟨s, rfl, _, hs⟩ | ⟨dims, s, _, rfl, _, hs⟩
  · exact prototype_under hs
  · rw [prototype_under hs]
    exact prototype_under rfl

theorem shape_cut (h : StandsOn root r v t) {style : Cut} {drop : Bool} {counts : List Int}
    {axes : Option (List Int)} {o : List Span}
    (ho : Section.layout drop counts axes (.ofShape t) = .ok (Layout.ofSpans o)) :
    (v.under (.cut style drop counts axes)).shape = .ok (.ofShape (Span.shape o)) := by
  refine (h.above (x := .cut style drop counts axes) trivial ?_).shape_eq
  simp only [Step.shapeOver, ho, Layout.extents_ofSpans, bind, Except.bind]

/-- A take from two arrays that render to the same array, of which the one knows its fill. -/
theorem RendersTo.take_alike (h : StandsOn root r v t) (h' : StandsOn root' r' v' t)
    (hg : v.RendersTo t g) (hg' : v'.RendersTo t g) {q : Item} (hq : v'.prototype = .ok q)
    {counts : Item} {axis : Option Item} {origin : Origin} (ho : origin.IsWhole) {w : View Item}
    (hw : Item.take (.view v) counts axis origin = .ok w) :
    ∃ w' y, Item.take (.view v') counts axis origin = .ok w' ∧ (Item.view w').render = .ok y ∧
      ((∃ x, (Item.view w).render = .ok x ∧ Item.Alike x y) ↔
        (w.Overtakes ∨ w.IsEmpty → ∃ p, v.prototype = .ok p ∧
          (w.Overtakes → ¬ w.IsEmpty → Item.Alike p.stored q.stored))) := by
  have hrank : v'.rank = v.rank := by
    unfold rank
    rw [h.shape_eq, h'.shape_eq]
  rcases Item.cut_eq_ok ho hw with ⟨ks, axes, rfl, hcut⟩ | ⟨h0, ks, rfl, hcut⟩
  · have ht := (h.stands.keeps Item.fillOf).proper
    obtain ⟨o, hl, hf⟩ := Section.layout_ofShape false ks axes ht
    obtain ⟨y, hy, halike⟩ := hg.cut_alike h h' hg' hq .take hl hf
    refine ⟨_, y, hcut v' hrank, hy, ?_⟩
    rw [halike, overtakes_iff h.shape_eq hl, isEmpty_iff (shape_cut h hl)]
  · have hshape := h.shape_eq
    obtain rfl : t = [] := by
      rw [rank, hshape] at h0
      exact List.length_eq_zero_iff.mp (by simpa [bind, Except.bind, pure, Except.pure] using h0)
    have hd : Shape.IsProper (ks.map fun _ => 1) := Shape.isProper_ones ks
    have h1 : Shape.size (ks.map fun _ => 1) = 1 := Shape.size_ones ks
    generalize ks.map (fun _ => (1 : Int)) = d at hd h1 hcut ⊢
    obtain ⟨o, hl, hf⟩ := Section.layout_ofShape false ks none hd
    have hb : StandsOn root r (v.under (.reshape .reshape d)) d := h.reshape hd
    have hb' : StandsOn root' r' (v'.under (.reshape .reshape d)) d := h'.reshape hd
    have hown : (v.under (.reshape .reshape d)).prototype = v.prototype := prototype_under rfl
    have hown' : (v'.under (.reshape .reshape d)).prototype = .ok q :=
      (prototype_under rfl).trans hq
    obtain ⟨y, hy, halike⟩ := (hg.reshape_one h hd h1).cut_alike hb hb'
      (hg'.reshape_one h' hd h1) hown' .take hl hf
    refine ⟨_, y, hcut v' hrank, hy, ?_⟩
    rw [halike, hown, overtakes_iff hb.shape_eq hl, isEmpty_iff (shape_cut hb hl)]

/-- Rendering between a transform and a take changes nothing exactly where no fill is needed or the
two fills are alike: the one that the lazy take inherits from the array below the transform, and
the one that the take from the rendered array makes of its first item. The take from the rendered
array renders in any case. -/
theorem Grown.take_alike_take_render {a b : View Item}
    (h : Grown (fun v w => Raises v w ∨ HandsOut v w) root r a) (hm : root.IsMade)
    (hb : Raises a b) (hg : (Item.view b).render = .ok (.array g)) {counts : Item}
    {axis : Option Item} {origin : Origin} (ho : origin.IsWhole) {w : View Item}
    (hw : Item.take (.view b) counts axis origin = .ok w) :
    ∃ w' y, Item.take (.array g) counts axis origin = .ok w' ∧ (Item.view w').render = .ok y ∧
      ((∃ x, (Item.view w).render = .ok x ∧ Item.Alike x y) ↔
        (w.Overtakes ∨ w.IsEmpty → ∃ p, a.prototype = .ok p ∧
          (w.Overtakes → ¬ w.IsEmpty → Item.Alike p.stored g.prototype.stored))) := by
  obtain ⟨s, hs⟩ := h.exists_standsOn
  obtain ⟨t, ht⟩ := hs.raised hb (shape_of_render hg)
  have hk := ht.isKept_of_render hm hg
  have hr := ht.rendersTo hg hk
  have hgrid := hr.standsOn (ht.stands.keeps Item.fillOf).proper
  rw [← hb.prototype_eq hs.shape_eq]
  exact hr.take_alike ht hgrid hr.rendersTo_self rfl ho hw

/-- A text and a number of which the text is dropped. -/
def dropped : View Item :=
  (⟨.concrete (Grid.ofList [.text "x", .int 1]), []⟩ : View Item).under (.cut .drop true [1] none)

/-- Three items taken of the number that is left: the lazy take fills up with blanks, the take from
the rendered array with zeros. -/
theorem take_dropped_not_alike :
    ∃ w w' y, Item.take (.view dropped) (.int 3) none (.int 0) = .ok w ∧
      Item.take (.array (Grid.ofInts [1])) (.int 3) none (.int 0) = .ok w' ∧
      (Item.view w').render = .ok y ∧ ¬ ∃ x, (Item.view w).render = .ok x ∧ Item.Alike x y := by
  have root : Grown (fun v w => Raises v w ∨ HandsOut v w)
      (.concrete (Grid.ofList [.text "x", .int 1])) [2] ⟨_, []⟩ :=
    .root rfl (by simp [Shape.IsProper])
  have whole : Scalar.IsWhole (.int 0) := ⟨0, rfl⟩
  have drop : Item.drop (.view ⟨.concrete (Grid.ofList [.text "x", .int 1]), []⟩) (.int 1) none
    (.int 0) = .ok dropped := rfl
  have take : Item.take (.view dropped) (.int 3) none (.int 0) =
    .ok (dropped.under (.cut .take false [3] none)) := rfl
  have made := Root.isMade_ofList (l := [.text "x", .int 1])
    (List.forall_mem_cons.mpr ⟨Item.isKept_char rfl, List.forall_mem_singleton.mpr rfl⟩)
    (List.cons_ne_nil _ _)
  obtain ⟨w', y, hw', hy, halike⟩ :=
    root.take_alike_take_render made (.cut whole drop) rfl whole take
  refine ⟨_, w', y, take, hw', hy, fun hx => ?_⟩
  obtain ⟨p, hp, hfill⟩ := halike.mp hx (.inl ⟨_, _, _, _, _, _, _, rfl, rfl, rfl, rfl⟩)
  cases hp
  have hne : ¬ (dropped.under (.cut .take false [3] none)).IsEmpty := by
    rw [isEmpty_iff (s := [3]) rfl]
    decide
  have hblank : Item.Alike Item.blank (.int 0) :=
    hfill ⟨_, _, _, _, _, _, _, rfl, rfl, rfl, rfl⟩ hne
  rcases Item.alike_scalar.mp hblank with h0 | ⟨_, h0, heq⟩
  · cases h0
  · cases h0
    cases heq

end View
end LazyApl
