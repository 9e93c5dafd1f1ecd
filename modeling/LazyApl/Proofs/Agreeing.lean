import LazyApl.Proofs.Overtaking
/-!
# Sections that show the same

Spans that have come about in different ways may differ in how they are written: a run of no source
cells can start anywhere, and its fills can stand on either side of it. What counts is what a span
shows. Sections with spans that show the same of a common source render to the same array, fault by
fault; so a section of a section renders like the one section with the merged spans.
-/
namespace LazyApl

open Outcome

namespace Span

/-- Two spans show the same: they have as many cells, and at each cell they locate the same. -/
structure Agrees (s t : Span) : Prop where
  extent_eq : s.extent = t.extent
  locate_eq : ∀ c, 0 ≤ c → c < s.extent → s.locate c = t.locate c

variable {i i' m s s' t : Span} {n : Int}

theorem Agrees.refl (s : Span) : s.Agrees s := ⟨rfl, fun _ _ _ => rfl⟩

theorem Agrees.symm (h : s.Agrees t) : t.Agrees s :=
  ⟨h.extent_eq.symm, fun c h0 hc => (h.locate_eq c h0 (h.extent_eq ▸ hc)).symm⟩

theorem Agrees.trans (h : s.Agrees m) (h' : m.Agrees t) : s.Agrees t :=
  ⟨h.extent_eq.trans h'.extent_eq, fun c h0 hc =>
    (h.locate_eq c h0 hc).trans (h'.locate_eq c h0 (h.extent_eq ▸ hc))⟩

theorem Fits.isPadded_iff_locate (h : s.Fits n) :
    s.isPadded = true ↔ ∃ c, (0 ≤ c ∧ c < s.extent) ∧ s.locate c = none := by
  refine ⟨h.exists_fill, ?_⟩
  rintro ⟨c, hc, hn⟩
  by_contra hp
  obtain ⟨x, hx⟩ := isSome_locate (by simpa using hp) hc.1 hc.2
  rw [hx] at hn
  cases hn

theorem Agrees.isPadded_eq (h : s.Agrees t) (hs : s.Fits n) (ht : t.Fits n) :
    s.isPadded = t.isPadded := by
  rw [Bool.eq_iff_iff, hs.isPadded_iff_locate, ht.isPadded_iff_locate, ← h.extent_eq]
  refine exists_congr fun c => and_congr_right fun hc => ?_
  rw [h.locate_eq c hc.1 hc.2]

theorem Agrees.merge (hi : i.Agrees i') (hs : s.Agrees s') (fi : i.Fits n) (fi' : i'.Fits n)
    (fs : s.Fits i.extent) (fs' : s'.Fits i.extent) :
    (Span.merge i s).Agrees (Span.merge i' s') := by
  rw [hi.extent_eq] at fs'
  refine ⟨?_, fun c h0 hc => ?_⟩
  · rw [extent_merge fi.isProper fs, extent_merge fi'.isProper fs', hs.extent_eq]
  · rw [extent_merge fi.isProper fs] at hc
    rw [locate_merge fi.isProper fs, locate_merge fi'.isProper fs', ← hs.locate_eq c h0 hc]
    cases hx : s.locate c with
    | none => rfl
    | some x =>
        have hb := fs.locate_bounds hx
        exact hi.locate_eq x hb.1 hb.2

theorem agrees_merge_assoc (fi : i.Fits n) (fm : m.Fits i.extent) (fs : s.Fits m.extent) :
    (Span.merge (Span.merge i m) s).Agrees (Span.merge i (Span.merge m s)) := by
  have fim := fi.merge fm
  have fs' : s.Fits (Span.merge i m).extent := by rwa [extent_merge fi.isProper fm]
  refine ⟨?_, fun c _ _ => ?_⟩
  · rw [extent_merge fim.isProper fs', extent_merge fi.isProper (fm.merge fs),
      extent_merge fm.isProper fs]
  · rw [locate_merge fim.isProper fs', locate_merge fi.isProper (fm.merge fs),
      locate_merge fm.isProper fs, Option.bind_assoc]
    congr 1
    exact funext fun x => locate_merge fi.isProper fm x

theorem agrees_whole_merge (hn : 0 ≤ n) (fs : s.Fits n) : (Span.merge (whole n) s).Agrees s := by
  have hw := fits_whole hn
  have fs' : s.Fits (whole n).extent := by rwa [extent_whole]
  refine ⟨extent_merge hw.isProper fs', fun c _ _ => ?_⟩
  rw [locate_merge hw.isProper fs']
  cases hx : s.locate c with
  | none => rfl
  | some x =>
      have hb := fs.locate_bounds hx
      exact locate_whole hb.1 hb.2

theorem agrees_merge_whole (fs : s.Fits n) : (Span.merge s (whole s.extent)).Agrees s := by
  have hw := fits_whole fs.extent_nonneg
  refine ⟨(extent_merge fs.isProper hw).trans (extent_whole _), fun c h0 hc => ?_⟩
  rw [extent_merge fs.isProper hw, extent_whole] at hc
  rw [locate_merge fs.isProper hw, locate_whole h0 hc, Option.bind_some]

def AgreeAll (l l' : List Span) : Prop := List.Forall₂ Agrees l l'

variable {k k' l l' o : List Span} {t : Shape} {c : List Int}

theorem AgreeAll.refl (l : List Span) : AgreeAll l l :=
  List.forall₂_same.mpr fun s _ => .refl s

theorem AgreeAll.symm (h : AgreeAll l l') : AgreeAll l' l := h.flip.imp fun _ _ h => h.symm

theorem AgreeAll.trans (h : AgreeAll k l) (h' : AgreeAll l o) : AgreeAll k o := by
  induction h generalizing o with
  | nil => exact h'
  | cons hs _ ih =>
      cases h' with
      | cons hs' h' => exact .cons (hs.trans hs') (ih h')

theorem AgreeAll.shape_eq (h : AgreeAll l l') : shape l = shape l' := by
  induction h with
  | nil => rfl
  | cons hs _ ih => simpa [shape] using ⟨hs.extent_eq, ih⟩

theorem AgreeAll.locateAll_eq (h : AgreeAll l l') (hc : (shape l).Within c) :
    locateAll l c = locateAll l' c := by
  induction h generalizing c with
  | nil => rfl
  | cons hs _ ih =>
      cases hc with
      | cons hx hc => rw [locateAll, locateAll, hs.locate_eq _ hx.1 hx.2, ih hc]

theorem AgreeAll.isPadded_eq (h : AgreeAll l l') (hl : FitAll l t) (hl' : FitAll l' t) :
    l.any isPadded = l'.any isPadded := by
  induction h generalizing t with
  | nil => rfl
  | cons hs _ ih =>
      cases hl with
      | cons fs hl =>
          cases hl' with
          | cons fs' hl' => rw [List.any_cons, List.any_cons, hs.isPadded_eq fs fs', ih hl hl']

theorem AgreeAll.mergeAll (hk : AgreeAll k k') (hl : AgreeAll l l') (fk : FitAll k t)
    (fk' : FitAll k' t) (fl : FitAll l (shape k)) (fl' : FitAll l' (shape k)) :
    AgreeAll (mergeAll k l) (mergeAll k' l') := by
  induction hk generalizing l l' t with
  | nil =>
      cases fl
      cases fl'
      exact .nil
  | cons hs _ ih =>
      cases fk with
      | cons fs fk =>
          cases fk' with
          | cons fs' fk' =>
              cases hl with
              | nil => cases fl
              | cons ho hl =>
                  cases fl with
                  | cons fo fl =>
                      cases fl' with
                      | cons fo' fl' =>
                          exact .cons (hs.merge ho fs fs' fo fo') (ih hl fk fk' fl fl')

theorem agreeAll_mergeAll_assoc (fk : FitAll k t) (fl : FitAll l (shape k))
    (fo : FitAll o (shape l)) :
    AgreeAll (mergeAll (mergeAll k l) o) (mergeAll k (mergeAll l o)) := by
  induction fk generalizing l o with
  | nil => exact .nil
  | cons fs _ ih =>
      cases fl with
      | cons fm fl =>
          cases fo with
          | cons ft fo => exact .cons (agrees_merge_assoc fs fm ft) (ih fl fo)

theorem agreeAll_whole_mergeAll (ht : t.IsProper) (fl : FitAll l t) :
    AgreeAll (mergeAll (t.map whole) l) l := by
  induction fl with
  | nil => exact .nil
  | cons fs _ ih =>
      obtain ⟨hn, ht⟩ := Shape.isProper_cons.mp ht
      exact .cons (agrees_whole_merge hn fs) (ih ht)

theorem agreeAll_mergeAll_whole (fl : FitAll l t) :
    AgreeAll (mergeAll l ((shape l).map whole)) l := by
  induction fl with
  | nil => exact .nil
  | cons fs _ ih => exact .cons (agrees_merge_whole fs) ih

end Span

theorem Section.reach_linkOf_eq {l l' : List Span} {t : Shape} (h : Span.AgreeAll l l')
    (fl : Span.FitAll l t) (fl' : Span.FitAll l' t) {i : Int} (hi : (Span.shape l).Holds i) :
    (linkOf l t).reach i = (linkOf l' t).reach i := by
  rw [(maps_linkOf fl).reach_eq hi, (maps_linkOf fl').reach_eq (h.shape_eq ▸ hi), ← h.shape_eq,
    h.locateAll_eq (Shape.coordinates_within fl.shape_isProper hi)]

namespace Level

variable {fill : Item → Except Fault Item} {root : Facts Item} {base : Level} {r t : Shape}

/-- What a level shows of a source that sections above it share with it. -/
structure ShowsOf (base : Level) (r t : Shape) (source : Stage) (i : List Span) (u : Shape) :
    Prop where
  shape_eq : source.shape.get = .ok (.ofShape u)
  fits : Span.FitAll i u
  shown : Span.shape i = t
  descends : Descends source u r
  merged : ∀ drop counts axes o, Section.layout drop counts axes (.ofShape t) =
    .ok (Layout.ofSpans o) → Span.FitAll o t → ∃ l,
      mergedLayout base drop counts axes = .ok (source, Layout.ofSpans l) ∧ Span.FitAll l u ∧
        Span.AgreeAll l (Span.mergeAll i o)

theorem mergedLayout_above (style : Cut) {drop drop' : Bool} {counts counts' : List Int}
    {axes axes' : Option (List Int)} {source : Stage} {l o : List Span}
    (hm : mergedLayout base drop counts axes = .ok (source, Layout.ofSpans l))
    (ho : Section.layout drop' counts' axes' (.ofShape (Span.shape l)) = .ok (Layout.ofSpans o)) :
    mergedLayout (above fill root (.cut style drop counts axes) base) drop' counts' axes' =
      .ok (source, Layout.ofSpans (Span.mergeAll l o)) := by
  have hshape : (above fill root (.cut style drop counts axes) base).stage.shape.get =
      .ok (.ofShape (Span.shape l)) := by
    simp [above, hm, Layout.extents_ofSpans, bind, Except.bind]
  rw [mergedLayout, hshape]
  change (mergedLayout base drop counts axes >>= _) = _
  rw [hm]
  simp [ho, Layout.merge_ofSpans, bind, Except.bind, pure, Except.pure]

theorem Keeps.exists_showsOf (hb : Keeps r t base) :
    ∃ source i u, ShowsOf base r t source i u := by
  cases hm : base.spans? with
  | none =>
      refine ⟨base.stage, t.map .whole, t, hb.shape_eq, Span.fitAll_whole hb.proper, ?_,
        hb.descends, fun drop counts axes o ho hf => ⟨o, ?_, hf,
          (Span.agreeAll_whole_mergeAll hb.proper hf).symm⟩⟩
      · simp [Span.shape, Function.comp_def]
      · simp [mergedLayout, hm, hb.shape_eq, ho, bind, Except.bind, pure, Except.pure]
  | some m =>
      obtain ⟨source, i, u, hg, hs, hi, rfl, hd, _⟩ := hb.spans m hm
      refine ⟨source, i, u, hs, hi, rfl, hd, fun drop counts axes o ho hf =>
        ⟨Span.mergeAll i o, ?_, hi.mergeAll hf, .refl _⟩⟩
      simp [mergedLayout, hm, hg, hb.shape_eq, ho, Layout.merge_ofSpans, bind, Except.bind, pure,
        Except.pure]

end Level

namespace Tower

variable {f f' : Facts Item} {s : Shape}

/-- Arrays are collected into the same array, or with the same fault, if everything that is read for
it is the same. -/
theorem collect_congr (hs : f.shape.get = .ok (.ofShape s)) (hs' : f'.shape.get = .ok (.ofShape s))
    (hread : (f.generator .now >>= fun g => (upTo s.size).mapM fun i : Int => g.cell i) =
      f'.generator .now >>= fun g => (upTo s.size).mapM fun i : Int => g.cell i)
    (he : f.etype.get = f'.etype.get) (hp : f.prototype .now = f'.prototype .now) :
    collect f = collect f' := by
  rw [collect_eq hs, collect_eq hs', ← bind_assoc, ← bind_assoc, hread, he, hp]

variable {fill : Item → Except Fault Item} {root : Facts Item} {steps steps' : List Step}
  {style style' : Cut} {drop drop' : Bool} {counts counts' : List Int}
  {axes axes' : Option (List Int)} {source : Stage} {l l' : List Span} {r u : Shape}

theorem chain_cut (style : Cut) (hu : source.shape.get = .ok (.ofShape u))
    (hm : Level.mergedLayout (Level.ofSteps fill root steps) drop counts axes =
      .ok (source, Layout.ofSpans l)) :
    (Level.above fill root (.cut style drop counts axes)
      (Level.ofSteps fill root steps)).stage.chain.get =
        Level.extend source (.ok (Section.linkOf l u)) := by
  simp [Level.above, hm, hu, Section.link_ofSpans, bind, Except.bind]

/-- Two towers with sections on top that show the same of one source are collected into the same
array, or with the same fault. -/
theorem collect_cut_congr (hu : source.shape.get = .ok (.ofShape u))
    (hd : Level.Descends source u r)
    (hm : Level.mergedLayout (Level.ofSteps fill root steps) drop counts axes =
      .ok (source, Layout.ofSpans l))
    (hm' : Level.mergedLayout (Level.ofSteps fill root steps') drop' counts' axes' =
      .ok (source, Layout.ofSpans l'))
    (fl : Span.FitAll l u) (fl' : Span.FitAll l' u) (h : Span.AgreeAll l l')
    (hp : (Level.ofSteps fill root steps).stage.prototype.get =
      (Level.ofSteps fill root steps').stage.prototype.get) :
    collect (facts fill root (.cut style drop counts axes :: steps)) =
      collect (facts fill root (.cut style' drop' counts' axes' :: steps')) := by
  have hshape : (facts fill root (.cut style drop counts axes :: steps)).shape.get =
      .ok (.ofShape (Span.shape l)) := by
    simp [facts, Level.ofSteps, Level.above, hm, Layout.extents_ofSpans, bind, Except.bind]
  have hshape' : (facts fill root (.cut style' drop' counts' axes' :: steps')).shape.get =
      .ok (.ofShape (Span.shape l)) := by
    simp [facts, Level.ofSteps, Level.above, hm', Layout.extents_ofSpans, h.shape_eq, bind,
      Except.bind]
  have hchain := chain_cut style hu hm
  have hchain' := chain_cut style' hu hm'
  refine collect_congr hshape hshape' ?_ ?_ hp
  · simp only [facts, Level.ofSteps, hchain, hchain']
    cases hls : source.chain.get with
    | error e => simp [Level.extend, hls, bind, Except.bind]
    | ok ls =>
        simp only [Level.extend, hls, bind, Except.bind, pure, Except.pure]
        cases root.generator .now with
        | error e => rfl
        | ok cells =>
            refine mapM_congr fun i hi => ?_
            have hi := mem_upTo.mp hi
            have hchained := Link.Chained.cons (Section.maps_linkOf fl).carries (hd ls hls)
            have hchained' := Link.Chained.cons (Section.maps_linkOf fl').carries (hd ls hls)
            have hcompose : Link.compose (Section.linkOf l u :: ls) (.int i) =
                Link.compose (Section.linkOf l' u :: ls) (.int i) := by
              rw [hchained.compose_eq hi, hchained'.compose_eq (h.shape_eq ▸ hi), Link.reachAll,
                Link.reachAll, Section.reach_linkOf_eq h fl fl' hi]
            have hfill : (Level.above fill root (.cut style drop counts axes)
                  (Level.ofSteps fill root steps)).stage.prototype.get =
                (Level.above fill root (.cut style' drop' counts' axes')
                  (Level.ofSteps fill root steps')).stage.prototype.get := hp
            rw [Gen.cell_indexed, Gen.cell_indexed, Level.source, Level.source, hcompose, hfill]
  · rw [etype_facts, etype_facts, Level.ofSteps, Level.ofSteps, Level.etype_cut hm,
      Level.etype_cut hm', Layout.isPadded_ofSpans, Layout.isPadded_ofSpans, h.isPadded_eq fl fl']

end Tower

namespace View

variable {root : Root Item} {r t : Shape} {v : View Item} {style style' : Cut}
  {drop drop' : Bool} {counts counts' : List Int} {axes axes' : Option (List Int)}
  {o o' q : List Span}

theorem StandsOn.render_cut_congr (h : StandsOn root r v t)
    (ho : Section.layout drop counts axes (.ofShape t) = .ok (Layout.ofSpans o))
    (ho' : Section.layout drop' counts' axes' (.ofShape t) = .ok (Layout.ofSpans o'))
    (fo : Span.FitAll o t) (fo' : Span.FitAll o' t) (hagree : Span.AgreeAll o o') :
    (Item.view (v.under (.cut style drop counts axes))).render =
      (Item.view (v.under (.cut style' drop' counts' axes'))).render := by
  obtain ⟨source, i, u, hs⟩ := (h.stands.keeps Item.fillOf).exists_showsOf
  obtain ⟨rfl, _⟩ := h
  obtain rfl := hs.shown
  rw [← Item.ofSteps_settled] at hs
  obtain ⟨l, hm, fl, hl⟩ := hs.merged _ _ _ o ho fo
  obtain ⟨l', hm', fl', hl'⟩ := hs.merged _ _ _ o' ho' fo'
  have hboth := (Span.AgreeAll.refl i).mergeAll hagree hs.fits hs.fits fo fo'
  rw [render_under, render_under]
  exact congrArg (Item.array <$> ·) (Tower.collect_cut_congr hs.shape_eq hs.descends hm hm' fl fl'
    ((hl.trans hboth).trans hl'.symm) rfl)

/-- A section of a section renders to the same array as one section that shows what the two
together show. -/
theorem StandsOn.render_cut_cut (h : StandsOn root r v t)
    (ho : Section.layout drop counts axes (.ofShape t) = .ok (Layout.ofSpans o))
    (ho' : Section.layout drop' counts' axes' (.ofShape (Span.shape o)) = .ok (Layout.ofSpans o'))
    (fo : Span.FitAll o t) (fo' : Span.FitAll o' (Span.shape o)) {style'' : Cut} {drop'' : Bool}
    {counts'' : List Int} {axes'' : Option (List Int)}
    (hq : Section.layout drop'' counts'' axes'' (.ofShape t) = .ok (Layout.ofSpans q))
    (fq : Span.FitAll q t) (hagree : Span.AgreeAll (Span.mergeAll o o') q) :
    (Item.view ((v.under (.cut style drop counts axes)).under
        (.cut style' drop' counts' axes'))).render =
      (Item.view (v.under (.cut style'' drop'' counts'' axes''))).render := by
  obtain ⟨source, i, u, hs⟩ := (h.stands.keeps Item.fillOf).exists_showsOf
  obtain ⟨rfl, _⟩ := h
  obtain rfl := hs.shown
  rw [← Item.ofSteps_settled] at hs
  obtain ⟨l, hm, fl, hl⟩ := hs.merged _ _ _ o ho fo
  obtain ⟨l', hm', fl', hl'⟩ := hs.merged _ _ _ q hq fq
  have fio := hs.fits.mergeAll fo
  have hshape := Span.shape_mergeAll hs.fits fo
  -- the upper section is merged into the layout that the lower one has been merged into
  have hown : Section.layout drop' counts' axes' (.ofShape (Span.shape l)) =
      .ok (Layout.ofSpans o') := by rwa [hl.shape_eq, hshape]
  have hupper : Level.mergedLayout (Level.ofSteps (fun y => .ok y.typify)
      (Item.settledRoot v.root) (.cut style drop counts axes :: v.steps)) drop' counts' axes' =
      .ok (source, Layout.ofSpans (Span.mergeAll l o')) := Level.mergedLayout_above style hm hown
  have fo'' : Span.FitAll o' (Span.shape l) := by rwa [hl.shape_eq, hshape]
  have h1 := hl.mergeAll (.refl o') fl fio fo'' fo''
  have h2 := Span.agreeAll_mergeAll_assoc hs.fits fo fo'
  have h3 := (Span.AgreeAll.refl i).mergeAll hagree hs.fits hs.fits (fo.mergeAll fo') fq
  rw [render_under, render_under]
  exact congrArg (Item.array <$> ·) (Tower.collect_cut_congr hs.shape_eq hs.descends hupper hm'
    (fl.mergeAll fo'') fl' (((h1.trans h2).trans h3).trans hl'.symm) rfl)

/-- A section that shows the array as it is has its element type. -/
theorem StandsOn.etype_cut_whole (h : StandsOn root r v t)
    (ho : Section.layout drop counts axes (.ofShape t) = .ok (Layout.ofSpans (t.map .whole))) :
    (v.under (.cut style drop counts axes)).etype = v.etype := by
  have hk := h.stands.keeps Item.fillOf
  have hw := Span.fitAll_whole hk.proper
  obtain ⟨rfl, _⟩ := h
  rw [View.etype, View.etype, View.facts, View.facts, Tower.etype_facts, Tower.etype_facts]
  change (Level.above Item.fillOf v.root.facts (.cut style drop counts axes)
    (Level.ofSteps Item.fillOf v.root.facts v.steps)).stage.etype.get = _
  cases hm : (Level.ofSteps Item.fillOf v.root.facts v.steps).spans? with
  | none =>
      have hmerged : Level.mergedLayout (Level.ofSteps Item.fillOf v.root.facts v.steps) drop
          counts axes = .ok ((Level.ofSteps Item.fillOf v.root.facts v.steps).stage,
            Layout.ofSpans (t.map .whole)) := by
        simp only [Level.mergedLayout, hm, hk.shape_eq, ho, bind, Except.bind, pure, Except.pure]
      rw [Level.etype_cut hmerged, Layout.isPadded_ofSpans]
      simp
  | some m =>
      obtain ⟨source, i, u, hg, hu, hi, rfl, hd, hc⟩ := hk.spans m hm
      have hmerged : Level.mergedLayout (Level.ofSteps Item.fillOf v.root.facts v.steps) drop
          counts axes =
            .ok (source, Layout.ofSpans (Span.mergeAll i ((Span.shape i).map .whole))) := by
        simp only [Level.mergedLayout, hm, hg, hk.shape_eq, ho, Layout.merge_ofSpans, bind,
          Except.bind, pure, Except.pure]
      rw [Level.etype_cut hmerged, (Level.offered_source hm hg).2, Layout.isPadded_ofSpans,
        Layout.isPadded_ofSpans,
        (Span.agreeAll_mergeAll_whole hi).isPadded_eq (hi.mergeAll hw) hi]

end View
end LazyApl
