import LazyApl.Transform
import LazyApl.Proofs.Links
/-!
# Merged sections

A section shows a run of source cells on every axis, with fill cells around it. The span that two
sections are merged into shows at every cell what the upper one shows of what the lower one shows.
This holds axis by axis, then for the layouts of whole arrays, and hence for the links made of them.
-/
namespace LazyApl

namespace Span

/-- The run of source cells lies on an axis of so many cells, and no number of fills is negative. -/
structure Fits (s : Span) (n : Int) : Prop where
  start_nonneg : 0 ≤ s.start
  start_le : s.start ≤ s.stop
  stop_le : s.stop ≤ n
  before_nonneg : 0 ≤ s.before
  after_nonneg : 0 ≤ s.after

theorem fits_whole {n : Int} (hn : 0 ≤ n) : (whole n).Fits n := by
  constructor <;> simp [whole, hn]

theorem fits_take {n : Int} (hn : 0 ≤ n) (count : Int) : (take count n).Fits n := by
  unfold take
  split <;> constructor <;> dsimp only <;> omega

theorem fits_drop {n : Int} (hn : 0 ≤ n) (count : Int) : (drop count n).Fits n := by
  unfold drop
  split <;> constructor <;> dsimp only <;> omega

/-- The span that a section by a count puts on an axis of `n`. -/
def cut (drop : Bool) (count n : Int) : Span := if drop then Span.drop count n else take count n

theorem fits_cut {n : Int} (hn : 0 ≤ n) (drop : Bool) (count : Int) :
    (cut drop count n).Fits n := by
  unfold cut
  split
  · exact fits_drop hn count
  · exact fits_take hn count

theorem Fits.extent_nonneg {s : Span} {n : Int} (h : s.Fits n) : 0 ≤ s.extent := by
  obtain ⟨_, _, _, _, _⟩ := h
  unfold extent length
  omega

theorem Fits.locate_bounds {s : Span} {n c x : Int} (h : s.Fits n) (hx : s.locate c = some x) :
    0 ≤ x ∧ x < n := by
  obtain ⟨_, _, _, _, _⟩ := h
  unfold locate length at hx
  dsimp only at hx
  split at hx
  · contradiction
  · obtain rfl := Option.some.inj hx
    omega

/-- A run of source cells that does not end before it starts, with no negative number of fills. -/
structure IsProper (s : Span) : Prop where
  start_le : s.start ≤ s.stop
  before_nonneg : 0 ≤ s.before
  after_nonneg : 0 ≤ s.after

theorem Fits.isProper {s : Span} {n : Int} (h : s.Fits n) : s.IsProper :=
  ⟨h.start_le, h.before_nonneg, h.after_nonneg⟩

section

variable {inner outer : Span}

theorem IsProper.merge (hi : inner.IsProper) (ho : outer.Fits inner.extent) :
    (Span.merge inner outer).IsProper := by
  obtain ⟨_, _, _⟩ := hi
  obtain ⟨_, _, ho, _, _⟩ := ho
  unfold extent length at ho
  unfold Span.merge length
  dsimp only
  split <;> constructor <;> dsimp only <;> omega

theorem merge_within (hi : inner.IsProper) (ho : outer.Fits inner.extent) :
    inner.start ≤ (merge inner outer).start ∧ (merge inner outer).stop ≤ inner.stop := by
  obtain ⟨_, _, _⟩ := hi
  obtain ⟨_, _, ho, _, _⟩ := ho
  unfold extent length at ho
  unfold Span.merge length
  dsimp only
  split <;> constructor <;> dsimp only <;> omega

theorem Fits.merge {n : Int} (hi : inner.Fits n) (ho : outer.Fits inner.extent) :
    (Span.merge inner outer).Fits n := by
  obtain ⟨hle, hb, ha⟩ := hi.isProper.merge ho
  obtain ⟨hstart, hstop⟩ := merge_within hi.isProper ho
  exact ⟨hi.start_nonneg.trans hstart, hle, hstop.trans hi.stop_le, hb, ha⟩

theorem extent_merge (hi : inner.IsProper) (ho : outer.Fits inner.extent) :
    (merge inner outer).extent = outer.extent := by
  obtain ⟨_, _, _⟩ := hi
  obtain ⟨_, _, ho, _, _⟩ := ho
  unfold extent length at ho
  unfold Span.merge length
  dsimp only
  split <;> unfold extent length <;> dsimp only <;> omega

/-- A merged span shows what the outer one shows of what the inner one shows. -/
theorem locate_merge (hi : inner.IsProper) (ho : outer.Fits inner.extent) (c : Int) :
    (merge inner outer).locate c = (outer.locate c).bind inner.locate := by
  obtain ⟨_, _, _⟩ := hi
  obtain ⟨_, _, ho, _, _⟩ := ho
  unfold extent length at ho
  unfold Span.merge
  dsimp only
  split
  · -- no source cell is left, so each cell of the outer run is a fill of the inner span
    rename_i hlt
    unfold locate length
    dsimp only
    unfold length at hlt
    rw [if_pos (by omega)]
    split
    · rfl
    · rw [Option.bind_some, if_pos (by omega)]
  · rename_i hlt
    unfold locate length
    dsimp only
    unfold length at hlt
    split
    · split
      · rfl
      · rw [Option.bind_some, if_pos (by omega)]
    · rw [if_neg (by omega), Option.bind_some, if_neg (by omega)]
      congr 1
      omega

/-- Merging is composition: a span of what a span shows is one span with the cells of the outer one,
the source cells of which are among those of the inner one, and it shows at every place what the
outer one shows of what the inner one shows. -/
theorem merge_composes (hi : inner.IsProper) (ho : outer.Fits inner.extent) :
    ∃ m, (AxisSpan.whole inner).merge (.whole outer) = .ok (.whole m) ∧
      m.extent = outer.extent ∧ m.IsProper ∧ (inner.start ≤ m.start ∧ m.stop ≤ inner.stop) ∧
      ∀ c, m.locate c = (outer.locate c).bind inner.locate :=
  ⟨merge inner outer, AxisSpan.merge_whole inner outer, extent_merge hi ho, hi.merge ho,
    merge_within hi ho, locate_merge hi ho⟩

/-- Two fills and five source cells, of which the second to the fourth cell and three fills are
shown: one fill, the first two source cells, and the fills behind them. -/
theorem padded_merge_composes :
    IsProper ⟨0, 5, 2, 0⟩ ∧ Fits ⟨1, 4, 0, 3⟩ (extent ⟨0, 5, 2, 0⟩) ∧
      merge ⟨0, 5, 2, 0⟩ ⟨1, 4, 0, 3⟩ = ⟨0, 2, 1, 3⟩ ∧
      locate ⟨0, 2, 1, 3⟩ 1 = (locate ⟨1, 4, 0, 3⟩ 1).bind (locate ⟨0, 5, 2, 0⟩) := by
  have hi : IsProper ⟨0, 5, 2, 0⟩ := by constructor <;> decide
  have ho : Fits ⟨1, 4, 0, 3⟩ (extent ⟨0, 5, 2, 0⟩) := by constructor <;> decide
  have hm : merge ⟨0, 5, 2, 0⟩ ⟨1, 4, 0, 3⟩ = ⟨0, 2, 1, 3⟩ := by decide
  obtain ⟨m, hmerge, -, -, -, hlocate⟩ := merge_composes hi ho
  rw [AxisSpan.merge_whole, hm] at hmerge
  cases hmerge
  exact ⟨hi, ho, hm, hlocate 1⟩

end

/-- The source coordinates at given coordinates; none if an axis shows a fill there. -/
def locateAll : List Span → List Int → Option (List Int)
  | s :: l, c :: cs => (s.locate c).bind fun x => (locateAll l cs).map (x :: ·)
  | _, _ => some []

def shape (l : List Span) : Shape := l.map extent

def FitAll (l : List Span) (s : Shape) : Prop := List.Forall₂ Fits l s

theorem FitAll.shape_isProper {l : List Span} {s : Shape} (h : FitAll l s) :
    (shape l).IsProper := by
  induction h with
  | nil => exact Shape.isProper_nil
  | cons hf _ ih => exact Shape.isProper_cons.mpr ⟨hf.extent_nonneg, ih⟩

theorem fitAll_whole {s : Shape} (hs : s.IsProper) : FitAll (s.map whole) s := by
  induction s with
  | nil => exact .nil
  | cons n s ih =>
      rw [Shape.isProper_cons] at hs
      exact .cons (fits_whole hs.1) (ih hs.2)

theorem FitAll.set {l : List Span} {s : Shape} (h : FitAll l s) {k : Nat} {t : Span}
    (ht : ∀ n, s[k]? = some n → t.Fits n) : FitAll (l.set k t) s := by
  induction h generalizing k with
  | nil => exact .nil
  | cons hf hr ih =>
      cases k with
      | zero => exact .cons (ht _ (by simp)) hr
      | succ k => exact .cons hf (ih fun n hn => ht n (by simpa using hn))

theorem FitAll.locateAll_within {l : List Span} {s : Shape} (h : FitAll l s) {c d : List Int}
    (hc : c.length = l.length) (hd : locateAll l c = some d) : s.Within d := by
  induction h generalizing c d with
  | nil =>
      obtain rfl := Option.some.inj hd
      exact Shape.within_nil
  | cons hf _ ih =>
      cases c with
      | nil => simp at hc
      | cons x c =>
          obtain ⟨y, hy, hd⟩ := Option.bind_eq_some_iff.mp hd
          obtain ⟨e, he, rfl⟩ := Option.map_eq_some_iff.mp hd
          exact Shape.within_cons.mpr ⟨hf.locate_bounds hy, ih (by simpa using hc) he⟩

/-- The spans of a section of a section, axis by axis. -/
def mergeAll (inner outer : List Span) : List Span := List.zipWith merge inner outer

theorem FitAll.mergeAll {inner outer : List Span} {s : Shape} (hi : FitAll inner s)
    (ho : FitAll outer (shape inner)) : FitAll (mergeAll inner outer) s := by
  induction hi generalizing outer with
  | nil =>
      cases ho
      exact .nil
  | cons hf _ ih =>
      cases ho with
      | cons ht hr => exact .cons (hf.merge ht) (ih hr)

theorem shape_mergeAll {inner outer : List Span} {s : Shape} (hi : FitAll inner s)
    (ho : FitAll outer (shape inner)) : shape (mergeAll inner outer) = shape outer := by
  induction hi generalizing outer with
  | nil =>
      cases ho
      rfl
  | cons hf _ ih =>
      cases ho with
      | cons ht hr =>
          have hs := ih hr
          unfold shape Span.mergeAll at hs ⊢
          rw [List.zipWith_cons_cons, List.map_cons, List.map_cons, extent_merge hf.isProper ht, hs]

theorem locateAll_mergeAll {inner outer : List Span} {s : Shape} (hi : FitAll inner s)
    (ho : FitAll outer (shape inner)) {c : List Int} (hc : c.length = outer.length) :
    locateAll (mergeAll inner outer) c = (locateAll outer c).bind (locateAll inner) := by
  induction hi generalizing outer c with
  | nil =>
      cases ho
      rfl
  | cons hf _ ih =>
      cases ho with
      | cons ht hr =>
          cases c with
          | nil => simp at hc
          | cons x c =>
              have hs := ih hr (c := c) (by simpa using hc)
              simp only [Span.mergeAll, List.zipWith_cons_cons, locateAll] at hs ⊢
              rw [locate_merge hf.isProper ht, hs]
              -- both sides are none as soon as one of the four readings is
              cases Span.locate _ x with
              | none => rfl
              | some y =>
                  cases locateAll _ c with
                  | none => simp
                  | some d => rfl

theorem isPadded_iff {s : Span} : s.isPadded = true ↔ s.before ≠ 0 ∨ s.after ≠ 0 := by
  simp [isPadded]

theorem Fits.isPadded_merge {inner outer : Span} {n : Int} (hi : inner.Fits n)
    (ho : outer.Fits inner.extent) (h : outer.isPadded = true) :
    (Span.merge inner outer).isPadded = true := by
  rw [isPadded_iff] at h ⊢
  obtain ⟨_, _, _, _, _⟩ := hi
  obtain ⟨_, _, _, _, _⟩ := ho
  unfold Span.merge length
  dsimp only
  split <;> dsimp only <;> omega

theorem Fits.isPadded_of_merge {inner outer : Span} {n : Int} (hi : inner.Fits n)
    (ho : outer.Fits inner.extent) (h : (Span.merge inner outer).isPadded = true) :
    inner.isPadded = true ∨ outer.isPadded = true := by
  rw [isPadded_iff] at h
  rw [isPadded_iff, isPadded_iff]
  obtain ⟨_, _, _, _, _⟩ := hi
  obtain ⟨_, _, ho, _, _⟩ := ho
  unfold extent length at ho
  unfold Span.merge length at h
  dsimp only at h
  split at h <;> dsimp only at h <;> omega

theorem Fits.exists_fill {s : Span} {n : Int} (h : s.Fits n) (hp : s.isPadded = true) :
    ∃ c, (0 ≤ c ∧ c < s.extent) ∧ s.locate c = none := by
  rw [isPadded_iff] at hp
  obtain ⟨_, _, _, _, _⟩ := h
  by_cases hb : s.before = 0
  · refine ⟨s.extent - 1, ?_, ?_⟩
    · unfold extent length
      omega
    · unfold locate extent length
      dsimp only
      rw [if_pos (by omega)]
  · refine ⟨0, ?_, ?_⟩
    · unfold extent length
      omega
    · unfold locate
      dsimp only
      rw [if_pos (by omega)]

theorem isSome_locate {s : Span} (hp : s.isPadded = false) {c : Int} (h0 : 0 ≤ c)
    (hc : c < s.extent) : ∃ x, s.locate c = some x := by
  have hp' : ¬ (s.before ≠ 0 ∨ s.after ≠ 0) := by
    rw [← isPadded_iff, hp]
    exact Bool.false_ne_true
  unfold extent length at hc
  unfold locate length
  dsimp only
  rw [if_neg (by omega)]
  exact ⟨_, rfl⟩

theorem FitAll.exists_fill {l : List Span} {s : Shape} (h : FitAll l s)
    (hpos : ∀ n ∈ shape l, 0 < n) (hp : l.any isPadded = true) :
    ∃ c, (shape l).Within c ∧ locateAll l c = none := by
  induction h with
  | nil => cases hp
  | @cons t n l s hf hr ih =>
      obtain ⟨ht, hpos⟩ := List.forall_mem_cons.mp hpos
      rw [List.any_cons, Bool.or_eq_true] at hp
      by_cases hl : l.any isPadded = true
      · obtain ⟨c, hc, hn⟩ := ih hpos hl
        refine ⟨0 :: c, Shape.within_cons.mpr ⟨⟨le_refl 0, ht⟩, hc⟩, ?_⟩
        simp [locateAll, hn]
      · obtain ⟨x, hx, hn⟩ := hf.exists_fill (hp.resolve_right hl)
        refine ⟨x :: (shape l).map fun _ => 0, Shape.within_cons.mpr ⟨hx, ?_⟩, ?_⟩
        · change (shape l).Within ((shape l).map fun _ => 0)
          rw [Shape.Within, List.forall₂_map_right_iff, List.forall₂_same]
          exact fun n hn => ⟨le_refl 0, hpos n hn⟩
        · simp [locateAll, hn]

theorem isSome_locateAll {l : List Span} (hp : l.any isPadded = false) {c : List Int}
    (hc : (shape l).Within c) : ∃ d, locateAll l c = some d := by
  induction l generalizing c with
  | nil => exact ⟨[], by cases c <;> rfl⟩
  | cons t l ih =>
      cases c with
      | nil => exact ⟨[], rfl⟩
      | cons x c =>
          rw [List.any_cons, Bool.or_eq_false_iff] at hp
          obtain ⟨hx, hc⟩ := Shape.within_cons.mp hc
          obtain ⟨y, hy⟩ := isSome_locate hp.1 hx.1 hx.2
          obtain ⟨d, hd⟩ := ih hp.2 hc
          exact ⟨y :: d, by simp [locateAll, hy, hd]⟩

theorem FitAll.isPadded_mergeAll {inner outer : List Span} {s : Shape} (hi : FitAll inner s)
    (ho : FitAll outer (shape inner)) :
    (outer.any isPadded = true → (Span.mergeAll inner outer).any isPadded = true) ∧
      ((Span.mergeAll inner outer).any isPadded = true →
        inner.any isPadded = true ∨ outer.any isPadded = true) := by
  induction hi generalizing outer with
  | nil =>
      cases ho
      exact ⟨id, .inl⟩
  | cons hf _ ih =>
      cases ho with
      | cons ht hr =>
          obtain ⟨h1, h2⟩ := ih hr
          have h3 := hf.isPadded_merge ht
          have h4 := hf.isPadded_of_merge ht
          unfold Span.mergeAll at h1 h2 ⊢
          simp only [List.zipWith_cons_cons, List.any_cons, Bool.or_eq_true]
          tauto

end Span

namespace Layout

def ofSpans (l : List Span) : Layout := l.map .whole

theorem locate_ofSpans (l : List Span) (c : List Int) :
    locate (ofSpans l) (c.map .int) = .ok ((Span.locateAll l c).map (·.map .int)) := by
  induction l generalizing c with
  | nil => cases c <;> rfl
  | cons s l ih =>
      cases c with
      | nil => rfl
      | cons x c =>
          have hl := ih c
          simp only [ofSpans] at hl
          simp only [ofSpans, List.map_cons, locate, AxisSpan.locate_whole, bind, Except.bind,
            Span.locateAll]
          cases s.locate x with
          | none => rfl
          | some y =>
              rw [Option.map_some, Option.bind_some]
              simp only [hl]
              cases Span.locateAll l c <;> rfl

theorem extents_ofSpans (l : List Span) : extents (ofSpans l) = .ok (.ofShape (Span.shape l)) := by
  induction l with
  | nil => rfl
  | cons s l ih =>
      simp only [ofSpans] at ih
      simp only [ofSpans, List.map_cons, extents_cons, AxisSpan.extent_whole, ih, bind, Except.bind]
      rfl

theorem merge_ofSpans (inner outer : List Span) :
    merge (ofSpans inner) (ofSpans outer) = .ok (ofSpans (Span.mergeAll inner outer)) := by
  induction inner generalizing outer with
  | nil => cases outer <;> rfl
  | cons s inner ih =>
      cases outer with
      | nil => rfl
      | cons t outer =>
          have hm := ih outer
          simp only [ofSpans] at hm
          simp only [ofSpans, List.map_cons, merge, AxisSpan.merge_whole, hm, bind, Except.bind]
          rfl

theorem all_ofShape (s : Shape) : all (.ofShape s) = ofSpans (s.map Span.whole) := by
  simp [all, ofSpans, Extents.ofShape, Function.comp_def]

theorem isPadded_ofSpans (l : List Span) : (ofSpans l).isPadded = l.any Span.isPadded := by
  unfold isPadded ofSpans
  rw [List.any_map]
  rfl

end Layout

namespace Section

/-- The link of a section with whole spans over a shape. -/
def linkOf (l : List Span) (t : Shape) : Link :=
  ⟨.decoded (Layout.ofSpans l).locate, .ofShape (Span.shape l), .ofShape t⟩

theorem link_ofSpans (l : List Span) (t : Shape) :
    link (Layout.ofSpans l) (.ofShape t) = .ok (linkOf l t) := by
  simp only [link, Layout.extents_ofSpans, bind, Except.bind]
  rfl

theorem maps_linkOf {l : List Span} {t : Shape} (h : Span.FitAll l t) :
    (linkOf l t).Maps (Span.shape l) t fun i =>
      (Span.locateAll l ((Span.shape l).coordinates i)).map fun d => Shape.dot d t.strides := by
  refine Link.maps_decoded h.shape_isProper fun c hc => ⟨Layout.locate_ofSpans l c, ?_⟩
  intro d hd
  exact h.locateAll_within (by simpa [Span.shape] using hc.length_eq) hd

theorem reach_mergeAll {inner outer : List Span} {t : Shape} (hi : Span.FitAll inner t)
    (ho : Span.FitAll outer (Span.shape inner)) {i : Int} (h : (Span.shape outer).Holds i) :
    (linkOf (Span.mergeAll inner outer) t).reach i =
      ((linkOf outer (Span.shape inner)).reach i).bind (linkOf inner t).reach := by
  have hs := Span.shape_mergeAll hi ho
  have hc := Shape.coordinates_within ho.shape_isProper h
  have hl : ((Span.shape outer).coordinates i).length = outer.length := by simp [Span.shape]
  rw [(maps_linkOf (hi.mergeAll ho)).reach_eq (by rwa [hs]), (maps_linkOf ho).reach_eq h, hs,
    Span.locateAll_mergeAll hi ho hl]
  cases hd : Span.locateAll outer ((Span.shape outer).coordinates i) with
  | none => rfl
  | some d =>
      have hw := ho.locateAll_within hl hd
      rw [Option.bind_some, Option.map_some, Option.bind_some, (maps_linkOf hi).reach_eq hw.holds,
        Shape.coordinates_dot hw]

/-- The spans of a section with counts for some axes. Of several counts for an axis the last one
holds. -/
def spansOf (drop : Bool) (s : Shape) (counted : List (Int × Int)) (l : List Span) : List Span :=
  counted.foldl (fun l p => l.set p.1.toNat (.cut drop p.2 (s.getD p.1.toNat 0))) l

theorem fitAll_spansOf (drop : Bool) {s : Shape} (hs : s.IsProper) (counted : List (Int × Int))
    {l : List Span} (hl : Span.FitAll l s) : Span.FitAll (spansOf drop s counted l) s := by
  induction counted generalizing l with
  | nil => exact hl
  | cons p counted ih =>
      refine ih (hl.set fun n hk => ?_)
      have hd : s.getD p.1.toNat 0 = n := by simp [List.getD_eq_getElem?_getD, hk]
      rw [hd]
      exact Span.fits_cut (hs n (List.mem_of_getElem? hk)) drop p.2

theorem spans_eq (drop : Bool) (s : Shape) (axes counts : List Int) (l : List Span) :
    spans drop (.ofShape s) axes counts (Layout.ofSpans l) =
      .ok (Layout.ofSpans (spansOf drop s (axes.zip counts) l)) := by
  induction axes generalizing counts l with
  | nil => rfl
  | cons a axes ih =>
      cases counts with
      | nil => rfl
      | cons count counts =>
          have hn : (Extents.ofShape s).getD a.toNat 0 = .int (s.getD a.toNat 0) := by
            simp only [Extents.ofShape, List.getD_eq_getElem?_getD, List.getElem?_map]
            cases s[a.toNat]? <;> rfl
          have hm (t : Span) : replaced (Layout.ofSpans l) a (.whole t) =
              Layout.ofSpans (l.set a.toNat t) := by
            simp [replaced, Layout.ofSpans, List.map_set]
          cases drop with
          | true =>
              simp only [spans, hn, AxisSpan.drop_int, ite_true, bind, Except.bind, hm, ih]
              rfl
          | false =>
              simp only [spans, hn, AxisSpan.take_int, Bool.false_eq_true, ite_false, bind,
                Except.bind, hm, ih]
              rfl

theorem layout_ofShape (drop : Bool) (counts : List Int) (axes : Option (List Int)) {s : Shape}
    (hs : s.IsProper) :
    ∃ l, layout drop counts axes (.ofShape s) = .ok (Layout.ofSpans l) ∧ Span.FitAll l s := by
  rw [layout, Layout.all_ofShape]
  exact ⟨_, spans_eq drop s _ counts _, fitAll_spansOf drop hs _ (Span.fitAll_whole hs)⟩

/-- A section shows a fill of its own exactly if it has cells and its layout is padded. -/
theorem exists_reach_none {l : List Span} {t : Shape} (h : Span.FitAll l t) :
    (∃ i, (Span.shape l).Holds i ∧ (linkOf l t).reach i = none) ↔
      (Layout.ofSpans l).isPadded = true ∧ (Span.shape l).size ≠ 0 := by
  have hm := maps_linkOf h
  rw [Layout.isPadded_ofSpans]
  constructor
  · rintro ⟨i, hi, hn⟩
    refine ⟨?_, hi.size_pos.ne'⟩
    rw [hm.reach_eq hi, Option.map_eq_none_iff] at hn
    cases hp : l.any Span.isPadded with
    | true => rfl
    | false =>
        obtain ⟨d, hd⟩ := Span.isSome_locateAll hp (Shape.coordinates_within h.shape_isProper hi)
        rw [hd] at hn
        cases hn
  · rintro ⟨hp, h0⟩
    have hsize : 0 < (Span.shape l).size :=
      lt_of_le_of_ne (Shape.size_nonneg h.shape_isProper) h0.symm
    obtain ⟨c, hc, hn⟩ := h.exists_fill (Shape.extent_pos h.shape_isProper hsize) hp
    refine ⟨_, hc.holds, ?_⟩
    rw [hm.reach_eq hc.holds, Shape.coordinates_dot hc, hn]
    rfl

end Section
end LazyApl
