import LazyApl.Proofs.Agreeing
import LazyApl.Proofs.Sections
import LazyApl.Proofs.Sources
/-!
# Sections along several axes

A section by a list of counts for a list of axes shows what the sections by one count for one axis
show, made one after the other. It does so as long as no axis is named twice: all spans are cut out
of the extents that the array has to begin with, so of several counts for an axis only the last one
holds.
-/
namespace LazyApl

open Outcome

/-- Of several counts for an axis the last one only. -/
def lastPerAxis : List (Int × Int) → List (Int × Int)
  | [] => []
  | p :: given => if p.1 ∈ given.map Prod.fst then lastPerAxis given else p :: lastPerAxis given

theorem lastPerAxis_of_nodup {given : List (Int × Int)} (h : (given.map Prod.fst).Nodup) :
    lastPerAxis given = given := by
  induction given with
  | nil => rfl
  | cons p given ih =>
      obtain ⟨hp, h⟩ := List.nodup_cons.mp h
      rw [lastPerAxis, if_neg hp, ih h]

namespace Span

variable {L : List Span} {t : Shape} {s : Span} {a : Nat} {n : Int}

theorem agreeAll_set (ht : t.IsProper) (fl : FitAll L t) (ha : t[a]? = some n) (fs : s.Fits n) :
    AgreeAll (mergeAll ((t.map whole).set a s) (L.set a (whole s.extent))) (L.set a s) := by
  induction fl generalizing a with
  | nil => simp at ha
  | cons fx fl ih =>
      obtain ⟨hn, hrest⟩ := Shape.isProper_cons.mp ht
      cases a with
      | zero =>
          cases ha
          exact .cons (agrees_merge_whole fs) (agreeAll_whole_mergeAll hrest fl)
      | succ a => exact .cons (agrees_whole_merge hn fx) (ih hrest (by simpa using ha))

end Span

namespace Section

variable {drop : Bool} {s t : Shape} {counted : List (Int × Int)} {l : List Span} {x : Span}
  {a : Nat} {e : Int}

theorem spansOf_cons (drop : Bool) (s : Shape) (p : Int × Int) (counted : List (Int × Int))
    (l : List Span) : spansOf drop s (p :: counted) l =
      spansOf drop s counted (l.set p.1.toNat (.cut drop p.2 (s.getD p.1.toNat 0))) := rfl

theorem spansOf_set (h : ∀ q ∈ counted, q.1.toNat ≠ a) :
    spansOf drop s counted (l.set a x) = (spansOf drop s counted l).set a x := by
  induction counted generalizing l with
  | nil => rfl
  | cons q counted ih =>
      obtain ⟨hq, h⟩ := List.forall_mem_cons.mp h
      rw [spansOf_cons, List.set_comm _ _ hq.symm, ih h]
      rfl

theorem spansOf_set_of_mem (h : ∃ q ∈ counted, q.1.toNat = a) :
    spansOf drop s counted (l.set a x) = spansOf drop s counted l := by
  induction counted generalizing l with
  | nil => simp at h
  | cons q counted ih =>
      rw [spansOf_cons, spansOf_cons]
      by_cases hq : q.1.toNat = a
      · rw [hq, List.set_set]
      · rw [List.set_comm _ _ (Ne.symm hq)]
        obtain ⟨q', hq', ha⟩ := h
        rcases List.mem_cons.mp hq' with rfl | hq'
        · exact absurd ha hq
        · exact ih ⟨q', hq', ha⟩

theorem spansOf_extent (h : ∀ q ∈ counted, q.1.toNat ≠ a) :
    spansOf drop (s.set a e) counted l = spansOf drop s counted l := by
  induction counted generalizing l with
  | nil => rfl
  | cons q counted ih =>
      obtain ⟨hq, h⟩ := List.forall_mem_cons.mp h
      have hget : (s.set a e).getD q.1.toNat 0 = s.getD q.1.toNat 0 := by
        simp [List.getD_eq_getElem?_getD, List.getElem?_set_ne hq.symm]
      rw [spansOf_cons, spansOf_cons, hget, ih h]

end Section

/-- Sections by one count for one axis each, one after the other. -/
def Item.cutEach (style : Cut) (drop : Bool) (origin : Origin) (given : List (Int × Int))
    (v : View Item) : Except Fault (View Item) :=
  given.foldlM (fun v p => cut style drop (.view v) (.int p.2) (some (.int p.1)) origin) v

namespace View

variable {root : Root Item} {r t : Shape} {v w : View Item} {o : Int} {origin : Origin}
  {style : Cut} {drop : Bool} {given : List (Int × Int)}

/-- The transform of a section with counts for some axes, which are counted from `o`. -/
def listed (style : Cut) (drop : Bool) (o : Int) (given : List (Int × Int)) : Step :=
  .cut style drop (given.map Prod.snd) (some (given.map fun p => p.1 - o))

theorem layout_listed (drop : Bool) (o : Int) (given : List (Int × Int)) (t : Shape) :
    Section.layout drop (given.map Prod.snd) (some (given.map fun p => p.1 - o)) (.ofShape t) =
      .ok (Layout.ofSpans (Section.spansOf drop t (given.map fun p => (p.1 - o, p.2))
        (t.map .whole))) := by
  rw [Section.layout_axes, List.zip_map']

theorem StandsOn.render_listed_again (h : StandsOn root r v t) {x k : Int}
    (hx : x ∈ given.map Prod.fst) :
    (Item.view (v.under (listed style drop o ((x, k) :: given)))).render =
      (Item.view (v.under (listed style drop o given))).render := by
  have ht := (h.stands.keeps Item.fillOf).proper
  have hfit (given : List (Int × Int)) :=
    Section.fitAll_spansOf drop ht (given.map fun p => (p.1 - o, p.2)) (Span.fitAll_whole ht)
  have hagain : ∃ q ∈ given.map fun p => (p.1 - o, p.2), q.1.toNat = (x - o).toNat := by
    obtain ⟨p, hp, rfl⟩ := List.mem_map.mp hx
    exact ⟨_, List.mem_map.mpr ⟨p, hp, rfl⟩, rfl⟩
  refine h.render_cut_congr (layout_listed drop o _ t) (layout_listed drop o given t) (hfit _)
    (hfit _) ?_
  have hspans : Section.spansOf drop t (((x, k) :: given).map fun p => (p.1 - o, p.2))
      (t.map .whole) = Section.spansOf drop t (given.map fun p => (p.1 - o, p.2)) (t.map .whole) :=
    Section.spansOf_set_of_mem hagain
  exact hspans ▸ .refl _

/-- A count for an axis that is not named again may be made first, in a section of its own. -/
theorem StandsOn.render_listed_first (h : StandsOn root r v t) {a : Nat} (k : Int)
    (ha : a < t.length) (hin : ∀ p ∈ given, 0 ≤ p.1 - o) (hx : o + (a : Int) ∉ given.map Prod.fst) :
    (Item.view ((v.under (.cut style drop [k] (some [(a : Int)]))).under
        (listed style drop o given))).render =
      (Item.view (v.under (listed style drop o ((o + (a : Int), k) :: given)))).render := by
  have ht := (h.stands.keeps Item.fillOf).proper
  have hn : t[a]? = some t[a] := List.getElem?_eq_getElem ha
  generalize t[a] = n at hn
  have hcut := Span.fits_cut (ht n (List.mem_of_getElem? hn)) drop k
  have hothers : ∀ q ∈ given.map fun p => (p.1 - o, p.2), q.1.toNat ≠ a := by
    intro q hq hqa
    obtain ⟨p, hp, rfl⟩ := List.mem_map.mp hq
    have hp0 := hin p hp
    refine hx (List.mem_map.mpr ⟨p, hp, ?_⟩)
    dsimp only at hqa
    omega
  have hfirst := Section.layout_along drop k hn
  have hfits := Section.fitAll_along ht hn hcut
  have hproper := hfits.shape_isProper
  have hrest := layout_listed drop o given (Span.shape ((t.map .whole).set a (.cut drop k n)))
  have fitRest := Section.fitAll_spansOf drop hproper (given.map fun p => (p.1 - o, p.2))
    (Span.fitAll_whole hproper)
  have hall := layout_listed drop o ((o + (a : Int), k) :: given) t
  have fitAll := Section.fitAll_spansOf drop ht
    (((o + (a : Int), k) :: given).map fun p => (p.1 - o, p.2)) (Span.fitAll_whole ht)
  refine h.render_cut_cut hfirst hrest hfits fitRest hall fitAll ?_
  have hget : t.getD a 0 = n := by simp [List.getD_eq_getElem?_getD, hn]
  have haxis : o + (a : Int) - o = a := by omega
  have hupper : (t.set a (Span.cut drop k n).extent).map Span.whole =
      (t.map .whole).set a (.whole (Span.cut drop k n).extent) := List.map_set
  -- the other spans are cut out of extents that the first section has left alone
  rw [List.map_cons, haxis, Section.shape_along, hupper, Section.spansOf_extent hothers,
    Section.spansOf_set hothers, Section.spansOf_cons, Int.toNat_natCast, hget,
    Section.spansOf_set hothers]
  exact Span.agreeAll_set ht (Section.fitAll_spansOf drop ht _ (Span.fitAll_whole ht)) hn hcut

/-- A section by a list of counts renders to the array that the sections by the counts that hold
render to, made one after the other. -/
theorem StandsOn.render_cutEach (h : StandsOn root r v t) (ho : origin.number = .ok (.int o))
    (hne : given ≠ []) (hin : ∀ p ∈ given, 0 ≤ p.1 - o ∧ p.1 - o < t.length) :
    ∃ w, Item.cutEach style drop origin (lastPerAxis given) v = .ok w ∧
      (Item.view w).render = (Item.view (v.under (listed style drop o given))).render := by
  induction given generalizing v t with
  | nil => exact absurd rfl hne
  | cons p given ih =>
      obtain ⟨x, k⟩ := p
      obtain ⟨hx, hrest⟩ := List.forall_mem_cons.mp hin
      by_cases hmem : x ∈ given.map Prod.fst
      · obtain ⟨q, hq, _⟩ := List.mem_map.mp hmem
        obtain ⟨w, hw, hrender⟩ := ih h (List.ne_nil_of_mem hq) hrest
        rw [lastPerAxis, if_pos hmem]
        exact ⟨w, hw, hrender.trans (h.render_listed_again hmem).symm⟩
      · obtain ⟨a, ha⟩ := Int.eq_ofNat_of_zero_le hx.1
        obtain rfl : x = o + a := by
          dsimp only at ha
          omega
        have hlt : a < t.length := by omega
        have hcut : Item.cut style drop (.view v) (.int k) (some (.int (o + a))) origin = .ok _ :=
          cut_along h.shape_eq ho hlt
        rw [lastPerAxis, if_neg hmem, Item.cutEach, List.foldlM_cons]
        simp only [hcut, bind, Except.bind]
        rcases eq_or_ne given [] with rfl | hne
        · refine ⟨_, rfl, ?_⟩
          simp [listed]
        · have habove := h.above_along style drop k (List.getElem?_eq_getElem hlt)
          obtain ⟨w, hw, hrender⟩ := ih habove hne (by simpa using hrest)
          exact ⟨w, hw, hrender.trans
            (h.render_listed_first k hlt (fun p hp => (hrest p hp).1) hmem)⟩

theorem StandsOn.rendersAlike_listed_nil (h : StandsOn root r v t)
    (hr : (⟨root, []⟩ : View Item).IsReady) :
    (v.under (listed style drop o [])).RendersAlike v := by
  have ht := (h.stands.keeps Item.fillOf).proper
  have hlayout : Section.layout drop [] (some []) (.ofShape t) =
      .ok (Layout.ofSpans (t.map .whole)) := layout_listed drop o [] t
  have hwhole := Span.fitAll_whole ht
  have hself : Span.shape (t.map .whole) = t := by simp [Span.shape, Function.comp_def]
  have hshape : (listed style drop o []).shapeOver (.ofShape t) = .ok (.ofShape t) := by
    simp [listed, Step.shapeOver, hlayout, Layout.extents_ofSpans, hself, bind, Except.bind]
  have hlink : (listed style drop o []).linkOver (.ofShape t) =
      .ok (Section.linkOf (t.map .whole) t) := by
    simp [listed, Step.linkOver, hlayout, Section.link_ofSpans, bind, Except.bind]
  have hetype : (v.under (listed style drop o [])).etype = v.etype := h.etype_cut_whole hlayout
  have hreach {i : Int} (hi : t.Holds i) : (Section.linkOf (t.map .whole) t).reach i = some i := by
    rw [(Section.maps_linkOf hwhole).reach_eq (hself.symm ▸ hi), hself,
      Section.locateAll_whole (Shape.coordinates_within ht hi), Option.map_some,
      Shape.dot_coordinates ht hi]
  have hsound : Step.IsSound t (listed style drop o []) := trivial
  exact (h.comesFrom_under hsound hshape hlink rfl).rendersAlike_source h hr
    (fun i hi => hreach hi) hetype (under_ne_ofGrid v _)

end View

namespace Item

/-- A section for given axes has read a count for each of them, and each is an axis. -/
theorem cut_axes_eq_ok {style : Cut} {drop : Bool} {v w : View Item} {counts axes : Item}
    {origin : Origin} {o : Int} {t : Shape} (ho : origin.number = .ok (.int o))
    (hv : v.shape = .ok (.ofShape t))
    (h : cut style drop (.view v) counts (some axes) origin = .ok w) :
    ∃ flat ks as, counts.flat .leftScalarOrVector = .ok flat ∧
      flat.asInts "left argument" = .ok ks ∧ axes.asInts "axis" = .ok as ∧
      as.length = ks.length ∧ (∀ a ∈ as, 0 ≤ a - o ∧ a - o < t.length) ∧
      w = v.under (View.listed style drop o (as.zip ks)) := by
  obtain ⟨flat, hflat, h⟩ := bind_eq_ok.mp h
  obtain ⟨ks, hks, h⟩ := bind_eq_ok.mp h
  obtain ⟨as, has, h⟩ := bind_eq_ok.mp h
  split at h
  · cases h
  · rename_i hlen
    have hlen : as.length = ks.length := not_not.mp hlen
    obtain ⟨rank, hrank, h⟩ := bind_eq_ok.mp h
    obtain ⟨xs, hxs, h⟩ := bind_eq_ok.mp h
    have hbased : (view v).based.shape = .ok (.ofShape t) := hv
    have hlength : (t.length : Int) = rank := by
      simpa [View.rank, hbased, bind, Except.bind, pure, Except.pure] using hrank
    rw [← hlength] at hxs
    have heach := (mapM_eq_ok.mp hxs).imp fun a x hx => AxisArgument.located_eq_ok ho hx
    have hwhole : xs.mapM Number.index = .ok (as.map fun a => a - o) := by
      rw [mapM_eq_ok, List.forall₂_map_right_iff]
      refine heach.flip.imp fun x a hx => ?_
      rw [hx.1]
      rfl
    rw [hwhole] at h
    cases h
    refine ⟨flat, ks, as, hflat, hks, has, hlen, fun a ha => ?_, ?_⟩
    · obtain ⟨n, hn, rfl⟩ := List.mem_iff_getElem.mp ha
      exact (List.forall₂_iff_get.mp heach).2 n hn (by rwa [← heach.length_eq]) |>.2
    · have hfst : (as.zip ks).map (fun p => p.1 - o) = as.map fun a => a - o := by
        rw [← Function.comp_def (fun a => a - o) Prod.fst, ← List.map_map,
          List.map_fst_zip hlen.le]
      rw [View.listed, hfst, List.map_snd_zip hlen.ge]
      rfl

end Item

namespace View

variable {root : Root Item} {r t : Shape} {v w : View Item} {o : Int} {origin : Origin}
  {style : Cut} {drop : Bool} {given : List (Int × Int)}

/-- The one array renders like what sections along single axes make of the other one, and to the
very same array if there is any such section. -/
def RendersLikeEach (w v : View Item) (style : Cut) (drop : Bool) (origin : Origin)
    (given : List (Int × Int)) : Prop :=
  ∃ w', Item.cutEach style drop origin given v = .ok w' ∧ w.RendersAlike w' ∧
    (given ≠ [] → (Item.view w).render = (Item.view w').render)

theorem StandsOn.rendersLikeEach (h : StandsOn root r v t) (hr : (⟨root, []⟩ : View Item).IsReady)
    (ho : origin.number = .ok (.int o)) (hin : ∀ p ∈ given, 0 ≤ p.1 - o ∧ p.1 - o < t.length) :
    (v.under (listed style drop o given)).RendersLikeEach v style drop origin
      (lastPerAxis given) := by
  rcases eq_or_ne given [] with rfl | hne
  · exact ⟨v, rfl, h.rendersAlike_listed_nil hr, fun h0 => absurd rfl h0⟩
  · obtain ⟨w', hw', hrender⟩ := h.render_cutEach ho hne hin
    exact ⟨w', hw', .of_render_eq hrender.symm, fun _ => hrender.symm⟩

/-- A section by counts for a list of axes renders like the sections by one count for one axis each,
made one after the other, if no axis is named twice. In any case it renders like those sections of
which the count is the last one for its axis. -/
theorem Grown.cut_axes (h : Grown (fun v w => Raises v w ∨ HandsOut v w) root r v)
    (hr : (⟨root, []⟩ : View Item).IsReady) {counts axes : Item} (ho : origin.IsWhole)
    (hw : Item.cut style drop (.view v) counts (some axes) origin = .ok w) :
    ∃ flat ks as, counts.flat .leftScalarOrVector = .ok flat ∧
      flat.asInts "left argument" = .ok ks ∧ axes.asInts "axis" = .ok as ∧ as.length = ks.length ∧
      (as.Nodup → w.RendersLikeEach v style drop origin (as.zip ks)) ∧
      w.RendersLikeEach v style drop origin (lastPerAxis (as.zip ks)) := by
  obtain ⟨o, ho⟩ := ho
  obtain ⟨t, hs⟩ := h.exists_standsOn
  obtain ⟨flat, ks, as, hflat, hks, has, hlen, hin, rfl⟩ := Item.cut_axes_eq_ok ho hs.shape_eq hw
  have hlast : (v.under (listed style drop o (as.zip ks))).RendersLikeEach v style drop origin
      (lastPerAxis (as.zip ks)) :=
    hs.rendersLikeEach hr ho fun p hp => hin p.1 (List.of_mem_zip hp).1
  refine ⟨flat, ks, as, hflat, hks, has, hlen, fun hnodup => ?_, hlast⟩
  rwa [lastPerAxis_of_nodup (by rwa [List.map_fst_zip hlen.le])] at hlast

def oneToThree : View Item := ofGrid (Grid.ofInts [1, 2, 3])

/-- One item and then three taken along the same axis: the second count holds, and all three items
are taken. Made one after the other, the sections take one item and then fill up to three. -/
theorem oneToThree_cut_axes :
    ∃ w w', Item.take (.view oneToThree) (.array (Grid.ofInts [1, 3]))
        (some (.array (Grid.ofInts [0, 0]))) (.int 0) = .ok w ∧
      (Item.view w).render = .ok (.array (Grid.ofInts [1, 2, 3])) ∧
      w.RendersLikeEach oneToThree .take false (.int 0) [(0, 3)] ∧
      Item.cutEach .take false (.int 0) [(0, 1), (0, 3)] oneToThree = .ok w' ∧
      (Item.view w').render = .ok (.array (Grid.ofInts [1, 0, 0])) ∧ ¬ w.RendersAlike w' := by
  have proper : Shape.IsProper [3] := by simp [Shape.IsProper]
  have root : Grown (fun v w => Raises v w ∨ HandsOut v w) (.concrete (Grid.ofInts [1, 2, 3])) [3]
      oneToThree := .root rfl proper
  have ready : oneToThree.IsReady := isReady_ofNumbers proper rfl
  have whole : Scalar.IsWhole (.int 0) := ⟨0, rfl⟩
  have take : Item.take (.view oneToThree) (.array (Grid.ofInts [1, 3]))
      (some (.array (Grid.ofInts [0, 0]))) (.int 0) =
      .ok (oneToThree.under (.cut .take false [1, 3] (some [0, 0]))) := rfl
  obtain ⟨flat, ks, as, hflat, hks, has, _, _, hlast⟩ := root.cut_axes ready whole take
  cases hflat
  cases hks
  cases has
  have rendered : (Item.view (oneToThree.under (.cut .take false [1, 3] (some [0, 0])))).render =
      .ok (.array (Grid.ofInts [1, 2, 3])) := rfl
  have each : (Item.view ((oneToThree.under (.cut .take false [1] (some [0]))).under
      (.cut .take false [3] (some [0])))).render = .ok (.array (Grid.ofInts [1, 0, 0])) := rfl
  refine ⟨_, _, take, rendered, hlast, rfl, each, fun halike => ?_⟩
  obtain ⟨y, hy, hxy⟩ := halike.1 _ rendered
  obtain rfl := Except.ok.inj (each.symm.trans hy)
  obtain ⟨-, hcells⟩ := (Item.alike_array rfl rfl).mp hxy
  cases hcells with
  | cons _ hcells =>
      cases hcells with
      | cons h2 _ =>
          rcases Item.alike_scalar.mp h2 with h0 | ⟨_, h0, heq⟩
          · cases h0
          · cases h0
            cases heq

end View
end LazyApl
