import LazyApl.Proofs.Overtaking
import LazyApl.Proofs.Masking
import LazyApl.Proofs.Sections
/-!
# What a take shows of an array with a fill

A take from an array that has a fill shows items of the array, and the fill where there are none.
Where it shows which does not depend on the array, only on its shape. So the takes from two arrays
of one shape are compared by their items and their fills. A take by a count for each axis, none of
which is negative, shows the array from its first cell on.
-/
namespace LazyApl

open Outcome

namespace Span

variable {counts : List Int} {t : Shape} {d : List Int}

theorem take_of_nonneg {k n : Int} (hk : 0 ≤ k) :
    (cut false k n).extent = k ∧ ∀ x, 0 ≤ x → x < k →
      (cut false k n).locate x = if x < n then some x else none := by
  have hcut : cut false k n = ⟨0, min k n, 0, max 0 (k - n)⟩ := by
    simp only [cut, take, Bool.false_eq_true, if_false, if_pos hk]
  rw [hcut]
  refine ⟨by simp only [extent, length]; omega, fun x h0 hx => ?_⟩
  simp only [locate, length, sub_zero, add_zero]
  split_ifs <;> first | rfl | omega

theorem shape_takes (hc : Shape.IsProper counts) (hl : counts.length = t.length) :
    shape (List.zipWith (cut false) counts t) = counts := by
  induction counts generalizing t with
  | nil => rfl
  | cons k counts ih =>
      cases t with
      | nil => cases hl
      | cons n t =>
          obtain ⟨hk, hc⟩ := Shape.isProper_cons.mp hc
          have hrest := ih hc (Nat.succ.inj hl)
          rw [shape] at hrest ⊢
          rw [List.zipWith_cons_cons, List.map_cons, hrest, (take_of_nonneg hk).1]

theorem locateAll_takes (hl : counts.length = t.length) (hd : Shape.Within counts d) :
    locateAll (List.zipWith (cut false) counts t) d = if t.Within d then some d else none := by
  induction hd generalizing t with
  | nil =>
      obtain rfl := List.length_eq_zero_iff.mp hl.symm
      rfl
  | @cons k x counts d hx _ ih =>
      cases t with
      | nil => cases hl
      | cons n t =>
          have hwithin : Shape.Within (n :: t) (x :: d) ↔ x < n ∧ Shape.Within t d := by
            rw [Shape.within_cons, and_iff_right hx.1]
          rw [List.zipWith_cons_cons, locateAll,
            (take_of_nonneg (hx.1.trans hx.2.le)).2 x hx.1 hx.2, ih (Nat.succ.inj hl)]
          by_cases h : x < n <;> by_cases h' : Shape.Within t d <;> simp [hwithin, h, h']

end Span

namespace Section

variable {counts : List Int} {t : Shape}

/-- Axes that are counted one after another get a span each. -/
theorem spansOf_append (drop : Bool) {before rest : Shape} {counts : List Int} {done : List Span}
    (hl : counts.length = rest.length) (hb : before.length = done.length) :
    spansOf drop (before ++ rest)
        (((List.range' done.length counts.length).map Int.ofNat).zip counts)
        (done ++ rest.map .whole) = done ++ List.zipWith (Span.cut drop) counts rest := by
  induction rest generalizing counts before done with
  | nil =>
      obtain rfl := List.length_eq_zero_iff.mp hl
      rfl
  | cons n rest ih =>
      cases counts with
      | nil => cases hl
      | cons k counts =>
          have hget : (before ++ n :: rest).getD done.length 0 = n := by
            simp [List.getD_eq_getElem?_getD, ← hb]
          have hset (x : Span) : (done ++ Span.whole n :: rest.map .whole).set done.length x =
              (done ++ [x]) ++ rest.map .whole := by
            simp
          have hrest := @ih (before ++ [n]) counts (done ++ [.cut drop k n]) (Nat.succ.inj hl)
            (by simp [hb])
          simp only [List.append_assoc, List.singleton_append, List.length_append,
            List.length_singleton] at hrest hset
          rw [List.length_cons, List.range'_succ, List.map_cons, List.zip_cons_cons, spansOf,
            List.foldl_cons, ← spansOf]
          simp only [Int.ofNat_eq_natCast, Int.toNat_natCast, hget, List.map_cons, hset, hrest]
          rfl

theorem layout_counts (drop : Bool) (ht : t.IsProper) (hl : counts.length = t.length) :
    layout drop counts none (.ofShape t) =
        .ok (Layout.ofSpans (List.zipWith (Span.cut drop) counts t)) ∧
      Span.FitAll (List.zipWith (Span.cut drop) counts t) t := by
  have hspans : spansOf drop t ((upTo counts.length).zip counts) (t.map .whole) =
      List.zipWith (Span.cut drop) counts t := by
    have hspans := @spansOf_append drop [] t counts [] hl rfl
    simp only [List.nil_append, List.length_nil, ← List.range_eq_range'] at hspans
    exact hspans
  rw [← hspans, layout, Layout.all_ofShape, spans_eq]
  exact ⟨rfl, fitAll_spansOf drop ht _ (Span.fitAll_whole ht)⟩

end Section

namespace View

variable {root root' : Root Item} {r r' t d m : Shape} {v v' w : View Item} {f f' : Int → Item}
  {p q : Item}

/-- A section of an array that has a fill yields the items of the array that it shows, and the fill
elsewhere. -/
theorem Yields.cut (h : v.Yields t f) (hs : StandsOn root r v t) (hp : v.prototype = .ok p)
    (style : Cut) {drop : Bool} {counts : List Int} {axes : Option (List Int)} {o : List Span}
    (ho : Section.layout drop counts axes (.ofShape t) = .ok (Layout.ofSpans o))
    (hf : Span.FitAll o t) :
    (v.under (.cut style drop counts axes)).Yields (Span.shape o) fun i =>
      (((Section.linkOf o t).reach i).map f).getD p := by
  have hu : (Step.cut style drop counts axes).shapeOver (.ofShape t) =
      .ok (.ofShape (Span.shape o)) := by
    simp only [Step.shapeOver, ho, Layout.extents_ofSpans, bind, Except.bind]
  have hl : (Step.cut style drop counts axes).linkOver (.ofShape t) =
      .ok (Section.linkOf o t) := by
    simp only [Step.linkOver, ho, Section.link_ofSpans, bind, Except.bind]
  have hsound : Step.IsSound t (.cut style drop counts axes) := trivial
  have hfill : v.prototype >>= Item.settle = .ok p := bind_eq_ok.mpr ⟨p, hp, h.ready.fill p hp⟩
  have hetype := (hs.exists_etype_cut h.etype style ho hf).mpr fun _ => ⟨p, hp⟩
  refine ⟨hs.offers_filled hsound hu hl rfl h.toOffers (fun _ _ _ => hfill) hetype,
    h.ready.under (hs.above hsound hu) rfl, fun _ => ⟨p, ?_⟩⟩
  rwa [prototype_under rfl]

theorem Yields.reshape_cyclic (h : v.Yields t f) (hs : StandsOn root r v t) (hd : d.IsProper)
    (hne : ∀ i, d.Holds i → t.size ≠ 0) (hp : d.size = 0 → ∃ p, v.prototype = .ok p) :
    (v.under (.reshape .reshape d)).Yields d fun i => f (i % t.size) := by
  obtain ⟨l, hl, hreach⟩ := Reshape.reach_link hd h.isProper
  have hplace : ∀ i, d.Holds i → t.Holds (i % t.size) ∧ l.reach i = some (i % t.size) := by
    intro i hi
    have h0 := hne i hi
    have hpos : 0 < t.size := lt_of_le_of_ne (Shape.size_nonneg h.isProper) h0.symm
    exact ⟨⟨Int.emod_nonneg i h0, Int.emod_lt_of_pos i hpos⟩, hreach i hi h0⟩
  refine ⟨hs.offers_under (x := .reshape .reshape d) hd rfl hl rfl hplace h.toOffers
    (exists_etype_reshape h.shape h.etype h.prototype _ _), h.ready.under (hs.reshape hd) rfl,
    fun h0 => ?_⟩
  rw [prototype_under rfl]
  exact hp h0

theorem Yields.reshape (h : v.Yields t f) (hs : StandsOn root r v t) (hd : d.IsProper)
    (hsize : d.size = t.size) : (v.under (.reshape .reshape d)).Yields d f := by
  have hholds : ∀ i, d.Holds i → t.Holds i := fun i hi => hi.of_size hsize.symm
  have hcyclic := h.reshape_cyclic hs hd (fun i hi => (hholds i hi).size_pos.ne')
    fun h0 => h.prototype (hsize ▸ h0)
  refine hcyclic.congr fun i hi => ?_
  rw [Int.emod_eq_of_lt (hholds i hi).1 (hholds i hi).2]

/-- A take by a count for each axis is a section. A scalar has no axes that are counted, but it is
reshaped first, as always. -/
theorem Yields.exists_take_counts (h : v.Yields t f) (hs : StandsOn root r v t)
    (hl : m.length = t.length) (origin : Origin) :
    ∃ b, Item.take (.view v) (.array (Grid.ofInts m)) none origin =
        .ok (b.under (.cut .take false m none)) ∧
      b.Yields t f ∧ StandsOn root r b t ∧ b.prototype = v.prototype := by
  have hflat : Item.flat (.array (Grid.ofInts m)) .leftScalarOrVector =
      .ok (.view (View.ofGrid (Grid.ofInts m))) := rfl
  have hcounts : (Item.view (View.ofGrid (Grid.ofInts m))).asInts "left argument" = .ok m :=
    Item.asInts_ofNumbers (s := [m.length]) (by simp) "left argument"
  have hbased : (Item.view v).based = v := rfl
  have hrank : v.rank = .ok (m.length : Int) := hl ▸ rank_of_shape h.shape
  by_cases h0 : m = []
  · subst h0
    obtain rfl : t = [] := List.length_eq_zero_iff.mp hl.symm
    refine ⟨v.under (.reshape .reshape []), ?_, h.reshape hs h.isProper rfl,
      hs.reshape h.isProper, prototype_under rfl⟩
    simp only [Item.take, Item.cut, hflat, hcounts, hbased, hrank, bind, Except.bind]
    rfl
  · have hpos : ¬ (m.length : Int) = 0 := by simpa using h0
    refine ⟨v, ?_, h, hs, rfl⟩
    simp only [Item.take, Item.cut, hflat, hcounts, hbased, hrank, bind, Except.bind, if_neg hpos,
      lt_self_iff_false, if_false]
    rfl

/-- A take of as many cells along each axis as the counts say, of which none is negative, shows the
array where the coordinates lie within it, and its fill elsewhere. -/
theorem Yields.take_counts (h : v.Yields t f) (hs : StandsOn root r v t) (hp : v.prototype = .ok p)
    (hm : m.IsProper) (hl : m.length = t.length) (origin : Origin) :
    ∃ w, Item.take (.view v) (.array (Grid.ofInts m)) none origin = .ok w ∧
      w.Yields m fun i => if t.Within (m.coordinates i) then
        f (Shape.dot (m.coordinates i) t.strides) else p := by
  obtain ⟨b, htake, hb, hbs, hbp⟩ := h.exists_take_counts hs hl origin
  obtain ⟨hlayout, hfit⟩ := Section.layout_counts false h.isProper hl
  have hshape := Span.shape_takes hm hl
  have hcut := hb.cut hbs (hbp.trans hp) .take hlayout hfit
  rw [hshape] at hcut
  refine ⟨_, htake, hcut.congr fun i hi => ?_⟩
  have hd := Shape.coordinates_within hm hi
  rw [(Section.maps_linkOf hfit).reach_eq (hshape.symm ▸ hi), hshape, Span.locateAll_takes hl hd]
  by_cases hw : t.Within (m.coordinates i) <;> simp [hw]

/-- A take shows some items of the array, and its fill elsewhere. It does so for any array of the
same shape, and there are places for fills exactly if the take has cells and overtakes. -/
theorem Yields.exists_take (h : v.Yields t f) (hs : StandsOn root r v t) (hp : v.prototype = .ok p)
    {counts : Item} {axis : Option Item} {origin : Origin} (ho : origin.IsWhole)
    (hw : Item.take (.view v) counts axis origin = .ok w) :
    ∃ (u : Shape) (place : Int → Option Int),
      w.Yields u (fun i => ((place i).map f).getD p) ∧
      ((∃ i, u.Holds i ∧ place i = none) ↔ w.Overtakes ∧ ¬ w.IsEmpty) ∧
      ∀ {root' : Root Item} {r' : Shape} {v' : View Item} {f' : Int → Item} {q : Item},
        v'.Yields t f' → StandsOn root' r' v' t → v'.prototype = .ok q →
        ∃ w', Item.take (.view v') counts axis origin = .ok w' ∧
          w'.Yields u fun i => ((place i).map f').getD q := by
  have hrank {v' : View Item} (hv' : v'.shape = .ok (.ofShape t)) : v'.rank = v.rank := by
    unfold rank
    rw [hv', h.shape]
  rcases Item.cut_eq_ok ho hw with ⟨ks, axes, rfl, hcut⟩ | ⟨h0, ks, rfl, hcut⟩
  · obtain ⟨o, hl, hf⟩ := Section.layout_ofShape false ks axes h.isProper
    refine ⟨_, _, h.cut hs hp .take hl hf, ?_, fun h' hs' hq => ⟨_, hcut _ (hrank h'.shape),
      h'.cut hs' hq .take hl hf⟩⟩
    rw [Section.exists_reach_none hf, overtakes_iff h.shape hl, isEmpty_iff (shape_cut hs hl)]
  · obtain rfl : t = [] := by
      rw [rank, h.shape] at h0
      exact List.length_eq_zero_iff.mp (by simpa [bind, Except.bind, pure, Except.pure] using h0)
    have hd : Shape.IsProper (ks.map fun _ => 1) := Shape.isProper_ones ks
    have h1 : Shape.size (ks.map fun _ => 1) = Shape.size [] := Shape.size_ones ks
    generalize ks.map (fun _ => (1 : Int)) = d at hd h1 hcut ⊢
    obtain ⟨o, hl, hf⟩ := Section.layout_ofShape false ks none hd
    have hb : StandsOn root r (v.under (.reshape .reshape d)) d := hs.reshape hd
    refine ⟨_, _, (h.reshape hs hd h1).cut hb ((prototype_under rfl).trans hp) .take hl hf, ?_,
      fun h' hs' hq => ⟨_, hcut _ (hrank h'.shape), (h'.reshape hs' hd h1).cut (hs'.reshape hd)
        ((prototype_under rfl).trans hq) .take hl hf⟩⟩
    rw [Section.exists_reach_none hf, overtakes_iff hb.shape_eq hl, isEmpty_iff (shape_cut hb hl)]

/-- The same take from two arrays with the same items renders for both, and to alike arrays exactly
if it shows no fills or the fills of the two are alike. -/
theorem Yields.take_alike (h : v.Yields t f) (h' : v'.Yields t f) (hs : StandsOn root r v t)
    (hs' : StandsOn root' r' v' t) (hp : v.prototype = .ok p) (hq : v'.prototype = .ok q)
    {counts : Item} {axis : Option Item} {origin : Origin} (ho : origin.IsWhole)
    (hw : Item.take (.view v) counts axis origin = .ok w) :
    ∃ w' x y, Item.take (.view v') counts axis origin = .ok w' ∧ (Item.view w).render = .ok x ∧
      (Item.view w').render = .ok y ∧
      (Item.Alike x y ↔ (w.Overtakes → ¬ w.IsEmpty → Item.Alike p.stored q.stored)) := by
  obtain ⟨u, place, hyields, hshows, hany⟩ := h.exists_take hs hp ho hw
  obtain ⟨w', hw', hyields'⟩ := hany h' hs' hq
  obtain ⟨x, hx, hcollects⟩ := hyields.exists_render
  obtain ⟨y, hy, hcollects'⟩ := hyields'.exists_render
  refine ⟨w', .array x, .array y, hw', hx, hy, ?_⟩
  rw [hcollects.alike_iff hcollects', ← and_imp, ← hshows]
  constructor
  · rintro hall ⟨i, hi, hn⟩
    simpa [hn] using hall i hi
  · intro hfill i hi
    cases hj : place i with
    | none => simpa [hj] using hfill ⟨i, hi, hj⟩
    | some j => exact .refl _

end View
end LazyApl
