import LazyApl.Proofs.Joining
import LazyApl.Proofs.Masking
import LazyApl.Proofs.Sections
import LazyApl.Proofs.SoundRendering
/-!
# What a join lays out

A join along an axis lays out its operands one after another, and nothing else. Each cell of an
operand, named by coordinates along all axes of the join, stands where the operand starts; what is
cut out there is the operand, with a coordinate along the join axis where it has none of its own.
-/
namespace LazyApl

open Outcome

namespace Shape

variable {w : Shape} {a : Nat} {n : Int} {c : List Int}

theorem size_set_one (ha : a < w.length) : size (w.set a 1) = size (w.eraseIdx a) := by
  induction w generalizing a with
  | nil => cases ha
  | cons m w ih =>
      cases a with
      | zero => simp
      | succ a => simp [ih (by simpa using ha)]

theorem dot_eraseIdx (ha : a < w.length) (hc : Within (w.set a 1) c) :
    dot (c.eraseIdx a) (strides (w.eraseIdx a)) = dot c (strides (w.set a 1)) := by
  induction w generalizing a c with
  | nil => cases ha
  | cons m w ih =>
      cases a with
      | zero =>
          cases hc with
          | @cons _ y _ c hy hc =>
              obtain rfl : y = 0 := by omega
              simp [dot, strides]
      | succ a =>
          cases hc with
          | @cons _ y _ c hy hc =>
              have ha : a < w.length := by simpa using ha
              simp only [List.eraseIdx_cons_succ, List.set_cons_succ, strides, dot,
                size_set_one ha, ih ha hc]

end Shape

namespace Join

variable {w s : Shape} {a k : Nat} {n : Int} {c ns : List Int} {shapes : List Shape}

/-- The coordinates that a cell has in an operand of shape `s`, from those along all axes of the
reference. -/
def own (w s : Shape) (a : Nat) (c : List Int) : List Int :=
  if s = [] then [] else if s.length < w.length then c.eraseIdx a else c

/-- An operand that lacks an axis has an extent of one along the join axis. -/
theorem TakesPart.extent_eq_one (h : TakesPart w a n s) (ha : a < w.length)
    (hs : s.length < w.length) : n = 1 := by
  have hget {e : Extents} (he : e = Extents.ofShape (w.set a n)) : e[a]? = some (.int n) := by
    rw [he]
    simp [Extents.ofShape, ha]
  have hext := h.extended_eq
  unfold extended at hext
  simp only [Extents.length_ofShape, if_neg hs.ne] at hext
  split at hext
  · have hn := hget (Except.ok.inj hext)
    have hset : (replaced (Extents.ofShape w) a 1)[a]? = some (.int 1) := by
      simp [replaced, ha]
    cases hset.symm.trans hn
    rfl
  · split at hext
    · rename_i hlen
      have hn := hget (Except.ok.inj hext)
      have hset : (inserted (Extents.ofShape s) a 1)[a]? = some (.int 1) :=
        getElem?_inserted (by simpa using (by omega : a ≤ s.length)) 1
      cases hset.symm.trans hn
      rfl
    · cases hext

/-- Every cell of an operand with all axes of the reference is one of the operand, at the same
position up to repetition. -/
theorem TakesPart.own_spec (h : TakesPart w a n s) (ha : a < w.length)
    (hc : Shape.Within (w.set a n) c) : s.Within (own w s a c) ∧
      Shape.dot (own w s a c) s.strides = Shape.dot c (Shape.strides (w.set a n)) % s.size := by
  have hone := h.extent_eq_one ha
  unfold own
  cases h.fits with
  | scalar =>
      refine ⟨Shape.within_nil, ?_⟩
      simp [Shape.dot]
  | full =>
      have hne : w.set a n ≠ [] := List.ne_nil_of_length_pos (by rw [List.length_set]; omega)
      rw [if_neg hne, if_neg (by simp)]
      exact ⟨hc, (Int.emod_eq_of_lt hc.holds.1 hc.holds.2).symm⟩
  | slice =>
      have hshort : (w.eraseIdx a).length < w.length := by
        rw [List.length_eraseIdx_of_lt ha]
        omega
      obtain rfl := hone hshort
      have hwithin := hc.eraseIdx a
      rw [List.eraseIdx_set_eq] at hwithin
      have hown : (if w.eraseIdx a = [] then [] else
          if (w.eraseIdx a).length < w.length then c.eraseIdx a else c) = c.eraseIdx a := by
        rw [if_pos hshort]
        split
        · rename_i h0
          have hlen := hwithin.length_eq
          rw [h0] at hlen
          exact (List.length_eq_zero_iff.mp hlen).symm
        · rfl
      rw [hown, Shape.dot_eraseIdx ha hc, ← Shape.size_set_one ha]
      exact ⟨hwithin, (Int.emod_eq_of_lt hc.holds.1 hc.holds.2).symm⟩

theorem TakesPart.set (h : TakesPart w a n s) (m : Int) : TakesPart (w.set a m) a n s := by
  have hset : (w.set a m).set a n = w.set a n := List.set_set ..
  refine ⟨?_, ?_⟩
  · cases h.fits with
    | scalar => exact .scalar
    | full => exact hset ▸ .full
    | slice => exact (List.eraseIdx_set_eq : (w.set a m).eraseIdx a = _) ▸ .slice
  · rw [hset, ← h.extended_eq]
    simp [extended, replaced, Extents.ofShape, List.map_set]

theorem Aligns.isProper_whole {j : Joint} (h : Aligns shapes j w a ns) :
    Shape.IsProper (w.set a ns.sum) :=
  h.proper.set (List.sum_nonneg h.extents_nonneg) a

theorem Aligns.exists_whole {j : Joint} (h : Aligns shapes j w a ns) :
    ∃ u : Shape, Aligns shapes j u a ns ∧ u[a]? = some ns.sum ∧ u.set a ns.sum = u := by
  have hset : (w.set a ns.sum).set a ns.sum = w.set a ns.sum := List.set_set ..
  refine ⟨w.set a ns.sum, ⟨h.isProper_whole, ?_, h.extents_nonneg,
    h.parts.imp fun n s hpart => hpart.set _, hset.symm ▸ h.joint_eq⟩, ?_, hset⟩
  · simpa using h.axis_lt
  · simp [h.axis_lt]

theorem cell_cells (ha : a < w.length) (hns : ∀ n ∈ ns, 0 ≤ n) {gens : List (Gen Item)}
    {gen : Gen Item} (hn : ns[k]? = some n) (hs : shapes[k]? = some s) (hgen : gens[k]? = some gen)
    (hc : Shape.Within (w.set a n) c) :
    (cells ⟨a, (starts ns).map .int, .ofShape (w.set a ns.sum)⟩ false
        (shapes.map Extents.ofShape) gens).cell
        (.int (Shape.dot (c.set a (c.getD a 0 + (ns.take k).sum))
          (Shape.strides (w.set a ns.sum)))) =
      gen.cell (.int (Shape.dot (own w s a c) s.strides)) := by
  rw [cell_of_locate (locate_part ha hns hn hs hc) hs hgen, own]

end Join

theorem getElem?_forall₂ {α β : Type} {R : α → β → Prop} {xs : List α} {ys : List β}
    (h : List.Forall₂ R xs ys) {k : Nat} {x : α} (hx : xs[k]? = some x) :
    ∃ y, ys[k]? = some y ∧ R x y := by
  obtain ⟨hk, rfl⟩ := List.getElem?_eq_some_iff.mp hx
  have hk' : k < ys.length := by rwa [← h.length_eq]
  exact ⟨ys[k], List.getElem?_eq_getElem hk', h.get hk hk'⟩

theorem Join.Aligns.settle_cell {shapes : List Shape} {j : Joint} {w s : Shape} {a k : Nat}
    {ns c : List Int} {n : Int} {xs : List Item} {x : Item} {gens : List (Gen Item)}
    {F : List Int → Item} (h : Join.Aligns shapes j w a ns)
    (hgens : List.Forall₂ (fun x gen => x.lift.generator = .ok gen) xs gens) (hk : xs[k]? = some x)
    (hs : shapes[k]? = some s) (hn : ns[k]? = some n) (hF : x.lift.OffersAt s F)
    (hc : Shape.Within (w.set a n) c) :
    (Join.cells j false (shapes.map .ofShape) gens).cell
        (.int (Shape.dot (c.set a (c.getD a 0 + (ns.take k).sum))
          (Shape.strides (w.set a ns.sum)))) >>= Item.settle = .ok (F (Join.own w s a c)) := by
  obtain rfl := h.joint_eq
  obtain ⟨s', hs', hpart⟩ := getElem?_forall₂ h.parts hn
  obtain rfl := Option.some.inj (hs.symm.trans hs')
  obtain ⟨hown, _⟩ := hpart.own_spec h.axis_lt hc
  obtain ⟨gen, hgk, hgen⟩ := getElem?_forall₂ hgens hk
  obtain ⟨gen', hgen', heach⟩ := hF.cells
  obtain rfl := Except.ok.inj (hgen.symm.trans hgen')
  rw [Join.cell_cells h.axis_lt h.extents_nonneg hn hs hgk hc, heach _ hown.holds,
    Shape.coordinates_dot hown]

/-- Two arrays at hand that hold the same item show it alike, in whatever form it has come to each
of them. -/
theorem Grid.Collects.alike_stored {g h : Grid Item} {s t : Shape} {f F f' F' : Int → Item}
    (hg : g.Collects s f) (hG : g.Collects s F) (hh : h.Collects t f') (hH : h.Collects t F')
    {i j : Int} (hi : s.Holds i) (hj : t.Holds j) (heq : f i = f' j) :
    Item.Alike (F i).stored (F' j).stored := by
  obtain ⟨x, y, hx, hy, halike⟩ := hg.alikeAt hh hi hj heq
  obtain ⟨k, hk⟩ := hG.cells i hi
  obtain ⟨l, hl⟩ := hH.cells j hj
  obtain rfl := Option.some.inj (hk.symm.trans hx)
  obtain rfl := Option.some.inj (hl.symm.trans hy)
  rwa [Item.alike_countedFor, Item.alike_countedFor_right] at halike

namespace Item

variable {w : Shape} {a : Nat} {ns : List Int} {shapes : List Shape} {front : Item}
  {rest : List Item} {axis : Option Item} {first between : Bool} {origin : Origin} {j : Joint}

/-- A join asks its operands for their shapes, their cells and their element types, and the first
one for the fill. -/
theorem exists_catenate_of_parts {extents : List Extents} {gens : List (Gen Item)}
    (hs : ((front :: rest).map lift).mapM View.shape = .ok extents)
    (hg : ((front :: rest).map lift).mapM View.generator = .ok gens)
    (hb : Join.isBetween axis = .ok between)
    (hj : Join.layout extents axis first origin = .ok j) :
    ∃ v, catenate (front :: rest) axis first origin = .ok v ∧ v.IsComputed ∧
      v.prototype = front.lift.prototype ∧ v.shape = .ok j.shape ∧
      v.generator = .ok (Join.cells j between extents gens) ∧
      ∀ types, ((front :: rest).map lift).mapM View.etype = .ok types → ∃ e, v.etype = .ok e := by
  refine ⟨_, rfl, ⟨_, rfl⟩, rfl, ?_, ?_, fun types htypes => ?_⟩
  · simp only [View.shape_computed, Lazy.get_delay, Lazy.get_keep, hs, hj, bind, Except.bind]
    rfl
  · simp only [View.generator_computed, Lazy.get_keep, hs, hj, hg, hb, bind, Except.bind]
    rfl
  · simp only [View.etype_computed, Lazy.get_delay, htypes, bind, Except.bind]
    exact ⟨_, rfl⟩

/-- What a join answers, if all its operands answer and its layout comes about. -/
theorem catenate_answers
    (hx : List.Forall₂ (fun x s => ∃ f, x.lift.Offers s f) (front :: rest) shapes)
    (hb : Join.isBetween axis = .ok between)
    (hj : Join.layout (shapes.map .ofShape) axis first origin = .ok j) :
    ∃ v gens, catenate (front :: rest) axis first origin = .ok v ∧ v.IsComputed ∧
      v.prototype = front.lift.prototype ∧ v.shape = .ok j.shape ∧ (∃ e, v.etype = .ok e) ∧
      v.generator = .ok (Join.cells j between (shapes.map .ofShape) gens) ∧
      List.Forall₂ (fun x gen => x.lift.generator = .ok gen) (front :: rest) gens := by
  have hoffers {v : View Item} (hv : v ∈ (front :: rest).map lift) : ∃ s f, v.Offers s f := by
    obtain ⟨x, hxm, rfl⟩ := List.mem_map.mp hv
    obtain ⟨k, hk⟩ := List.mem_iff_getElem?.mp hxm
    obtain ⟨s, _, f, hf⟩ := getElem?_forall₂ hx hk
    exact ⟨s, f, hf⟩
  have hshapes : ((front :: rest).map lift).mapM View.shape = .ok (shapes.map .ofShape) := by
    rw [mapM_eq_ok, List.forall₂_map_left_iff, List.forall₂_map_right_iff]
    exact hx.imp fun x s ⟨f, hf⟩ => hf.shape
  obtain ⟨types, htypes⟩ : ∃ types, ((front :: rest).map lift).mapM View.etype = .ok types := by
    refine exists_mapM fun v hv => ?_
    obtain ⟨s, f, hf⟩ := hoffers hv
    exact hf.etype
  obtain ⟨gens, hgens⟩ : ∃ gens, ((front :: rest).map lift).mapM View.generator = .ok gens := by
    refine exists_mapM fun v hv => ?_
    obtain ⟨s, f, hf⟩ := hoffers hv
    obtain ⟨gen, hgen, _⟩ := hf.cells
    exact ⟨gen, hgen⟩
  obtain ⟨v, hv, hcomputed, hproto, hshape, hgen, hetype⟩ :=
    exists_catenate_of_parts hshapes hgens hb hj
  rw [mapM_eq_ok, List.forall₂_map_left_iff] at hgens
  exact ⟨v, gens, hv, hcomputed, hproto, hshape, hetype types htypes, hgen, hgens⟩

theorem isReady_of_catenate {v : View Item} {u : Shape} (hv : v.IsComputed)
    (hshape : v.shape = .ok (.ofShape u)) (hu : u.IsProper)
    (hproto : v.prototype = front.lift.prototype) (hfront : front.lift.IsReady) : v.IsReady := by
  refine ⟨fun e he => ?_, fun p hp => hfront.fill p (hproto ▸ hp), fun g hg => ?_⟩
  · exact ⟨u, Except.ok.inj (he.symm.trans hshape), hu⟩
  · obtain ⟨facts, rfl⟩ := hv
    cases hg

/-- A join of arrays that offer items offers the items of each of them, moved along the join axis to
where the array starts. -/
theorem exists_catenate_offers
    (hx : List.Forall₂ (fun x s => ∃ F, x.lift.OffersAt s F) (front :: rest) shapes)
    (hfront : front.lift.IsReady) (hb : Join.isBetween axis = .ok false)
    (hj : Join.layout (shapes.map .ofShape) axis first origin = .ok j)
    (h : Join.Aligns shapes j w a ns) :
    ∃ v G, catenate (front :: rest) axis first origin = .ok v ∧ v.IsReady ∧
      v.prototype = front.lift.prototype ∧ v.OffersAt (w.set a ns.sum) G ∧
      ∀ k x s n F, (front :: rest)[k]? = some x → shapes[k]? = some s → ns[k]? = some n →
        x.lift.OffersAt s F → ∀ c, Shape.Within (w.set a n) c →
          G (c.set a (c.getD a 0 + (ns.take k).sum)) = F (Join.own w s a c) := by
  obtain ⟨v, gens, hv, hcomputed, hproto, hshape, hetype, hgen, hgens⟩ :=
    catenate_answers (hx.imp fun x s ⟨F, hF⟩ => ⟨_, hF⟩) hb hj
  rw [h.joint_eq] at hshape
  have hread : ∀ c, Shape.Within (w.set a ns.sum) c → ∃ y,
      (Join.cells j false (shapes.map .ofShape) gens).cell
        (.int (Shape.dot c (Shape.strides (w.set a ns.sum)))) >>= settle = .ok y := by
    intro i hi
    obtain ⟨k, n, c, hn, hc, hdot⟩ :=
      Join.exists_part h.proper h.axis_lt h.extents_nonneg hi.holds
    obtain ⟨s, hs, _⟩ := getElem?_forall₂ h.parts hn
    obtain ⟨x, hk, F, hF⟩ := getElem?_forall₂ hx.flip hs
    rw [← hdot]
    exact ⟨_, h.settle_cell hgens hk hs hn hF hc⟩
  have hitem : Nonempty Item := ⟨.nothing⟩
  choose! G hG using hread
  have hoffers : v.OffersAt (w.set a ns.sum) G := by
    refine ⟨hshape, hetype, _, hgen, fun i hi => ?_⟩
    rw [← hG _ (Shape.coordinates_within h.isProper_whole hi),
      Shape.dot_coordinates h.isProper_whole hi]
  refine ⟨v, G, hv, isReady_of_catenate hcomputed hshape h.isProper_whole hproto hfront, hproto,
    hoffers, fun k x s n F hk hs hn hF c hc => ?_⟩
  have hmoved := Join.within_part h.axis_lt h.extents_nonneg hn hc
  exact Except.ok.inj ((hG _ hmoved).symm.trans (h.settle_cell hgens hk hs hn hF hc))

/-- A join of arrays that show items shows the items of each of them, moved along the join axis to
where the array starts. If there is no item at all, the first array is asked for its fill. -/
theorem exists_catenate
    (hx : List.Forall₂ (fun x s => ∃ F, x.lift.LaysOut s F) (front :: rest) shapes)
    (hb : Join.isBetween axis = .ok false)
    (hj : Join.layout (shapes.map .ofShape) axis first origin = .ok j)
    (h : Join.Aligns shapes j w a ns) :
    ∃ v G, catenate (front :: rest) axis first origin = .ok v ∧ v.IsReady ∧
      v.shape = .ok (.ofShape (w.set a ns.sum)) ∧ v.prototype = front.lift.prototype ∧
      ((Shape.size (w.set a ns.sum) = 0 → ∃ p, front.lift.prototype = .ok p) →
        v.LaysOut (w.set a ns.sum) G) ∧
      ∀ k x s n F, (front :: rest)[k]? = some x → shapes[k]? = some s → ns[k]? = some n →
        x.lift.LaysOut s F → ∀ c, Shape.Within (w.set a n) c →
          G (c.set a (c.getD a 0 + (ns.take k).sum)) = F (Join.own w s a c) := by
  have hfront : front.lift.IsReady := by
    cases hx with
    | cons hfront _ =>
        obtain ⟨F, hF⟩ := hfront
        exact hF.ready
  obtain ⟨v, G, hv, hready, hproto, hoffers, hcells⟩ := exists_catenate_offers
    (hx.imp fun x s ⟨F, hF⟩ => ⟨F, hF.offersAt⟩) hfront hb hj h
  exact ⟨v, G, hv, hready, hoffers.shape, hproto,
    fun hfill => ⟨hoffers, hready, hproto ▸ hfill⟩,
    fun k x s n F hk hs hn hF => hcells k x s n F hk hs hn hF.offersAt⟩

theorem isSound_of_catenate {xs : List Item} {v : View Item}
    (hx : ∀ x ∈ xs, (view x.lift).IsSound) (hv : catenate xs axis first origin = .ok v)
    (ready : v.IsReady) : (view v).IsSound := by
  refine .view ready fun gen i x hgen hcell => ?_
  obtain ⟨j, between, shapes, gens, rfl, hgens⟩ := generator_of_catenate axis first origin hv hgen
  obtain ⟨gen, hmem, k, hk⟩ := Join.exists_cell hcell
  obtain ⟨y, hy, hgen⟩ := hgens gen hmem
  cases hx y hy with
  | view _ cells => exact cells gen k x hgen hk

theorem reshape_eq {v : View Item} {d : Shape} (hd : d.IsProper) :
    reshape (view v) (array (Grid.ofInts d)) = .ok (v.under (.reshape .reshape d)) := by
  have hflat : flat (array (Grid.ofInts d)) .shapeArgument =
      .ok (view (View.ofGrid (Grid.ofInts d))) := rfl
  have hitems : (view (View.ofGrid (Grid.ofInts d))).items = .ok (d.map int) :=
    items_ofNumbers (s := [d.length]) (by simp)
  simp only [reshape, hflat, hitems, newShape_ints hd, bind, Except.bind]
  rfl

end Item

namespace View

variable {root : Root Item} {r s t w : Shape} {v : View Item} {F : List Int → Item} {a : Nat}
  {m n o : Int}

theorem OffersAt.reshape_part (h : v.OffersAt s F) (hs : StandsOn root r v s) (hw : w.IsProper)
    (hn : 0 ≤ n) (ha : a < w.length) (hpart : Join.TakesPart w a n s)
    (hp : s.size = 0 → ∃ p, v.prototype = .ok p) :
    (v.under (.reshape .reshape (w.set a n))).OffersAt (w.set a n) fun c =>
      F (Join.own w s a c) := by
  have hd : Shape.IsProper (w.set a n) := hw.set hn a
  have hproper := (hs.stands.keeps Item.fillOf).proper
  obtain ⟨l, hl, hreach⟩ := Reshape.reach_link hd hproper
  refine h.under hs (x := .reshape .reshape (w.set a n)) hd rfl hl rfl (fun c hc => ?_)
    (exists_etype_reshape h.shape h.etype hp _ _)
  obtain ⟨hown, hdot⟩ := hpart.own_spec ha hc
  exact ⟨hown, by rw [hreach _ hc.holds hown.holds.size_pos.ne', hdot]⟩

theorem LaysOut.reshape_part (h : v.LaysOut s F) (hs : StandsOn root r v s) (hw : w.IsProper)
    (hn : 0 ≤ n) (ha : a < w.length) (hpart : Join.TakesPart w a n s)
    (hp : ∃ p, v.prototype = .ok p) :
    (v.under (.reshape .reshape (w.set a n))).LaysOut (w.set a n) fun c =>
      F (Join.own w s a c) := by
  refine ⟨h.offersAt.reshape_part hs hw hn ha hpart fun _ => hp,
    h.ready.under (hs.reshape (hw.set hn a)) rfl, fun _ => ?_⟩
  rwa [prototype_under rfl]

theorem LaysOut.cut_out (h : v.LaysOut t F) (hs : StandsOn root r v t) (ha : t[a]? = some m)
    (ho : 0 ≤ o) (hn : 0 ≤ n) (hm : o + n ≤ m) (hp : ∃ p, v.prototype = .ok p) :
    ((v.under (.cut .drop true [o] (some [(a : Int)]))).under
      (.cut .take false [n] (some [(a : Int)]))).LaysOut (t.set a n) fun c =>
        F (c.set a (c.getD a 0 + o)) := by
  have hdrop : Span.cut true o m = ⟨o, m, 0, 0⟩ := (Span.cut_of_nonneg ho (by omega)).2
  have htake : Span.cut false n (m - o) = ⟨0, n, 0, 0⟩ := (Span.cut_of_nonneg hn (by omega)).1
  have hlt := (List.getElem?_eq_some_iff.mp ha).1
  have hdropped := h.cut hs ha hdrop rfl (fun _ => hp) .drop
  have hstands := hs.above_along .drop true o ha
  have hset : (t.set a (m - o))[a]? = some (m - o) := by simp [hlt]
  rw [hdrop, Span.extent_cells] at hstands
  rw [Span.extent_cells] at hdropped
  have hfill : ∃ p, (v.under (.cut .drop true [o] (some [(a : Int)]))).prototype = .ok p := by
    rwa [prototype_under rfl]
  have htaken := hdropped.cut hstands hset htake rfl (fun _ => hfill) .take
  rw [Span.extent_cells, sub_zero, List.set_set] at htaken
  refine htaken.congr fun c hc => ?_
  have hac : a < c.length := by simpa [hc.length_eq] using hlt
  simp [List.getD_eq_getElem?_getD, hac]

theorem IsReady.exists_laysOut {g : Grid Item} (h : v.IsReady)
    (hr : (Item.view v).render = .ok (.array g)) :
    ∃ F, v.LaysOut g.shape F ∧ g.Collects g.shape fun i => F (g.shape.coordinates i) := by
  obtain ⟨f, hf, hg⟩ := h.exists_yields hr
  refine ⟨_, hf.laysOut, hg.shape_eq, hg.length_eq, fun i hi => ?_⟩
  rw [Shape.dot_coordinates hf.isProper hi]
  exact hg.cells i hi

theorem LaysOut.standsOn_ofGrid {g : Grid Item} (h : (ofGrid g).LaysOut g.shape F) :
    StandsOn (.concrete g) g.shape (ofGrid g) g.shape :=
  ⟨rfl, .root rfl (Yields.isProper h)⟩

theorem LaysOut.exists_cut_out {g : Grid Item} (h : (ofGrid g).LaysOut g.shape F)
    (ha : g.shape[a]? = some m) (ho : 0 ≤ o) (hn : 0 ≤ n) (hm : o + n ≤ m) :
    ∃ dropped taken x,
      Item.drop (.array g) (.int o) (some (.int a)) (.int 0) = .ok dropped ∧
      Item.take (.view dropped) (.int n) (some (.int a)) (.int 0) = .ok taken ∧
      (Item.view taken).render = .ok (.array x) ∧
      x.Collects (g.shape.set a n) fun i =>
        F ((Shape.coordinates (g.shape.set a n) i).set a
          ((Shape.coordinates (g.shape.set a n) i).getD a 0 + o)) := by
  have hlt := (List.getElem?_eq_some_iff.mp ha).1
  have hs := h.standsOn_ofGrid
  have hdrop : Item.drop (.view (ofGrid g)) (.int o) (some (.int (0 + a))) (.int 0) = .ok _ :=
    cut_along h.shape rfl hlt
  have hdropped := (hs.above_along .drop true o ha).shape_eq
  have htake : Item.take (.view _) (.int n) (some (.int (0 + a))) (.int 0) = .ok _ :=
    cut_along hdropped rfl (by simpa using hlt)
  rw [zero_add] at hdrop htake
  obtain ⟨x, hx, hcollects⟩ := (h.cut_out hs ha ho hn hm ⟨_, rfl⟩).exists_render
  exact ⟨_, _, x, hdrop, htake, hx, hcollects⟩

theorem LaysOut.exists_reshape_part {g : Grid Item} (h : (ofGrid g).LaysOut g.shape F)
    (hw : w.IsProper) (hn : 0 ≤ n) (ha : a < w.length) (hpart : Join.TakesPart w a n g.shape) :
    ∃ whole x, Item.reshape (.array g) (.array (Grid.ofInts (w.set a n))) = .ok whole ∧
      (Item.view whole).render = .ok (.array x) ∧
      x.Collects (w.set a n) fun i =>
        F (Join.own w g.shape a (Shape.coordinates (w.set a n) i)) := by
  have hreshape := Item.reshape_eq (v := ofGrid g) (hw.set hn a)
  obtain ⟨x, hx, hcollects⟩ :=
    (h.reshape_part h.standsOn_ofGrid hw hn ha hpart ⟨_, rfl⟩).exists_render
  exact ⟨_, x, hreshape, hx, hcollects⟩

/-- What is cut out of an array at hand is alike to another one, with all axes of the array, if the
two hold the same items there. -/
theorem exists_cut_out_alike {g h : Grid Item} {F G : List Int → Item} (hh : (ofGrid h).IsReady)
    (hg : (ofGrid g).IsReady) (hhG : h.Collects h.shape fun i => G (h.shape.coordinates i))
    (hgF : g.Collects g.shape fun i => F (g.shape.coordinates i)) (ha : h.shape[a]? = some m)
    (ho : 0 ≤ o) (hn : 0 ≤ n) (hm : o + n ≤ m) (hpart : Join.TakesPart h.shape a n g.shape)
    (hsame : ∀ c, Shape.Within (h.shape.set a n) c →
      G (c.set a (c.getD a 0 + o)) = F (Join.own h.shape g.shape a c)) :
    ∃ dropped taken whole x y,
      Item.drop (.array h) (.int o) (some (.int a)) (.int 0) = .ok dropped ∧
      Item.take (.view dropped) (.int n) (some (.int a)) (.int 0) = .ok taken ∧
      Item.reshape (.array g) (.array (Grid.ofInts (h.shape.set a n))) = .ok whole ∧
      (Item.view taken).render = .ok x ∧ (Item.view whole).render = .ok y ∧ Item.Alike x y := by
  obtain ⟨H, hH, hhH⟩ := hh.exists_laysOut rfl
  obtain ⟨F', hF', hgF'⟩ := hg.exists_laysOut rfl
  have hproper := Yields.isProper hH
  obtain ⟨hlt, hget⟩ := List.getElem?_eq_some_iff.mp ha
  obtain ⟨dropped, taken, p, hdrop, htake, hp, hpH⟩ := hH.exists_cut_out ha ho hn hm
  obtain ⟨whole, q, hreshape, hq, hqF⟩ := hF'.exists_reshape_part hproper hn hlt hpart
  refine ⟨dropped, taken, whole, _, _, hdrop, htake, hreshape, hp, hq, ?_⟩
  refine (hpH.alike_iff hqF).mpr fun i hi => ?_
  have hc := Shape.coordinates_within (hproper.set hn a) hi
  have hx := hc.getD_bounds (a := a) (n := n) (by simp [hlt])
  have hmoved := hc.move ha (x := (Shape.coordinates (h.shape.set a n) i).getD a 0 + o) (by omega)
  obtain ⟨hown, _⟩ := hpart.own_spec hlt hc
  have halike := hhG.alike_stored hhH hgF hgF' hmoved.holds hown.holds (by
    rw [Shape.coordinates_dot hmoved, Shape.coordinates_dot hown, hsame _ hc])
  rwa [Shape.coordinates_dot hmoved, Shape.coordinates_dot hown] at halike

end View

namespace Item

variable {front : Item} {rest : List Item} {axis : Option Item} {first : Bool} {origin : Origin}

theorem aligned_of_layout {shapes : List Extents} {j : Joint} (hb : Join.isBetween axis ≠ .ok true)
    (hj : Join.layout shapes axis first origin = .ok j) :
    Join.isBetween axis = .ok false ∧ Join.aligned shapes axis first origin = .ok j := by
  obtain ⟨b, hbetween, hj⟩ := bind_eq_ok.mp hj
  cases b with
  | true => exact absurd hbetween hb
  | false => exact ⟨hbetween, hj⟩

theorem IsSound.isReady_ofGrid {g : Grid Item} (h : (Item.array g).IsSound) :
    (View.ofGrid g).IsReady := by
  cases h with
  | array ready _ => exact ready

/-- A join along an axis lays out exactly its operands. Each of them has an extent of its own along
the axis, and these sum up to the extent of the whole. What is left of the rendered join, when the
cells before an operand are dropped and as many are taken as the operand has, is the operand with
all axes of the join. The join renders, unless it has no cells and the first operand has no
fill. -/
theorem drop_take_catenate {gs : List (Grid Item)} {j : Joint}
    (hx : List.Forall₂ (fun x g => (view x.lift).IsSound ∧ (view x.lift).render = .ok (.array g))
      (front :: rest) gs)
    (hb : Join.isBetween axis ≠ .ok true)
    (hj : Join.layout (gs.map fun g => .ofShape g.shape) axis first origin = .ok j) :
    ∃ (a : Nat) (ns : List Int) (u : Shape) (w : View Item),
      j = ⟨a, (Join.starts ns).map .int, .ofShape u⟩ ∧ u[a]? = some ns.sum ∧
      List.Forall₂ (fun n g => Join.TakesPart u a n g.shape) ns gs ∧
      catenate (front :: rest) axis first origin = .ok w ∧
      ((u.size = 0 → ∃ p, front.lift.prototype = .ok p) →
        ∃ h, (view w).render = .ok (.array h)) ∧
      ∀ h, (view w).render = .ok (.array h) → h.shape = u ∧ ∀ k g n, gs[k]? = some g →
        ns[k]? = some n → ∃ dropped taken whole x y,
          drop (.array h) (.int (ns.take k).sum) (some (.int a)) (.int 0) = .ok dropped ∧
          take (.view dropped) (.int n) (some (.int a)) (.int 0) = .ok taken ∧
          reshape (.array g) (.array (Grid.ofInts (u.set a n))) = .ok whole ∧
          (view taken).render = .ok x ∧ (view whole).render = .ok y ∧ Alike x y := by
  have hlays : List.Forall₂ (fun x s => ∃ F, x.lift.LaysOut s F) (front :: rest)
      (gs.map Grid.shape) := by
    rw [List.forall₂_map_right_iff]
    refine hx.imp fun x g h => ?_
    obtain ⟨F, hF, _⟩ := h.1.isReady.exists_laysOut h.2
    exact ⟨F, hF⟩
  have hproper : ∀ s ∈ gs.map Grid.shape, s.IsProper := by
    intro s hs
    obtain ⟨k, hk⟩ := List.mem_iff_getElem?.mp hs
    obtain ⟨x, _, F, hF⟩ := getElem?_forall₂ hlays.flip hk
    exact View.Yields.isProper hF
  have hshapes : (gs.map fun g => Extents.ofShape g.shape) = (gs.map Grid.shape).map .ofShape := by
    simp
  rw [hshapes] at hj
  obtain ⟨hbetween, haligned⟩ := aligned_of_layout hb hj
  obtain ⟨v, a, ns, h⟩ := Join.exists_aligns hproper haligned
  obtain ⟨u, h, hsum, hset⟩ := h.exists_whole
  obtain ⟨w, G, hw, hready, hshape, hproto, hG, hcells⟩ := exists_catenate hlays hbetween hj h
  have hjoint := h.joint_eq
  have hparts := h.parts
  rw [hset] at hshape hG hjoint
  rw [List.forall₂_map_right_iff] at hparts
  refine ⟨a, ns, u, w, hjoint, hsum, hparts, hw, fun hfill => ?_, fun g hg => ?_⟩
  · obtain ⟨g, hg, _⟩ := (hG hfill).exists_render
    exact ⟨g, hg⟩
  -- the join at hand is sound as its operands are, and holds their items
  have hsound : (view w).IsSound := by
    refine isSound_of_catenate (fun x hmem => ?_) hw hready
    obtain ⟨k, hk⟩ := List.mem_iff_getElem?.mp hmem
    obtain ⟨_, _, hx, _⟩ := getElem?_forall₂ hx hk
    exact hx
  obtain ⟨f, hf, _⟩ := hready.exists_yields hg
  obtain rfl : g.shape = u := Extents.ofShape_inj (Except.ok.inj (hf.shape.symm.trans hshape))
  obtain ⟨_, hg', hgG⟩ := (hG (hproto ▸ hf.prototype)).exists_render
  cases hg.symm.trans hg'
  refine ⟨rfl, fun k gk n hk hn => ?_⟩
  obtain ⟨x, hxk, hxs, hxg⟩ := getElem?_forall₂ hx.flip hk
  obtain ⟨_, hk', hpart⟩ := getElem?_forall₂ hparts hn
  cases hk.symm.trans hk'
  obtain ⟨F, hF, hgF⟩ := hxs.isReady.exists_laysOut hxg
  -- the part is where the operands before it end
  obtain ⟨hstart, hend⟩ := Join.start_bounds h.extents_nonneg hn
  exact View.exists_cut_out_alike (hsound.render hg).isReady_ofGrid
    (hxs.render hxg).isReady_ofGrid hgG hgF hsum hstart
    (h.extents_nonneg n (List.mem_of_getElem? hn)) hend hpart
    fun c hc => hcells k x gk.shape n F hxk (by simp [hk]) hn hF c hc

theorem isSound_ofNumbers {s : Shape} {ns : List Int} (hs : s.IsProper)
    (hl : ns.length = s.size.toNat) :
    (view (View.ofGrid (Grid.of s (ns.map int) none))).IsSound := by
  refine isSound_ofGrid (View.isReady_ofNumbers hs hl) fun y hy => ?_
  simp only [Grid.of, List.map_map, List.mem_map] at hy
  obtain ⟨n, _, rfl⟩ := hy
  exact .scalar _

/-- Two rows of two, a column, no column at all, and one number for all rows. -/
def sides : List (Grid Item) :=
  [Grid.of [2, 2] ([1, 2, 3, 4].map int) none, Grid.of [2] ([5, 6].map int) none,
    Grid.of [2, 0] (([] : List Int).map int) none, Grid.of [] ([7].map int) none]

/-- The column is what is cut out of the join at its place. -/
theorem drop_take_catenate_sides :
    ∃ w h dropped taken whole x y,
      catenate (sides.map array) none false (.int 1) = .ok w ∧
      (view w).render = .ok (.array h) ∧ h.shape = [2, 4] ∧
      drop (.array h) (.int 2) (some (.int 1)) (.int 0) = .ok dropped ∧
      take (.view dropped) (.int 1) (some (.int 1)) (.int 0) = .ok taken ∧
      reshape (.array (Grid.of [2] ([5, 6].map int) none)) (.array (Grid.ofInts [2, 1])) =
        .ok whole ∧
      (view taken).render = .ok x ∧ (view whole).render = .ok y ∧ Alike x y := by
  have operands : List.Forall₂
      (fun x g => (view x.lift).IsSound ∧ (view x.lift).render = .ok (.array g))
      (sides.map array) sides := by
    refine .cons ⟨isSound_ofNumbers (by simp [Shape.IsProper]) rfl, rfl⟩
      (.cons ⟨isSound_ofNumbers (by simp [Shape.IsProper]) rfl, rfl⟩
      (.cons ⟨isSound_ofNumbers (by simp [Shape.IsProper]) rfl, rfl⟩
      (.cons ⟨isSound_ofNumbers (by simp [Shape.IsProper]) rfl, rfl⟩ .nil)))
  have layout : Join.layout (sides.map fun g => .ofShape g.shape) none false (.int 1) =
      .ok ⟨1, [0, 2, 3, 3].map .int, .ofShape [2, 4]⟩ := rfl
  obtain ⟨a, ns, u, w, hj, _, hparts, hw, hrender, hcut⟩ :=
    drop_take_catenate operands (by decide) layout
  obtain ⟨h, hh⟩ := hrender fun _ => ⟨_, rfl⟩
  obtain ⟨hshape, hcut⟩ := hcut h hh
  simp only [Joint.mk.injEq] at hj
  obtain ⟨haxis, hstarts, hu⟩ := hj
  obtain rfl : 1 = a := Int.ofNat.inj haxis
  obtain rfl : ([2, 4] : Shape) = u := Extents.ofShape_inj hu
  have hstarts : [0, 2, 3, 3] = Join.starts ns := Extents.ofShape_inj hstarts
  -- the column is the second operand
  obtain ⟨n, hn, hpart⟩ := getElem?_forall₂ hparts.flip (show sides[1]? = some _ from rfl)
  obtain rfl : 1 = n := by
    have hextended := Extents.ofShape_inj (s := [2, 1]) (Except.ok.inj hpart.extended_eq)
    simpa using hextended
  have hsum : (ns.take 1).sum = 2 := by
    rw [← Join.getElem_starts ns 1 (by simp [← hstarts])]
    simp [← hstarts]
  obtain ⟨dropped, taken, whole, x, y, hdrop, htake, hreshape, hx, hy, halike⟩ := hcut 1 _ 1 rfl hn
  rw [hsum] at hdrop
  exact ⟨w, h, dropped, taken, whole, x, y, hw, hh, hshape, hdrop, htake, hreshape, hx, hy, halike⟩

end Item
end LazyApl
