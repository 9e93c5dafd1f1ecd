import LazyApl.Proofs.Covering
import LazyApl.Proofs.MixedShapes
/-!
# Mixing undoes enclosing

The windows of an array that its enclosed axes make have one shape, so mixing them fills nothing up:
a cell of the result is a cell of the window that the leading coordinates name, at the place that
the trailing ones name there. From the first cell of the array it lies as far as the strides along
the remaining and then the enclosed axes say, which is where the transpose finds it that puts the
axes in this order.
-/
namespace LazyApl

open Outcome

theorem map_upTo_getD {α β : Type} (l : List α) (d : α) (f : α → β) :
    ((upTo l.length).map fun i => f (l.getD i.toNat d)) = l.map f := by
  refine List.ext_getElem (by simp) fun i hi hi' => ?_
  have hlt : i < l.length := by simpa using hi'
  simp [upTo, List.getD_eq_getElem?_getD, hlt]

namespace EType

/-- The types are of one kind, or both of whole numbers. -/
def IsAkin (t u : EType) : Prop :=
  t.kind = u.kind ∨ (t.kind = .bit ∨ t.kind = .int) ∧ (u.kind = .bit ∨ u.kind = .int)

theorem IsAkin.join {t u : EType} (h : t.IsAkin u) : (t.join u).IsAkin u := by
  by_cases hu : u.kind = .bit ∨ u.kind = .int
  · have ht : t.kind = .bit ∨ t.kind = .int := by
      rcases h with h | h
      · rwa [h]
      · exact h.1
    have hj : t.join u = joinRanges t u := by
      rcases ht with ht | ht <;> rcases hu with hu | hu <;> simp [EType.join, ht, hu]
    rw [hj]
    exact .inr ⟨kind_joinRanges t u, hu⟩
  · have ht : t.kind = u.kind := h.resolve_right fun h => hu h.2
    left
    cases hk : u.kind <;> simp_all [EType.join, mixed, char, complex, float, ofKind]

theorem joinAll_replicate (n : Nat) (t : EType) :
    ∃ u, joinAll (List.replicate (n + 1) t) = some u ∧ u.IsAkin t := by
  have hstep (m : Nat) {a : EType} (ha : a.IsAkin t) :
      ((List.replicate m t).foldl join a).IsAkin t := by
    induction m generalizing a with
    | zero => exact ha
    | succ m ih => exact ih ha.join
  exact ⟨_, joinAll_cons t (List.replicate n t), hstep n (.inl rfl)⟩

theorem IsAkin.countedFor_eq {t u : EType} (h : t.IsAkin u) :
    Item.countedFor t.kind = Item.countedFor u.kind := by
  rcases h with h | ⟨ht, hu⟩
  · rw [h]
  · funext x
    rw [Item.countedFor, Item.countedFor, if_pos ht, if_pos hu]

end EType

namespace Grid

variable {g : Grid Item} {t : Shape} {source : Int → Int}

/-- The cell of an array at hand at a position. -/
def cellAt (g : Grid Item) (i : Int) : Item := g.items.getD i.toNat (.int 0)

theorem IsKept.getElem?_eq (hk : g.IsKept) {i : Int} (hi : g.shape.Holds i) :
    g.items[i.toNat]? = some (g.cellAt i) := by
  obtain ⟨_, _, hcell⟩ := hk.cells
  obtain ⟨y, hy, _⟩ := hcell i hi
  rw [cellAt, List.getD_eq_getElem?_getD, hy, Option.getD_some]

theorem IsKept.isKept_cellAt (hk : g.IsKept) {i : Int} (hi : g.shape.Holds i) :
    (g.cellAt i).IsKept :=
  hk.items _ (List.mem_of_getElem? (hk.getElem?_eq hi))

/-- The array of a shape that shows at each position some cell of another array. -/
def gathered (g : Grid Item) (t : Shape) (source : Int → Int) : Grid Item :=
  Grid.of t (((upTo t.size).map fun i => g.cellAt (source i)).map (Item.countedFor g.etype.kind))
    (if t.size = 0 then some g.prototype else none)

theorem IsKept.gathered_alike (hk : g.IsKept) (h : ∀ i, g.shape.Holds i → source i = i) :
    Item.Alike (.array g) (.array (g.gathered g.shape source)) := by
  have hg : g.Collects g.shape g.cellAt := by
    refine ⟨rfl, hk.length_eq, fun i hi => ⟨.mixed, ?_⟩⟩
    rw [hk.getElem?_eq hi]
    exact congrArg some (hk.isKept_cellAt hi).stored_eq.symm
  have hh : (g.gathered g.shape source).Collects g.shape fun i => g.cellAt (source i) := by
    refine ⟨rfl, by simp [gathered, Grid.of], fun i hi => ⟨g.etype.kind, ?_⟩⟩
    have hlt : i.toNat < g.shape.size.toNat := by
      unfold Shape.Holds at hi
      omega
    simp [gathered, Grid.of, upTo, hlt, Int.toNat_of_nonneg hi.1]
  exact hg.alike hh fun i hi => congrArg g.cellAt (h i hi).symm

end Grid

namespace View

variable {v w : View Item} {g : Grid Item} {t : Shape} {source : Int → Int}

/-- An array that shows at each position some cell of an array at hand, has its fill, and is of an
element type akin to its own. -/
structure Gathers (v : View Item) (g : Grid Item) (t : Shape) (source : Int → Int) : Prop where
  shape : v.shape = .ok (.ofShape t)
  etype : ∃ e, v.etype = .ok e ∧ e.IsAkin g.etype
  prototype : t.size = 0 → v.prototype = .ok g.prototype
  cells : ∃ cells, v.settled.generator .now = .ok cells ∧
    ∀ i, t.Holds i → cells.cell (.int i) = .ok (g.cellAt (source i))

theorem Gathers.render_eq (h : v.Gathers g t source) (hv : ¬ ∃ g, v = ofGrid g) :
    (Item.view v).render = .ok (.array (g.gathered t source)) := by
  obtain ⟨e, he, hakin⟩ := h.etype
  obtain ⟨cells, hcells, hcell⟩ := h.cells
  have hread : (upTo t.size).mapM (fun i : Int => cells.cell i) =
      .ok ((upTo t.size).map fun i => g.cellAt (source i)) :=
    mapM_ok fun i hi => hcell i (mem_upTo.mp hi)
  have hfill : (if t.size = 0 then some <$> v.settled.prototype .now else .ok none) =
      Except.ok (if t.size = 0 then some g.prototype else none) := by
    split
    · rename_i h0
      rw [prototype_settled, h.prototype h0]
      rfl
    · rfl
  have hcollect := (Tower.collect_eq_ok ((shape_settled v).trans h.shape)).mpr
    ⟨cells, _, e, _, hcells, hread, (etype_settled v).trans he, hfill, rfl⟩
  rw [View.render_eq hv, hcollect, Grid.gathered, hakin.countedFor_eq]
  rfl

theorem standsOn_ofGrid (hs : g.shape.IsProper) :
    StandsOn (.concrete g) g.shape (ofGrid g) g.shape := ⟨rfl, .root rfl hs⟩

/-- A transpose of an array at hand shows the cells to which the strides along the order lead. -/
theorem gathers_permute {order : List Int} (hk : g.IsKept) (hs : g.shape.IsProper)
    (h : order.Perm (upTo g.shape.length)) :
    ((ofGrid g).under (.permute (some ((Transpose.places order).map .int)))).Gathers g
      (Shape.along g.shape order) (Enclose.offset g.shape order) := by
  have hroot := standsOn_ofGrid hs
  have hx : Step.IsSound g.shape (.permute (some ((Transpose.places order).map .int))) := trivial
  have htargets := Transpose.targets_places h
  have hu : (Step.permute (some ((Transpose.places order).map .int))).shapeOver
      (.ofShape g.shape) = .ok (.ofShape (Shape.along g.shape order)) := by
    simp only [Step.shapeOver, htargets, bind, Except.bind, Transpose.shape_ofShape,
      Transpose.turnedShape_places h]
  obtain ⟨l, hl, hmaps⟩ := Transpose.maps_places hs h
  have hlink : (Step.permute (some ((Transpose.places order).map .int))).linkOver
      (.ofShape g.shape) = .ok l := by
    simp only [Step.linkOver, htargets, bind, Except.bind, hl]
  obtain ⟨rc, hrc, hitem⟩ := hk.cells
  have hnone : (ofGrid g).links = .ok [] := rfl
  obtain ⟨cells, hcells, hcell⟩ := hroot.cells_under hx hu hlink hnone hrc
  refine ⟨(hroot.above hx hu).shape_eq, ⟨g.etype, ?_, .inl rfl⟩, fun _ => ?_, cells, hcells,
    fun i hi => ?_⟩
  · unfold View.etype View.facts
    rw [Tower.etype_facts]
    rfl
  · exact prototype_under rfl
  · have hm := hmaps.carries.holds hi (hmaps.reach_eq hi)
    obtain ⟨y, hy, _, hc⟩ := hitem _ hm
    rw [hk.getElem?_eq hm] at hy
    rw [hcell i hi, hmaps.reach_eq hi, Option.some.inj hy]
    exact hc

/-- A window of an array at hand hands out the cells that its steps lead to. -/
theorem frame_generator {o : Int} {dims : List (Int × Int)} (hk : g.IsKept)
    (hs : g.shape.IsProper) (hf : Link.Frames o dims g.shape) :
    ∃ gen, ((ofGrid g).frame o dims).generator = .ok gen ∧
      ∀ c, Shape.Within (dims.map Prod.fst) c →
        gen.cell (.int (Shape.dot c (Shape.strides (dims.map Prod.fst)))) =
          .ok (g.cellAt (o + Shape.dot c (dims.map Prod.snd))) := by
  have hroot := standsOn_ofGrid hs
  have hx : Step.IsSound g.shape (.window (.int o) (Link.ofDims dims)) := ⟨o, dims, rfl, rfl, hf⟩
  have hu : (Step.window (.int o) (Link.ofDims dims)).shapeOver (.ofShape g.shape) =
      .ok (.ofShape (dims.map Prod.fst)) := congrArg Except.ok (Link.map_fst_ofDims dims)
  have hmaps : (Link.affine (.int o) (Link.ofDims dims) (.ofShape g.shape)).Maps
      (dims.map Prod.fst) g.shape _ := Link.maps_affine rfl hf
  have hnone : (ofGrid g).links = .ok [] := rfl
  obtain ⟨ms, hms, _, hchain⟩ := hroot.links_under hx hu rfl hnone
  obtain ⟨raw, hraw, hread⟩ := Grid.exists_generator hk.length_eq
  obtain ⟨gen, hgen, hcell⟩ :=
    (hroot.frame hf).stands.generator_eq hms hraw
  refine ⟨gen, hgen, fun c hc => ?_⟩
  have hm := hf.holds c hc
  have hlt : (o + Shape.dot c (dims.map Prod.snd)) < g.items.length := by
    rw [hk.length_eq, Int.toNat_of_nonneg (Shape.size_nonneg hs)]
    exact hm.2
  rw [hcell _ hc.holds, hchain _ hc.holds, hmaps.reach_eq hc.holds, Shape.coordinates_dot hc]
  exact (hread _ ⟨hm.1, hlt⟩).trans ((pickAt_ok hm.1).mpr (hk.getElem?_eq hm))

end View

namespace View

/-- An array with at least one item, where all items have one shape and one element type. -/
structure IsUniform (w : View Item) (s t : Shape) (e : EType) (xs : List Item) : Prop where
  shape : w.shape = .ok (.ofShape s)
  items : Item.unrendered w = .ok xs
  ne_nil : xs ≠ []
  shapes : ∀ x ∈ xs, x.shapeOf = .ok (.ofShape t)
  etypes : ∀ x ∈ xs, (do if ← x.isArray then x.etypeOf else return x.etype) = .ok e

variable {w : View Item} {s t : Shape} {e : EType} {xs : List Item}

theorem IsUniform.mixes (h : w.IsUniform s t e xs) :
    w.Mixes s xs (List.replicate xs.length t) := by
  refine ⟨h.shape, h.items, ?_⟩
  rw [← List.map_const', List.forall₂_map_right_iff, List.forall₂_same]
  exact h.shapes

/-- The axes of a mix are those of the array and those of the items. The leading coordinates of a
cell name the item that shows it. -/
theorem IsUniform.mix_spec (h : w.IsUniform s t e xs) (hs : s.IsProper) :
    (Item.mix (.view w)).shape = .ok (.ofShape (s ++ t)) ∧
      ∃ cells, (Item.mix (.view w)).generator = .ok cells ∧
        ∀ c d, s.Within c → t.Within d → ∃ x, xs[(Shape.dot c s.strides).toNat]? = some x ∧
          cells.cell (.int (Shape.dot (c ++ d) (s ++ t).strides)) = Mix.shown t x d := by
  obtain ⟨r, m, hunites, hshape, cells, hcells, hcell⟩ := h.mixes.mix_spec hs
  obtain ⟨n, hn⟩ := Nat.exists_eq_succ_of_ne_zero (mt List.length_eq_zero_iff.mp h.ne_nil)
  rw [hn] at hunites
  obtain ⟨rfl, rfl⟩ := hunites.eq_of_replicate
  refine ⟨hshape, cells, hcells, fun c d hc hd => ?_⟩
  obtain ⟨x, u, hx, hu, hxd⟩ := hcell c d hc hd
  obtain rfl := List.eq_of_mem_replicate (List.mem_of_getElem? hu)
  exact ⟨x, hx, hxd.trans (by rw [Shape.raised_self])⟩

theorem IsUniform.etype_mix (h : w.IsUniform s t e xs) :
    ∃ u, (Item.mix (.view w)).etype = .ok u ∧ u.IsAkin e := by
  obtain ⟨n, hn⟩ := Nat.exists_eq_succ_of_ne_zero (mt List.length_eq_zero_iff.mp h.ne_nil)
  obtain ⟨u, hu, hakin⟩ := EType.joinAll_replicate n e
  have htypes := mapM_ok (g := fun _ => e) h.etypes
  rw [List.map_const', hn] at htypes
  refine ⟨u, ?_, hakin⟩
  rw [h.mixes.etype_mix htypes, hu]

theorem IsUniform.prototype_mix (h : w.IsUniform s t e xs) {p : Item}
    (hp : ∀ x ∈ xs, x.prototypeOf = .ok p) : (Item.mix (.view w)).prototype = .ok p := by
  obtain ⟨x, rest, rfl⟩ := List.exists_cons_of_ne_nil h.ne_nil
  exact h.mixes.prototype_mix.trans (hp x List.mem_cons_self)

variable {g : Grid Item} {o : Int → Int} {dims : List (Int × Int)}

theorem HoldsWindows.unrendered_eq {v : View Item} {d : Int → List (Int × Int)}
    (hw : w.HoldsWindows v s o d) :
    Item.unrendered w = .ok ((upTo s.size).map fun i => .view (v.frame (o i) (d i))) := by
  obtain ⟨f, hgen, hitem⟩ := hw.items
  simp only [Item.unrendered, hgen, count, hw.shape, Extents.count_ofShape, bind, Except.bind]
  exact mapM_ok fun i hi => hitem i (mem_upTo.mp hi)

theorem HoldsWindows.isUniform (hw : w.HoldsWindows (ofGrid g) s o fun _ => dims)
    (hd : dims ≠ []) (hpos : 0 < s.size) :
    w.IsUniform s (dims.map Prod.fst) g.etype
      ((upTo s.size).map fun i => .view ((ofGrid g).frame (o i) dims)) := by
  refine ⟨hw.shape, hw.unrendered_eq, ?_, fun x hx => ?_, fun x hx => ?_⟩
  · intro hnil
    have hlen := congrArg List.length hnil
    simp only [List.length_map, length_upTo, List.length_nil] at hlen
    omega
  · obtain ⟨i, hi, rfl⟩ := List.mem_map.mp hx
    exact shape_frame
  · obtain ⟨i, hi, rfl⟩ := List.mem_map.mp hx
    have he : ((ofGrid g).frame (o i) dims).etype = .ok g.etype := etype_frame
    rw [isArray_of_shape shape_frame (by simpa using hd)]
    exact he

/-- Mixed windows of one shape show the cells of the array that they are windows of. -/
theorem HoldsWindows.gathers_mix (hw : w.HoldsWindows (ofGrid g) s o fun _ => dims)
    (hk : g.IsKept) (hg : g.shape.IsProper) (hs : s.IsProper)
    (hf : ∀ i, s.Holds i → Link.Frames (o i) dims g.shape) (hne : dims ≠ []) (hpos : 0 < s.size)
    {source : Int → Int} (hsource : ∀ c d, s.Within c → Shape.Within (dims.map Prod.fst) d →
      source (Shape.dot (c ++ d) (Shape.strides (s ++ dims.map Prod.fst))) =
        o (Shape.dot c s.strides) + Shape.dot d (dims.map Prod.snd)) :
    (Item.mix (.view w)).Gathers g (s ++ dims.map Prod.fst) source := by
  have hu := hw.isUniform hne hpos
  have hproper : Shape.IsProper (dims.map Prod.fst) := (hf 0 ⟨le_refl 0, hpos⟩).proper
  have hcomputed : (Item.mix (.view w)).IsComputed := ⟨_, rfl⟩
  obtain ⟨hshape, gen, hgen, hread⟩ := hu.mix_spec hs
  obtain ⟨cells, hcells, hcell⟩ := hcomputed.generator_settled hgen
  refine ⟨hshape, hu.etype_mix, fun h0 => hu.prototype_mix fun x hx => ?_, cells, hcells,
    fun i hi => ?_⟩
  · obtain ⟨i, _, rfl⟩ := List.mem_map.mp hx
    rw [Shape.size_append] at h0
    exact prototype_frame ((Int.mul_eq_zero.mp h0).resolve_left hpos.ne')
  · obtain ⟨c, d, hc, hd, rfl⟩ := Shape.exists_within_append hs hproper hi
    have hk' := hc.holds
    have hfi := hf _ hk'
    obtain ⟨own, hown, hframe⟩ := frame_generator hk hg hfi
    obtain ⟨x, hx, hmix⟩ := hread c d hc hd
    obtain rfl : Item.view ((ofGrid g).frame (o (Shape.dot c s.strides)) dims) = x := by
      have hlt := (Int.toNat_lt_toNat hpos).mpr hk'.2
      simpa [upTo, hlt, Int.toNat_of_nonneg hk'.1] using hx
    have helement : (Item.view ((ofGrid g).frame (o (Shape.dot c s.strides)) dims)).elementAt
        (.int (Shape.dot d (Shape.strides (dims.map Prod.fst)))) = _ :=
      bind_eq_ok.mpr ⟨own, hown, hframe d hd⟩
    rw [hcell, hmix, Mix.shown_within hd (by simpa using hne), helement, hsource c d hc hd]
    exact (hk.isKept_cellAt (hfi.holds d hd)).settle_eq

end View

namespace Enclose

variable {ns : List Int} {rank o : Int} {origin : Origin}

/-- The axes of an array of a rank that are not among some axes, in increasing order. -/
def others (rank : Int) (ns : List Int) : List Int := (upTo rank).filter fun a => a ∉ ns

theorem outerAxes_eq (rank : Int) (ns : List Int) :
    outerAxes (ns.map .int) rank = others rank ns := by
  refine List.filter_congr fun a _ => ?_
  rw [Bool.eq_iff_iff]
  simp only [List.any_map, Bool.not_eq_true', List.any_eq_false, Function.comp_apply,
    Number.eq_int, beq_iff_eq, decide_eq_true_eq]
  constructor
  · intro h ha
    exact h a ha rfl
  · rintro h x hx rfl
    exact h hx

theorem hasRepeats_of_nodup (h : ns.Nodup) : innerAxes.hasRepeats (ns.map .int) = false := by
  induction ns with
  | nil => rfl
  | cons n ns ih =>
      obtain ⟨hn, hns⟩ := List.nodup_cons.mp h
      have hany : (ns.map Number.int).any (Number.int n).eq = false := by
        simp only [List.any_map, List.any_eq_false, Function.comp_apply, Number.eq_int, beq_iff_eq]
        rintro x hx rfl
        exact hn hx
      rw [List.map_cons, innerAxes.hasRepeats, hany, ih hns]
      rfl

theorem innerAxes_eq (ho : origin.number = .ok (.int o)) (hn : ns.Nodup)
    (hb : ∀ a ∈ ns, 0 ≤ a ∧ a < rank) :
    innerAxes (ns.map (· + o)) (.ok rank) origin = .ok (ns.map .int) := by
  have hlocated : (ns.map (· + o)).mapM (fun a =>
      (AxisArgument.whole a).located rank origin) = .ok (ns.map .int) := by
    rw [mapM_eq_ok, List.forall₂_map_left_iff, List.forall₂_map_right_iff, List.forall₂_same]
    intro a ha
    have hamong : o ≤ a + o ∧ a + o < rank + o := by
      have hb := hb a ha
      omega
    simp [AxisArgument.located, ho, AxisArgument.isAmong_int, hamong, Scalar.strip, bind,
      Except.bind]
  simp only [innerAxes, hlocated, bind, Except.bind, hasRepeats_of_nodup hn]
  rfl

theorem offset_append {t : Shape} {xs ys c d : List Int} (hc : Shape.Within (Shape.along t xs) c)
    (hd : Shape.Within (Shape.along t ys) d) :
    offset t (xs ++ ys)
        (Shape.dot (c ++ d) (Shape.strides (Shape.along t xs ++ Shape.along t ys))) =
      offset t xs (Shape.dot c (Shape.strides (Shape.along t xs))) +
        Shape.dot d (Shape.along t.strides ys) := by
  have hcd : Shape.Within (Shape.along t xs ++ Shape.along t ys) (c ++ d) := List.rel_append hc hd
  have happend (zs : List Int) :
      Shape.along zs (xs ++ ys) = Shape.along zs xs ++ Shape.along zs ys := List.map_append
  have hl : c.length = (Shape.along t.strides xs).length := by
    simpa [Shape.along] using hc.length_eq
  rw [offset, offset, happend, happend, Shape.coordinates_dot hcd, Shape.coordinates_dot hc,
    Shape.dot_append hl]

end Enclose

namespace View

variable {g : Grid Item} {ns : List Int} {o : Int} {origin : Origin}

/-- Mixed windows of the enclosed axes show the cells along the other axes and then these. -/
theorem gathers_mix_encloseAxes (name : String) (hk : g.IsKept) (hs : g.shape.IsProper)
    (ho : origin.number = .ok (.int o)) (hne : ns ≠ []) (hn : ns.Nodup)
    (hb : ∀ a ∈ ns, 0 ≤ a ∧ a < g.shape.length)
    (hpos : ∀ a ∈ Enclose.others g.shape.length ns, 0 < g.shape.getD a.toNat 0) :
    (Item.mix (.view (Item.encloseAxes name (ofGrid g) (ns.map (· + o)) origin))).Gathers g
      (Shape.along g.shape (Enclose.others g.shape.length ns ++ ns))
      (Enclose.offset g.shape (Enclose.others g.shape.length ns ++ ns)) := by
  have hinner := Enclose.innerAxes_eq ho hn hb
  have hwindows := holdsWindows_encloseAxes name (v := ofGrid g) rfl hinner hne
  have hframes {i : Int} := Enclose.frames (i := i) hs hn hb
  rw [Enclose.outerAxes_eq] at hwindows hframes
  generalize Enclose.others g.shape.length ns = outer at *
  have hextents : ∀ n ∈ Shape.along g.shape outer, 0 < n := by
    intro n hn
    obtain ⟨a, ha, rfl⟩ := List.mem_map.mp hn
    exact hpos a ha
  have hdims : Enclose.dims g.shape ns ≠ [] := by
    intro h
    have hfst := Enclose.map_fst_dims g.shape ns
    rw [h] at hfst
    exact hne (List.map_eq_nil_iff.mp hfst.symm)
  have happend : Shape.along g.shape (outer ++ ns) =
      Shape.along g.shape outer ++ (Enclose.dims g.shape ns).map Prod.fst := by
    rw [Enclose.map_fst_dims]
    exact List.map_append
  rw [happend]
  refine hwindows.gathers_mix hk hs (fun n hn => (hextents n hn).le) (fun i hi => hframes hi) hdims
    (Shape.size_pos hextents) fun c d hc hd => ?_
  rw [Enclose.map_fst_dims] at hd ⊢
  rw [Enclose.map_snd_dims]
  exact Enclose.offset_append hc hd

/-- The one item of an enclosed scalar is the scalar, or its cell if that is a simple value. Either
way it has no axes, it is of the element type of the scalar, and it shows the cell. -/
theorem exists_item_encloseWhole (name : String) (origin : Origin) {x : Item} (hx : x.IsKept)
    (fill : Option Item) :
    ∃ y, (Item.encloseWhole name (ofGrid ⟨[], [x], fill⟩) origin).generator = .ok (.single y) ∧
      y.shapeOf = .ok [] ∧
      (do if ← y.isArray then y.etypeOf else return y.etype) =
        .ok (Grid.etype ⟨[], [x], fill⟩) ∧
      (do if ← y.isArray then y.elementAt 0 else return y) = .ok x := by
  have harray := isArray_ofGrid (g := ⟨[], [x], fill⟩)
    ⟨rfl, List.forall_mem_singleton.mpr hx⟩
  rw [isGrid_unboxed hx] at harray
  cases hg : x.isGrid with
  | true =>
      rw [hg] at harray
      refine ⟨.view (ofGrid ⟨[], [x], fill⟩), ?_, rfl, ?_, ?_⟩
      · simp only [Item.encloseWhole, generator_computed, harray, bind, Except.bind]
        rfl
      · rw [harray]
        rfl
      · rw [harray]
        rfl
  | false =>
      rw [hg] at harray
      have hsimple := hx.isArray_eq
      rw [hg] at hsimple
      refine ⟨x, ?_, ?_, ?_, ?_⟩
      · simp only [Item.encloseWhole, generator_computed, harray, bind, Except.bind]
        rfl
      · cases x with
        | array h => cases hg
        | view v => cases hx
        | _ => rfl
      · have he : Grid.etype ⟨[], [x], fill⟩ = x.etype := by
          simp [Grid.etype, Grid.isNested, hg, EType.joinValues_none, EType.joinAll,
            EType.joinOptions]
        rw [hsimple, he]
        rfl
      · rw [hsimple]
        rfl

/-- A scalar that has been enclosed as a whole, or is no array, is mixed into itself. -/
theorem gathers_mix_encloseWhole (name : String) (origin : Origin) (hk : g.IsKept)
    (hs : g.shape = []) :
    (Item.mix (.view (Item.encloseWhole name (ofGrid g) origin))).Gathers g [] id := by
  obtain ⟨shape, items, fill⟩ := g
  obtain rfl : shape = [] := hs
  obtain ⟨x, rfl⟩ := List.length_eq_one_iff.mp hk.length_eq
  have hx := hk.items x List.mem_cons_self
  obtain ⟨y, hgen, hy, hetype, hcell⟩ := exists_item_encloseWhole name origin hx fill
  have huniform : (Item.encloseWhole name (ofGrid ⟨[], [x], fill⟩) origin).IsUniform [] []
      (Grid.etype ⟨[], [x], fill⟩) [y] := by
    refine ⟨rfl, ?_, List.cons_ne_nil _ _, List.forall_mem_singleton.mpr hy,
      List.forall_mem_singleton.mpr hetype⟩
    rw [Item.unrendered, hgen]
    rfl
  have hcomputed : (Item.mix (.view (Item.encloseWhole name (ofGrid ⟨[], [x], fill⟩)
      origin))).IsComputed := ⟨_, rfl⟩
  obtain ⟨hshape, gen, hgen, hshown⟩ := huniform.mix_spec Shape.isProper_nil
  obtain ⟨cells, hcells, hread⟩ := hcomputed.generator_settled hgen
  refine ⟨hshape, huniform.etype_mix, fun h0 => absurd h0 Int.one_ne_zero, cells,
    hcells, fun i hi => ?_⟩
  obtain rfl : i = 0 := by
    unfold Shape.Holds at hi
    simp only [Shape.size_nil] at hi
    omega
  obtain ⟨y', hy', hmix⟩ := hshown [] [] .nil .nil
  obtain rfl : y = y' := Option.some.inj hy'
  have hmix : gen.cell (.int 0) = .ok x := hmix.trans hcell
  rw [hread, hmix]
  exact hx.settle_eq

end View

namespace Enclose

theorem perm_others {ns : List Int} {rank : Int} (hn : ns.Nodup)
    (hb : ∀ a ∈ ns, 0 ≤ a ∧ a < rank) : (others rank ns ++ ns).Perm (upTo rank) := by
  rw [← outerAxes_eq]
  exact perm_outerAxes hn hb

theorem others_last (n : Nat) :
    others ((n + 1 : Nat) : Int) [(n : Int)] ++ [(n : Int)] = upTo ((n + 1 : Nat) : Int) := by
  have hu : upTo ((n + 1 : Nat) : Int) = upTo n ++ [(n : Int)] := by
    simp [upTo, List.range_succ]
  have hself : (upTo n).filter (fun a => decide (a ∉ [(n : Int)])) = upTo n := by
    refine List.filter_eq_self.mpr fun a ha => ?_
    have ha := mem_upTo.mp ha
    simpa using ha.2.ne
  rw [others, hu, List.filter_append, hself]
  simp

end Enclose

namespace Item

variable {g : Grid Item} {origin : Origin} {o : Int}

theorem permute_places {turn : Item} {order : List Int} (ho : origin.number = .ok (.int o))
    (h : (do (← flat turn .leftVector).asInts "left argument") =
      .ok ((Transpose.places order).map (· + o))) :
    permute (array g) (some turn) origin = .ok ((View.ofGrid g).under
      (.permute (some ((Transpose.places order).map .int)))) := by
  have hstrip : ((Transpose.places order).map (· + o)).mapM origin.strip =
      .ok ((Transpose.places order).map .int) := by
    rw [mapM_eq_ok, List.forall₂_map_left_iff, List.forall₂_map_right_iff, List.forall₂_same]
    intro a _
    simp [Scalar.strip, ho, bind, Except.bind]
  obtain ⟨given, hflat, hints⟩ := bind_eq_ok.mp h
  simp only [permute, hflat, hints, hstrip, bind, Except.bind]
  rfl

theorem split_lastAxis {x : Item} {t : Shape} {n : Nat} (ho : origin.number = .ok (.int o))
    (hx : x.lift.shape = .ok (.ofShape t)) (hl : t.length = n + 1) :
    split x none origin =
      .ok (encloseAxes "Split" x.lift ([(n : Int)].map (· + o)) origin) := by
  have hrank : x.lift.rank = .ok ((n + 1 : Nat) : Int) := by
    rw [← hl]
    exact View.rank_of_shape hx
  have hcount : origin.count (.int (max (((n + 1 : Nat) : Int) - 1) 0)) =
      .ok (.int (n + o)) := by
    have hmax : max (((n + 1 : Nat) : Int) - 1) 0 = n := by omega
    rw [hmax, Scalar.count, ho]
    rfl
  have hne : ((n + 1 : Nat) : Int) ≠ 0 := by omega
  simp only [split, hrank, hcount, if_neg hne, bind, Except.bind]
  rfl

theorem split_last {n : Nat} (ho : origin.number = .ok (.int o)) (hl : g.shape.length = n + 1) :
    split (array g) none origin =
      .ok (encloseAxes "Split" (View.ofGrid g) ([(n : Int)].map (· + o)) origin) :=
  split_lastAxis ho rfl hl

theorem split_nil (ho : origin.number = .ok (.int o)) (hl : g.shape = []) :
    split (array g) none origin = .ok (encloseWhole "Split" (View.ofGrid g) origin) := by
  have hrank : (array g).lift.rank = .ok 0 := by
    have h := View.rank_of_shape (v := View.ofGrid g) rfl
    rw [hl] at h
    exact h
  have hcount : origin.count (.int (max ((0 : Int) - 1) 0)) = .ok (.int (0 + o)) := by
    rw [Scalar.count, ho]
    rfl
  simp only [split, hrank, hcount, if_pos, bind, Except.bind]
  rfl

/-- Mixing undoes enclosing up to the order of the axes: the other axes come first, then the
enclosed ones as they were listed, as a transpose has it that is told the places of all axes in this
order. So an array that is split and mixed is the array itself. -/
theorem mix_enclose (hk : g.IsKept) (hs : g.shape.IsProper) (ho : origin.number = .ok (.int o)) :
    (∀ (axes turn : Item) (ns : List Int), ns ≠ [] → ns.Nodup →
      (∀ a ∈ ns, 0 ≤ a ∧ a < g.shape.length) →
      (∀ a ∈ Enclose.others g.shape.length ns, 0 < g.shape.getD a.toNat 0) →
      axes.asInts "axis" = .ok (ns.map (· + o)) →
      (do (← flat turn .leftVector).asInts "left argument") =
        .ok ((Transpose.places (Enclose.others g.shape.length ns ++ ns)).map (· + o)) →
      ∃ w p h, enclose (array g) (some axes) origin = .ok w ∧
        permute (array g) (some turn) origin = .ok p ∧
        (view (mix (view w))).render = .ok (array h) ∧ (view p).render = .ok (array h)) ∧
    ((∀ n ∈ g.shape.dropLast, 0 < n) → ∃ w h, split (array g) none origin = .ok w ∧
      (view (mix (view w))).render = .ok (array h) ∧ Alike (array g) (array h)) := by
  have hcomputed (w : View Item) : ¬ ∃ g, mix (view w) = View.ofGrid g := by
    rintro ⟨_, ⟨⟩⟩
  refine ⟨fun axes turn ns hne hn hb hpos haxes hturn => ?_, fun hpos => ?_⟩
  · have hmix := View.gathers_mix_encloseAxes "Enclose" hk hs ho hne hn hb hpos
    have hpermute := View.gathers_permute hk hs (Enclose.perm_others hn hb)
    exact ⟨_, _, _, bind_eq_ok.mpr ⟨_, haxes, rfl⟩, permute_places ho hturn,
      hmix.render_eq (hcomputed _), hpermute.render_eq (View.under_ne_ofGrid _ _)⟩
  -- a scalar is enclosed as it is; otherwise the last axis is split off
  · cases hl : g.shape.length with
    | zero =>
        have hnil := List.length_eq_zero_iff.mp hl
        have hmix := View.gathers_mix_encloseWhole "Split" origin hk hnil
        refine ⟨_, _, split_nil ho hnil, hmix.render_eq (hcomputed _), ?_⟩
        rw [← hnil]
        exact hk.gathered_alike fun i _ => rfl
    | succ n =>
        have hn : [(n : Int)].Nodup := List.nodup_singleton _
        have hb : ∀ a ∈ [(n : Int)], 0 ≤ a ∧ a < g.shape.length := by
          simp [hl]
        have hothers : ∀ a ∈ Enclose.others g.shape.length [(n : Int)],
            0 < g.shape.getD a.toNat 0 := by
          intro a ha
          obtain ⟨hu, hne⟩ := List.mem_filter.mp ha
          have hu := mem_upTo.mp hu
          have hne : a ≠ n := by simpa using hne
          have hlt : a.toNat < g.shape.dropLast.length := by
            rw [List.length_dropLast]
            omega
          have hmem := hpos _ (List.getElem_mem hlt)
          rw [List.getElem_dropLast] at hmem
          rwa [List.getD_eq_getElem?_getD, List.getElem?_eq_getElem, Option.getD_some]
        have hmix := View.gathers_mix_encloseAxes "Split" hk hs ho (List.cons_ne_nil _ _) hn hb
          hothers
        rw [hl, Enclose.others_last, ← hl, Shape.along_upTo rfl] at hmix
        refine ⟨_, _, split_last ho hl, hmix.render_eq (hcomputed _), ?_⟩
        exact hk.gathered_alike fun i hi => Enclose.offset_upTo hs hi

/-- Twelve numbers in two layers of three rows. -/
def block : Grid Item := Grid.of [2, 3, 2] ((upTo 12).map .int) none

/-- The last and then the first axis of the block are enclosed; mixed, the rows come first. -/
theorem block_mix_enclose :
    (∃ w, enclose (array block) (some (ints [3, 1])) (.int 1) = .ok w ∧
      (view (mix (view w))).render = .ok (array (Grid.of [3, 2, 2]
        ([0, 6, 1, 7, 2, 8, 3, 9, 4, 10, 5, 11].map .int) none))) ∧
    ∃ w h, split (array block) none (.int 1) = .ok w ∧
      (view (mix (view w))).render = .ok (array h) ∧ Alike (array block) (array h) := by
  have kept : block.IsKept := by
    refine ⟨rfl, fun x hx => ?_⟩
    obtain ⟨y, hy, rfl⟩ := List.mem_map.mp hx
    obtain ⟨n, _, rfl⟩ := List.mem_map.mp hy
    rfl
  have proper : block.shape.IsProper := by
    unfold Shape.IsProper
    decide
  have whole : Scalar.number (.int 1) = .ok (.int 1) := rfl
  have laws := mix_enclose kept proper whole
  obtain ⟨w, p, h, hw, hp, hmix, hpermute⟩ := laws.1 (ints [3, 1]) (ints [3, 1, 2]) [2, 0]
    (by decide) (by decide) (by decide) (by decide) rfl rfl
  refine ⟨⟨w, hw, ?_⟩, laws.2 (by decide)⟩
  cases hp
  rw [hmix, ← hpermute]
  rfl

end Item
end LazyApl
