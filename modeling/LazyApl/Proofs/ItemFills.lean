import LazyApl.Platform.Usual
import LazyApl.Proofs.Disclosing
import LazyApl.Proofs.NestedViews
import LazyApl.Proofs.Partitioning
/-!
# The fill of an array of items

An array whose items are parts of another one has no item to show where it is empty, so what it
discloses to is told by its fill alone. Enclosed axes leave a fill of the shape of the items: the
fill of the array, over and over along these axes. A partition takes no cells along its axis and
leaves the other axes as they are. The fill is of the rank of the array then, and this is the rank
of the items only where the array is a vector.
-/
namespace LazyApl

open Outcome

namespace View

variable {root : Root Item} {r s t d : Shape} {v w : View Item} {g : Grid Item} {f : Int → Item}

theorem shape_of_fillOf {q : Item} (hv : v.shape = .ok (.ofShape t)) (ht : t ≠ [])
    (hq : (Item.view v).fillOf = .ok q) : ∃ g, q = .array g ∧ g.shape = t := by
  obtain ⟨y, hy, rfl⟩ := map_eq_ok.mp hq
  obtain ⟨g, hr, rfl⟩ := render_of_settle hy
  have hshape := (shape_of_render hr).symm.trans hv
  obtain rfl : g.shape = t := Extents.ofShape_inj (Except.ok.inj hshape)
  obtain ⟨fill, hfill⟩ := Item.typify_array g
  rw [Grid.unboxed_of_shape ht]
  exact ⟨_, hfill, rfl⟩

theorem exists_fillOf (hr : (Item.view v).render = .ok (.array g)) :
    ∃ q, (Item.view v).fillOf = .ok q :=
  ⟨_, map_eq_ok.mpr ⟨_, settle_of_render hr, rfl⟩⟩

/-- An array at hand that is enclosed as a whole yields one item and has a fill. -/
theorem IsReady.encloseWhole_yields (name : String) (origin : Origin) (hg : (ofGrid g).IsReady) :
    (∃ f, (Item.encloseWhole name (ofGrid g) origin).Yields [] f) ∧
      ∃ p, (Item.encloseWhole name (ofGrid g) origin).prototype = .ok p := by
  have hk := hg.kept g rfl
  have hrenders := rendersTo_ofGrid hk
  have hb := isArray_ofGrid hk
  obtain ⟨cells, x, hcells, hcell, _, _⟩ :=
    encloseWhole_settled name origin (hrenders.standsOn (hg.isProper rfl)) hrenders rfl hb
  have hfill : (Item.encloseWhole name (ofGrid g) origin).prototype =
      (Item.view (ofGrid g)).fillOf := rfl
  obtain ⟨p, hp⟩ := exists_fillOf (v := ofGrid g) rfl
  refine ⟨⟨fun _ => x, ⟨⟨rfl, ?_, cells, hcells, fun i _ => hcell _⟩, ⟨?_, ?_, nofun⟩, ?_⟩⟩, p,
    hfill.trans hp⟩
  · rw [etype_encloseWhole hb]
    split
    · exact ⟨_, rfl⟩
    · exact ⟨g.etype, rfl⟩
  · intro e he
    exact ⟨[], (Except.ok.inj he).symm, Shape.isProper_nil⟩
  · intro q hq
    obtain ⟨y, _, rfl⟩ := map_eq_ok.mp (hfill.symm.trans hq)
    exact (Item.isSettled_typify y).settle_eq
  · exact fun _ => ⟨p, hfill.trans hp⟩

/-- An array that can be asked for its type, its cells, and a fill that is at hand as an array. -/
structure Answers (v : View Item) : Prop where
  etype : ∃ e, v.etype = .ok e
  generator : ∃ gen, v.generator = .ok gen
  fill : ∃ p g, v.prototype = .ok p ∧ p.lift = ofGrid g ∧ (ofGrid g).IsReady

/-- Of an array that is made of another one: its fill is an array of a certain shape, and it has a
fill if the other one answers. -/
structure FillsWith (w v : View Item) (s : Shape) : Prop where
  shape : ∀ q, w.prototype = .ok q → ∃ g, q = .array g ∧ g.shape = s
  answers : v.Answers → ∃ q, w.prototype = .ok q

/-- Of an array that is made of another one: its fill is an array of a certain rank, to which it
discloses if it is empty, and it has a fill if the other one answers. -/
structure FillsWithRank (w v : View Item) (r : Int) : Prop where
  rank : ∀ q, w.prototype = .ok q → (∃ g, q = .array g) ∧ q.rankOf = .ok r
  disclosed : ∀ q, w.prototype = .ok q → w.IsEmpty → (Item.first (.view w)).rank = .ok r
  answers : v.Answers → ∃ q, w.prototype = .ok q

theorem answers_ofGrid {n : Int} (hk : g.IsKept) (hp : (ofGrid g).prototype = .ok (.int n)) :
    (ofGrid g).Answers := by
  obtain ⟨gen, hgen, _⟩ := Grid.exists_generator hk.length_eq
  have ready : (ofGrid (Grid.of [] ([n].map Item.int) none)).IsReady :=
    isReady_ofNumbers Shape.isProper_nil rfl
  exact ⟨⟨_, rfl⟩, ⟨gen, hgen⟩, _, _, hp, rfl, ready⟩

theorem IsEmpty.rank_first (hw : w.IsEmpty) {q : Item} (hq : w.prototype = .ok q) :
    (Item.first (.view w)).rank = q.rankOf := by
  obtain ⟨e, he, hcount⟩ := bind_eq_ok.mp hw
  obtain ⟨x, hx, hi⟩ := bind_eq_ok.mp hcount
  obtain rfl := Number.index_eq_ok.mp hi
  have hsize : (Item.view w).based.size = .ok (.int 0) := bind_eq_ok.mpr ⟨e, he, hx⟩
  have hfill : (Item.view w).based.prototype = .ok q := hq
  simp only [rank, Item.first, shape_computed, Lazy.get_delay, Lazy.get_keep, hsize, hfill, bind,
    Except.bind, Number.isZero_int, beq_self_eq_true, if_true]
  rfl

theorem FillsWith.withRank (h : w.FillsWith v d) : w.FillsWithRank v d.length := by
  have hrank : ∀ q, w.prototype = .ok q →
      (∃ g, q = .array g) ∧ q.rankOf = .ok (d.length : Int) := by
    intro q hq
    obtain ⟨g, rfl, rfl⟩ := h.shape q hq
    refine ⟨⟨g, rfl⟩, ?_⟩
    simp [Item.rankOf, Item.shapeOf, bind, Except.bind, pure, Except.pure]
  exact ⟨hrank, fun q hq hw => (hw.rank_first hq).trans (hrank q hq).2, h.answers⟩

/-- An array without cells that stands on a root renders if it answers for the rest. -/
theorem StandsOn.exists_render (h : StandsOn root r v s) (h0 : s.size = 0)
    (he : ∃ e, v.etype = .ok e) (hgen : ∃ gen, v.generator = .ok gen)
    (hp : ∃ p, v.prototype = .ok p) : ∃ g, (Item.view v).render = .ok (.array g) := by
  by_cases hv : ∃ g, v = ofGrid g
  · obtain ⟨g, rfl⟩ := hv
    exact ⟨g, rfl⟩
  · obtain ⟨gen, hgen⟩ := hgen
    obtain ⟨ls, raw, hls, hraw⟩ := Tower.generator_ok hgen
    have hsettles := Item.settles_root v.root
    rw [hraw] at hsettles
    obtain ⟨rc, hrc, _⟩ := hsettles
    obtain ⟨cells, hcells, _⟩ := h.generator_settled hls (h.root_eq ▸ hrc)
    have hsupplied : Tower.IsSupplied v.settled s := by
      refine ⟨?_, fun _ => ?_⟩
      · rwa [etype_settled]
      · rwa [prototype_settled]
    have hread : (upTo s.size).mapM (fun i : Int => cells.cell i) = .ok [] := by
      rw [h0]
      rfl
    obtain ⟨k, fill, hg⟩ :=
      Tower.exists_collect ((shape_settled v).trans h.shape_eq) hsupplied hcells hread
    exact ⟨_, by rw [render_eq hv, hg]; rfl⟩

end View

namespace Item

variable {v w : View Item} {t : Shape} {origin : Origin} {o : Int}

theorem prototype_encloseAxes_of_ne_nil (name : String) {as ns : List Int} (ht : t.IsProper)
    (hv : v.shape = .ok (.ofShape t))
    (hn : Enclose.innerAxes as (.ok t.length) origin = .ok (ns.map .int)) (hne : ns ≠ []) :
    (encloseAxes name v as origin).prototype = (do
      let p ← v.prototype
      (view ((encloseWhole "Enclose" p.lift (.int 0)).under
        (.reshape .reshape (Shape.along t ns)))).fillOf) := by
  have hinner : (do (← Enclose.innerAxes as v.rank origin).mapM Number.index) = Except.ok ns := by
    rw [View.rank_of_shape hv, hn]
    exact Number.mapM_index ns
  have hdims : newShape ((Enclose.along (Extents.ofShape t) ns).map ofNumber) =
      .ok (Shape.along t ns) := by
    rw [Enclose.along_ofShape, Extents.ofShape, List.map_map]
    exact newShape_ints (ht.along ns)
  have hempty : ns.isEmpty = false := by simpa using hne
  simp only [encloseAxes, View.prototype_computed, Lazy.get_delay, Lazy.get_keep, hinner, hv]
  simp only [bind, Except.bind, hempty, Bool.false_eq_true, if_false]
  cases v.prototype with
  | error e => rfl
  | ok p => simp only [hdims]

/-- A partition leaves a take of no cells along its axis as its fill. -/
theorem Parts.prototype_eq [Platform] {style : Partition.Style} {keys : Item} {axis : Option Item}
    {a : Nat} {n : Int} {l : List (Int × Int)} (h : Parts style keys axis origin t a n l)
    (ho : origin.number = .ok (.int o)) (hv : v.shape = .ok (.ofShape t))
    (hw : partition style (.view v) keys axis origin = .ok w) :
    w.prototype = (view (v.under (.cut .take false [0] (some [(a : Int)])))).fillOf := by
  obtain ⟨ha, _, hp, marks, _, _, hm, _, _, _⟩ := h
  have hlt := (List.getElem?_eq_some_iff.mp ha).1
  have hrank : (view v).based.rank = .ok (t.length : Int) := View.rank_of_shape hv
  have hne : (t.length : Int) ≠ 0 := by omega
  have htake : take (view v) (list [int 0]) (some (list [scalar (.int (a + o))])) origin =
      .ok (v.under (.cut .take false [0] (some [(a : Int)]))) := by
    rw [Int.add_comm]
    exact View.cut_of_asInts hv ho hlt rfl rfl
  simp only [partition, hm, hrank, if_neg hne, bind, Except.bind, pure, Except.pure] at hw
  cases hw
  have hnamed : (Number.int a).add (.int o) = .ok (.int (a + o)) := rfl
  cases hx : axisArgument axis <;> rw [hx] at hp
  all_goals
    simp only [View.prototype_computed, Lazy.get_keep, hp, ho, hnamed]
    exact congrArg (· >>= fun u => (view u).fillOf) htake

end Item

namespace Framing

/-- How many axes the items have. -/
def itemRank (n : Framing) (v : View Item) : Except Fault Int :=
  match n with
  | split _ => .ok 1
  | enclose none => v.rank
  | enclose (some axes) => return (← axes.asInts "axis").length
  | partition .. => .ok 1

def IsPartition : Framing → Prop
  | partition .. => True
  | _ => False

end Framing

namespace View

variable {root : Root Item} {r s t : Shape} {v w : View Item} {origin : Origin} {o : Int}

/-- The fill of an array of enclosed axes has their extents, like all of its items. -/
theorem fillsWith_encloseAxes (name : String) {as ns : List Int} (ht : t.IsProper)
    (hv : v.shape = .ok (.ofShape t))
    (hn : Enclose.innerAxes as (.ok t.length) origin = .ok (ns.map .int)) (hne : ns ≠ []) :
    (Item.encloseAxes name v as origin).FillsWith v (Shape.along t ns) := by
  have hproto := Item.prototype_encloseAxes_of_ne_nil name ht hv hn hne
  have halong : Shape.along t ns ≠ [] := by simpa [Shape.along] using hne
  refine ⟨fun q hq => ?_, fun ha => ?_⟩
  · rw [hproto] at hq
    obtain ⟨p, _, hq⟩ := bind_eq_ok.mp hq
    exact shape_of_fillOf rfl halong hq
  · obtain ⟨p, g, hp, hlift, hg⟩ := ha.fill
    obtain ⟨⟨f, hf⟩, hfill⟩ := hg.encloseWhole_yields "Enclose" (.int 0)
    have hcomputed : (Item.encloseWhole "Enclose" (ofGrid g) (.int 0)).IsComputed :=
      isComputed_encloseWhole
    have hstands := hcomputed.standsOn hf.shape Shape.isProper_nil
    have hyields := hf.reshape_cyclic hstands (ht.along ns) (fun _ _ => Int.one_ne_zero)
      fun _ => hfill
    obtain ⟨g', hr, _⟩ := hyields.exists_render
    rw [hproto, hp]
    change ∃ q, (Item.view ((Item.encloseWhole "Enclose" p.lift _).under _)).fillOf = .ok q
    rw [hlift]
    exact exists_fillOf hr

/-- The fill of a partition has no cells along the axis of the partition, and all other axes of the
array. -/
theorem StandsOn.fillsWith_partition [Platform] {style : Partition.Style} {keys : Item}
    {axis : Option Item} {a : Nat} {n : Int} {l : List (Int × Int)} (h : StandsOn root r v t)
    (hp : Item.Parts style keys axis origin t a n l) (ho : origin.number = .ok (.int o))
    (hw : Item.partition style (.view v) keys axis origin = .ok w) :
    w.FillsWith v (t.set a 0) := by
  have hproper := (h.stands.keeps Item.fillOf).proper
  have hn := hproper n (List.mem_of_getElem? hp.extent)
  have hlt := (List.getElem?_eq_some_iff.mp hp.extent).1
  have hspan : (Span.cut false 0 n).extent = 0 := by
    simp [Span.cut, Span.take, Span.extent, Span.length, hn]
  have hstands := h.above_along .take false 0 hp.extent
  rw [hspan] at hstands
  have hproto := hp.prototype_eq ho h.shape_eq hw
  refine ⟨fun q hq => ?_, fun ha => ?_⟩
  · have hne : t.set a 0 ≠ [] := by
      intro hnil
      have hlen := congrArg List.length hnil
      rw [List.length_set, List.length_nil] at hlen
      omega
    exact shape_of_fillOf hstands.shape_eq hne (hproto ▸ hq)
  · obtain ⟨p, _, hfill, _⟩ := ha.fill
    obtain ⟨gen, hgen⟩ := ha.generator
    have hsize : Shape.size (t.set a 0) = 0 :=
      Shape.size_eq_zero.mpr (List.mem_set hlt 0)
    have hetype := (h.exists_etype_along ha.etype .take false 0 hp.extent).mpr fun _ => ⟨p, hfill⟩
    obtain ⟨cells, hcells, _⟩ := h.generator_under (x := .cut .take false [0] (some [(a : Int)]))
      trivial (Step.shapeOver_along .take false 0 hp.extent)
      (Step.linkOver_along .take false 0 hp.extent) rfl hgen
    obtain ⟨g, hr⟩ := hstands.exists_render hsize hetype ⟨cells, hcells⟩
      ⟨p, (prototype_under rfl).trans hfill⟩
    rw [hproto]
    exact exists_fillOf hr

def HoldsOfRank (w : View Item) (k : Int) : Prop :=
  ∃ s : Shape, w.shape = .ok (.ofShape s) ∧
    ∀ i, s.Holds i → ∃ u, w.cell (.int i) = .ok (.view u) ∧ u.rank = .ok k

theorem HoldsWindows.holdsOfRank {o : Int → Int} {d : Int → List (Int × Int)} {k : Nat}
    (hw : w.HoldsWindows v s o d) (hd : ∀ i, (d i).length = k) : w.HoldsOfRank k := by
  obtain ⟨f, hgen, hitem⟩ := hw.items
  refine ⟨s, hw.shape, fun i hi => ⟨v.frame (o i) (d i), ?_, ?_⟩⟩
  · simp only [cell, hgen, bind, Except.bind, Gen.cell_indexed, hitem i hi]
  · rw [rank_frame, hd i]

theorem encloseAxes_ranks (name : String) {as : List Int} {xs : List Number} (ht : t.IsProper)
    (hv : v.shape = .ok (.ofShape t)) (ho : origin.number = .ok (.int o))
    (hx : Enclose.innerAxes as v.rank origin = .ok xs) (hne : as ≠ []) :
    (Item.encloseAxes name v as origin).HoldsOfRank as.length ∧
      (Item.encloseAxes name v as origin).FillsWithRank v as.length := by
  rw [rank_of_shape hv] at hx
  obtain ⟨ns, rfl, hlen, _, _⟩ := Enclose.innerAxes_spec ho hx
  have hns : ns ≠ [] := by
    rintro rfl
    exact hne (List.length_eq_zero_iff.mp hlen.symm)
  have halong : (Shape.along t ns).length = as.length := (List.length_map _).trans hlen
  have hdims : (Enclose.dims t ns).length = as.length := by
    rw [← halong, ← Enclose.map_fst_dims, List.length_map]
  have hfill := (fillsWith_encloseAxes name ht hv hx hns).withRank
  rw [halong] at hfill
  exact ⟨(holdsWindows_encloseAxes name hv hx hns).holdsOfRank fun _ => hdims, hfill⟩

theorem holdsOfRank_partition [Platform] {style : Partition.Style} {keys : Item}
    {axis : Option Item} {a : Nat} {n : Int} {l : List (Int × Int)} (ht : t.IsProper)
    (hv : v.shape = .ok (.ofShape t)) (hp : Item.Parts style keys axis origin t a n l)
    (hw : Item.partition style (.view v) keys axis origin = .ok w) : w.HoldsOfRank 1 := by
  obtain ⟨w', hw', _, _, hs, hgen⟩ := hp.partition_eq hv
  obtain rfl : w = w' := Except.ok.inj (hw.symm.trans hw')
  refine ⟨_, hs, fun i hi => ?_⟩
  obtain ⟨p, _, hitem⟩ := Partition.item_eq ht hp.extent hi
  refine ⟨v.frame (Partition.offset t a (Shape.coordinates (t.set a l.length) i) p)
    (Partition.dims t a p), ?_, rank_frame⟩
  simp only [cell, hgen, bind, Except.bind, Gen.cell_indexed, hitem v]
  rfl

/-- Split, enclose and partition make arrays of items of one rank, and have an array as their fill,
to which they disclose if they are empty. Enclosed axes are the axes of both. The fill of a
partition has all axes of the array, though the items are vectors; so the ranks are the same exactly
if no stretches of an array of several axes are the items. -/
theorem Grown.framed_fill [Platform] {n : Framing} {e : Extents}
    (h : Grown (fun v w => Raises v w ∨ HandsOut v w) root r v) (ho : origin.IsWhole)
    (hrank : v.rank ≠ .ok 0) (hn : n.EnclosesAxes v)
    (hw : n.framed (.view v) origin = .ok w) (hs : w.shape = .ok e) :
    ∃ k m : Int, n.itemRank v = .ok k ∧ w.HoldsOfRank k ∧ w.FillsWithRank v m ∧
      (n.IsPartition → v.rank = .ok m) ∧ (m = k ↔ (n.IsPartition → v.rank = .ok 1)) := by
  obtain ⟨t, hstands⟩ := h.exists_standsOn
  have hv := hstands.shape_eq
  have ht := (hstands.stands.keeps Item.fillOf).proper
  obtain ⟨o, ho⟩ := ho
  cases n with
  | split axis =>
      obtain ⟨a, as, ha, rfl, _⟩ := Item.split_eq_ok hrank hw
      obtain ⟨xs, hx⟩ := Item.innerAxes_of_shape hrank hs
      obtain ⟨hitems, hfill⟩ :=
        encloseAxes_ranks "Split" ht hv ho hx (Item.asInts_single_ne_nil ha)
      rw [Item.length_asInts_single ha] at hitems hfill
      exact ⟨1, 1, rfl, hitems, hfill, False.elim, iff_of_true rfl False.elim⟩
  | enclose axes =>
      cases axes with
      | none => exact absurd hn id
      | some axes =>
          obtain ⟨as, ha, hw⟩ := bind_eq_ok.mp hw
          cases hw
          have hne : as ≠ [] := by
            rintro rfl
            exact hn ha
          obtain ⟨xs, hx⟩ := Item.innerAxes_of_shape hrank hs
          obtain ⟨hitems, hfill⟩ := encloseAxes_ranks "Enclose" ht hv ho hx hne
          exact ⟨_, _, bind_eq_ok.mpr ⟨as, ha, rfl⟩, hitems, hfill, False.elim,
            iff_of_true rfl False.elim⟩
  | partition style keys axis =>
      obtain ⟨a, m, l, hp⟩ := Item.exists_parts hv hw hs
      have hfill := (hstands.fillsWith_partition hp ho hw).withRank
      have hrank := rank_of_shape hv
      rw [List.length_set] at hfill
      refine ⟨1, _, rfl, holdsOfRank_partition ht hv hp hw, hfill, fun _ => hrank, ?_⟩
      rw [hrank, Except.ok.injEq]
      exact ⟨fun h _ => h, fun h => h trivial⟩

open scoped Usual in
/-- No stretches of the rows are no vectors, but disclose to a fill with both axes. -/
theorem partition_no_columns_fill :
    ∃ w, Item.partition .keys (.view (ofGrid Partition.twoRows)) (Item.ints [0, 0, 0]) none
        (.int 0) = .ok w ∧
      w.IsEmpty ∧ w.HoldsOfRank 1 ∧ (Item.first (.view w)).rank = .ok 2 := by
  have root : Grown (fun v w => Raises v w ∨ HandsOut v w) (.concrete Partition.twoRows) [2, 3]
      (ofGrid Partition.twoRows) := .root rfl (by simp [Shape.IsProper])
  have whole : Scalar.IsWhole (.int 0) := ⟨0, rfl⟩
  have matrix : (ofGrid Partition.twoRows).rank ≠ .ok 0 := by
    intro h
    cases h
  have framed : Framing.framed (.partition .keys (Item.ints [0, 0, 0]) none)
    (.view (ofGrid Partition.twoRows)) (.int 0) = .ok _ := rfl
  obtain ⟨k, m, hk, hitems, hfill, hall, _⟩ :=
    root.framed_fill (n := .partition _ _ _) whole matrix trivial framed rfl
  obtain ⟨q, hq⟩ := hfill.answers (answers_ofGrid (Grid.isKept_ofNumbers rfl) rfl)
  cases hk
  cases hall trivial
  exact ⟨_, framed, rfl, hitems, hfill.disclosed q hq rfl⟩

end View
end LazyApl
