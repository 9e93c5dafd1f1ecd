import LazyApl.Platform.Usual
import LazyApl.Proofs.Masking
import LazyApl.Proofs.Mixing
import LazyApl.Proofs.Tilings
/-!
# The items of a partition

The items of a partitioned array are windows of it. Each renders to the cells of one line along the
axis, from where the stretch starts to where it stops; the line goes through the coordinates of the
item. The items of a partitioned vector are joined to its members with a key, or to those from the
first count on.
-/
namespace LazyApl

open Outcome

namespace Grid

/-- The cells of an array along a stretch of an axis, in the line through some coordinates. -/
def line (g : Grid Item) (a : Nat) (c : List Int) (p : Int × Int) : Grid Item :=
  g.gathered [p.2 - p.1] fun k => Shape.dot (c.set a (p.1 + k)) g.shape.strides

end Grid

namespace View

variable {g : Grid Item} {o : Int} {dims : List (Int × Int)}

theorem gathers_frame (hk : g.IsKept) (hs : g.shape.IsProper) (hf : Link.Frames o dims g.shape) :
    ((ofGrid g).frame o dims).Gathers g (dims.map Prod.fst) fun i =>
      o + Shape.dot (Shape.coordinates (dims.map Prod.fst) i) (dims.map Prod.snd) := by
  have hroot := standsOn_ofGrid hs
  have hx : Step.IsSound g.shape (.window (.int o) (Link.ofDims dims)) := ⟨o, dims, rfl, rfl, hf⟩
  have hu : (Step.window (.int o) (Link.ofDims dims)).shapeOver (.ofShape g.shape) =
      .ok (.ofShape (dims.map Prod.fst)) := congrArg Except.ok (Link.map_fst_ofDims dims)
  have hmaps : (Link.affine (.int o) (Link.ofDims dims) (.ofShape g.shape)).Maps
      (dims.map Prod.fst) g.shape _ := Link.maps_affine rfl hf
  obtain ⟨rc, hrc, hitem⟩ := hk.cells
  have hnone : (ofGrid g).links = .ok [] := rfl
  obtain ⟨cells, hcells, hcell⟩ := hroot.cells_under hx hu rfl hnone hrc
  refine ⟨(hroot.frame hf).shape_eq, ⟨g.etype, etype_frame, .inl rfl⟩,
    fun h0 => prototype_frame h0, cells, hcells, fun i hi => ?_⟩
  have hm := hmaps.carries.holds hi (hmaps.reach_eq hi)
  obtain ⟨y, hy, _, hc⟩ := hitem _ hm
  rw [hk.getElem?_eq hm] at hy
  rw [hcell i hi, hmaps.reach_eq hi, Option.some.inj hy]
  exact hc

end View

namespace Partition

variable {style : Style} {keys : Item} {axis : Option Item} {origin : Origin} {t : Shape} {a : Nat}
  {n : Int} {marks : List Int} {g : Grid Item} {c : List Int} {p : Int × Int}

/-- The axis that is asked for, the last one if none is, in an array of some rank. -/
def IsAlong (axis : Option Item) (origin : Origin) (rank a : Nat) : Prop :=
  (match axisArgument axis with
    | none => .ok (.int (rank - 1))
    | some x => x.located rank origin) = Except.ok (Number.int a)

/-- Keys or counts of an axis as they are read: one for each cell, of which none is negative. A
scalar is one for all cells, if there is room for so many. -/
structure ReadsAs [Platform] (style : Style) (keys : Item) (n : Int) (marks : List Int) : Prop where
  length_eq : (marks.length : Int) = n
  nonneg : ∀ k ∈ marks, 0 ≤ k
  read : ∃ vector given rank, Item.flat keys .partitionKeys = .ok vector ∧
    vector.asInts style.role = .ok given ∧ vector.rankOf = .ok rank ∧
      (if rank = 0 then Platform.room.repeated given n else .ok given) = .ok marks

theorem ReadsAs.segments_cases [Platform] (h : ReadsAs style keys n marks) :
    ∃ vector given rank, Item.flat keys .partitionKeys = .ok vector ∧
      vector.asInts style.role = .ok given ∧ vector.rankOf = .ok rank ∧
      (style.HasRoom marks ∧ style.segments (.int n) (rank = 0) given =
          .ok ((style.stretches marks).map fun (i, j) => (i, .int j)) ∨
        ¬ style.HasRoom marks ∧
          (style.segments (.int n) (rank = 0) given = .error .overflow ∨
            style.segments (.int n) (rank = 0) given = .error .noRoom)) := by
  obtain ⟨rfl, hnonneg, vector, given, rank, hv, hg, hr, hread⟩ := h
  refine ⟨vector, given, rank, hv, hg, hr, style.segments_eq ?_ hnonneg⟩
  simpa only [decide_eq_true_eq] using hread

theorem ReadsAs.parts [Platform] (h : ReadsAs style keys n marks) (hroom : style.HasRoom marks)
    (ha : t[a]? = some n) (hp : IsAlong axis origin t.length a) :
    Item.Parts style keys axis origin t a n (style.stretches marks) := by
  obtain ⟨vector, given, rank, hv, hg, hr, ⟨_, hsegments⟩ | ⟨hno, _⟩⟩ := h.segments_cases
  · refine ⟨ha, ?_, hp, vector, given, rank, hv, hg, hr, hsegments⟩
    exact h.length_eq ▸ style.lies_stretches marks
  · exact absurd hroom hno

theorem ReadsAs.isRefused [Platform] (h : ReadsAs style keys n marks)
    (hroom : ¬ style.HasRoom marks) (ha : g.shape[a]? = some n)
    (hp : IsAlong axis origin g.shape.length a) :
    ∃ w, Item.partition style (.array g) keys axis origin = .ok w ∧
      (w.IsRefused .overflow ∨ w.IsRefused .noRoom) := by
  obtain ⟨vector, given, rank, hv, hg, hr, ⟨hyes, _⟩ | ⟨_, hsegments⟩⟩ := h.segments_cases
  case inl => exact absurd hyes hroom
  obtain ⟨w, hw, hcomputed, _, hshape, hgen⟩ :=
    Item.exists_partition_of_marks (v := View.ofGrid g) rfl ha hp hv hg hr
  have hrefused {e : Fault} (he : style.segments (.int n) (rank = 0) given = .error e) :
      w.IsRefused e := by
    rw [he] at hshape hgen
    exact View.isRefused_of_shape hcomputed.ne_ofGrid hshape fun gen h => nomatch hgen.symm.trans h
  exact ⟨w, hw, hsegments.imp hrefused hrefused⟩

/-- The window along a stretch renders to the line of cells there. -/
theorem render_frame (hk : g.IsKept) (hs : g.shape.IsProper) {m : Int} (ha : g.shape[a]? = some n)
    (hc : Shape.Within (g.shape.set a m) c) (hp : Lies n p) :
    (Item.view ((View.ofGrid g).frame (offset g.shape a c p) (dims g.shape a p))).render =
      .ok (.array (g.line a c p)) := by
  have hgathers := View.gathers_frame hk hs (frames ha hc hp)
  obtain ⟨hlt, _⟩ := List.getElem?_eq_some_iff.mp ha
  have hac : a < c.length := by simpa [hc.length_eq] using hlt
  have hsource : (g.gathered [p.2 - p.1] fun i => offset g.shape a c p +
      Shape.dot (Shape.coordinates ((dims g.shape a p).map Prod.fst) i)
        ((dims g.shape a p).map Prod.snd)) = g.line a c p := by
    have hcells : ∀ i ∈ upTo (Shape.size [p.2 - p.1]), g.cellAt (offset g.shape a c p +
        Shape.dot (Shape.coordinates ((dims g.shape a p).map Prod.fst) i)
          ((dims g.shape a p).map Prod.snd)) =
        g.cellAt (Shape.dot (c.set a (p.1 + i)) g.shape.strides) := by
      intro i hi
      have hi : Shape.Holds [p.2 - p.1] i := mem_upTo.mp hi
      have hi' : Shape.coordinates ((dims g.shape a p).map Prod.fst) i = [i] :=
        Shape.coordinates_vector hi
      rw [hi', ← dot_set hac p.1 i]
      simp [offset, dims, Shape.dot]
    rw [Grid.line, Grid.gathered, Grid.gathered, List.map_congr_left hcells]
  rw [hgathers.render_eq (View.under_ne_ofGrid _ _)]
  exact congrArg (fun h => Except.ok (Item.array h)) hsource

theorem mem_of_mem_covered {α : Type} {xs : List α} {x : α} (h : x ∈ style.covered xs marks) :
    x ∈ xs := by
  cases style with
  | keys =>
      obtain ⟨p, hp, rfl⟩ := List.mem_map.mp h
      exact (List.of_mem_zip (List.mem_of_mem_filter hp)).1
  | counts => exact List.mem_of_mem_drop h

theorem slice_eq {xs : List Item} (hp : Lies xs.length p) :
    slice xs p = (upTo (p.2 - p.1)).map fun k => xs.getD (p.1 + k).toNat (.int 0) := by
  obtain ⟨h0, h1, h2⟩ := hp
  refine List.ext_getElem ?_ fun i hi hi' => ?_
  · rw [slice, List.length_take, List.length_drop, List.length_map, length_upTo]
    omega
  · rw [slice, List.length_take, List.length_drop] at hi
    have hlt : p.1.toNat + i < xs.length := by omega
    have hplace : (p.1 + (i : Int)).toNat = p.1.toNat + i := by omega
    simp [slice, upTo, hplace, List.getD_eq_getElem?_getD, hlt]

/-- The cells of a line in a vector are the members along the stretch, each as it is stored in an
array of the type of the vector. -/
theorem items_line (hk : g.IsKept) (hg : g.shape = [n]) (hp : Lies n p) :
    (g.line 0 [0] p).items =
      (slice g.items p).map fun x => (x.countedFor g.etype.kind).stored := by
  have hlen : (g.items.length : Int) = n := by
    have hlt := hp.1
    have hle := hp.2.1.trans hp.2.2
    rw [hk.length_eq, hg]
    simp
    omega
  have hsource (k : Int) : Shape.dot [p.1 + k] g.shape.strides = p.1 + k := by
    simp [hg, Shape.dot, Shape.strides]
  rw [slice_eq (hlen ▸ hp)]
  simp [Grid.line, Grid.gathered, Grid.of, hsource, Grid.cellAt]

/-- The item at coordinates is a window that renders to a line of cells: the coordinate along the
axis numbers the stretch of the line, and the line goes through the others. -/
def HandsOutLines (w : View Item) (g : Grid Item) (a : Nat) (l : List (Int × Int)) : Prop :=
  ∀ c, Shape.Within (g.shape.set a l.length) c → ∃ p u, l[(c.getD a 0).toNat]? = some p ∧
    w.cell (.int (Shape.dot c (Shape.strides (g.shape.set a l.length)))) = .ok (.view u) ∧
    (Item.view u).render = .ok (.array (g.line a c p))

theorem ReadsAs.exists_partition [Platform] (hm : ReadsAs style keys n marks)
    (hroom : style.HasRoom marks) (hk : g.IsKept) (hs : g.shape.IsProper)
    (ha : g.shape[a]? = some n) (hp : IsAlong axis origin g.shape.length a) :
    ∃ w, Item.partition style (.array g) keys axis origin = .ok w ∧ w.etype = .ok EType.mixed ∧
      w.shape = .ok (.ofShape (g.shape.set a (style.stretches marks).length)) ∧
      (∃ gen, w.generator = .ok gen) ∧ HandsOutLines w g a (style.stretches marks) := by
  obtain ⟨w, hw, _, hetype, hshape, hgen⟩ :=
    (hm.parts hroom ha hp).partition_eq (v := View.ofGrid g) rfl
  refine ⟨w, hw, hetype, hshape, ⟨_, hgen⟩, fun c hc => ?_⟩
  obtain ⟨p, hpc, hitem⟩ := item_at ha hc
  have hlies : Lies n p := hm.length_eq ▸ style.lies_stretches marks p (List.mem_of_getElem? hpc)
  refine ⟨p, _, hpc, ?_, render_frame hk hs ha hc hlies⟩
  simp only [View.cell, hgen, bind, Except.bind, Gen.cell_indexed]
  exact hitem (View.ofGrid g)

/-- A vector that hands out lines of a vector shows the parts of that one along the stretches. -/
theorem HandsOutLines.items_eq {w : View Item} {l : List (Int × Int)}
    (h : HandsOutLines w g 0 l) (hg : g.shape = [n]) (hshape : w.shape = .ok (.ofShape [l.length]))
    (hetype : ∃ e, w.etype = .ok e) (hgen : ∃ gen, w.generator = .ok gen) :
    (Item.view w).items = .ok ((l.map fun p => g.line 0 [0] p).map .array) := by
  obtain ⟨gen, hgen⟩ := hgen
  have hoffers : w.Offers [l.length] fun i =>
      .array (g.line 0 [0] (l.getD i.toNat (0, 0))) := by
    refine ⟨hshape, hetype, gen, hgen, fun i hi => ?_⟩
    have hc : Shape.Within (g.shape.set 0 l.length) [i] := by
      have hi : 0 ≤ i ∧ i < l.length := by simpa [Shape.Holds] using hi
      simpa [hg, Shape.within_cons] using hi
    obtain ⟨p, u, hpi, hu, hrender⟩ := h [i] hc
    have hplace : Shape.dot [i] (Shape.strides (g.shape.set 0 l.length)) = i := by
      simp [hg, Shape.dot, Shape.strides]
    have haxis : (g.line 0 [i] p).shape ≠ [] := List.cons_ne_nil _ _
    have hp : l.getD i.toNat (0, 0) = p := by
      rw [List.getD_cons_zero] at hpi
      rw [List.getD_eq_getElem?_getD, hpi, Option.getD_some]
    simp only [View.cell, hgen, bind, Except.bind, hplace] at hu
    rw [hu, hp]
    refine (View.settle_of_render hrender).trans ?_
    rw [Grid.unboxed_of_shape haxis]
    rfl
  have hitems := Item.items_of_offers hoffers
  simp only [Shape.size_cons, Shape.size_nil, mul_one] at hitems
  rw [hitems, List.map_map]
  exact congrArg Except.ok (map_upTo_getD l (0, 0) fun p => Item.array (g.line 0 [0] p))

theorem covered_alike (hk : g.IsKept) (hg : g.shape = [(marks.length : Int)]) (style : Style) :
    List.Forall₂ Item.Alike
      (((style.stretches marks).map fun p => g.line 0 [0] p).flatMap Grid.items)
      (style.covered g.items marks) := by
  have hlen : g.items.length = marks.length := by
    rw [hk.length_eq, hg]
    simp
  have hcells : ((style.stretches marks).map fun p => g.line 0 [0] p).flatMap Grid.items =
      (style.covered g.items marks).map fun x => (x.countedFor g.etype.kind).stored := by
    rw [← style.flatMap_slice hlen, List.flatMap_map, List.map_flatMap]
    exact List.flatMap_congr fun p hp => items_line hk hg (style.lies_stretches marks p hp)
  rw [hcells, List.forall₂_map_left_iff, List.forall₂_same]
  intro x hx
  rw [Item.alike_countedFor, (hk.items x (mem_of_mem_covered hx)).stored_eq]
  exact .refl x

/-- The items of a partition are the lines of cells along the stretches that the marks describe, if
there is room for the stretches. If a vector is partitioned, then its items are joined to the
members with a key, or to all members from the first count on, in order and each once. If there is
no room, the partition is made, but nothing comes of it. -/
theorem ReadsAs.partition_lines [Platform] (hm : ReadsAs style keys n marks) (hk : g.IsKept)
    (hs : g.shape.IsProper) (ha : g.shape[a]? = some n)
    (hp : IsAlong axis origin g.shape.length a) :
    style.Describes marks (style.stretches marks) ∧
      ∃ w, Item.partition style (.array g) keys axis origin = .ok w ∧
        (style.HasRoom marks →
          w.shape = .ok (.ofShape (g.shape.set a (style.stretches marks).length)) ∧
          HandsOutLines w g a (style.stretches marks) ∧
          (g.shape.length = 1 → ∃ parts : List (Grid Item),
            (Item.view w).items = .ok (parts.map .array) ∧
            List.Forall₂ Item.Alike (parts.flatMap Grid.items) (style.covered g.items marks))) ∧
        (¬ style.HasRoom marks → w.IsRefused .overflow ∨ w.IsRefused .noRoom) := by
  refine ⟨style.describes_stretches hm.nonneg, ?_⟩
  by_cases hroom : style.HasRoom marks
  case neg =>
    obtain ⟨w, hw, hrefused⟩ := hm.isRefused hroom ha hp
    exact ⟨w, hw, fun h => absurd h hroom, fun _ => hrefused⟩
  obtain ⟨w, hw, hetype, hshape, hgen, hlines⟩ := hm.exists_partition hroom hk hs ha hp
  refine ⟨w, hw, fun _ => ⟨hshape, hlines, fun hvector => ?_⟩, fun h => absurd hroom h⟩
  obtain ⟨m, hg⟩ := List.length_eq_one_iff.mp hvector
  obtain ⟨rfl, rfl⟩ : a = 0 ∧ m = marks.length := by
    rw [hg] at ha
    obtain ⟨hlt, hm'⟩ := List.getElem?_eq_some_iff.mp ha
    obtain rfl : a = 0 := by simpa using hlt
    exact ⟨rfl, hm'.trans hm.length_eq.symm⟩
  rw [hg, List.set_cons_zero] at hshape
  exact ⟨_, hlines.items_eq hg hshape ⟨_, hetype⟩ hgen, covered_alike hk hg style⟩

def twoRows : Grid Item := Grid.of [2, 3] ([1, 2, 3, 4, 5, 6].map Item.int) none

def upToSix : Grid Item := Grid.ofInts [1, 2, 3, 4, 5, 6]

open scoped Usual in
/-- A column is left out of the rows, and a number out of the vector. A count of two describes an
empty item. -/
theorem twoRows_upToSix_partition :
    (∃ w, Item.partition .keys (.array twoRows) (.array (Grid.ofInts [1, 0, 3])) none (.int 0) =
        .ok w ∧ w.shape = .ok (.ofShape [2, 2]) ∧
      HandsOutLines w twoRows 1 [(0, 1), (2, 3)] ∧
      twoRows.line 1 [1, 1] (2, 3) = Grid.ofInts [6]) ∧
    ∀ style marks kept, (style, marks, kept) ∈
        [(Style.keys, [1, 1, 2, 2, 0, 3], [1, 2, 3, 4, 6]), (.counts, [0, 2, 0, 0, 1, 0],
          [2, 3, 4, 5, 6])] →
      ∃ w, ∃ parts : List (Grid Item),
        Item.partition style (.array upToSix) (.array (Grid.ofInts marks)) (some (.int 0))
          (.int 0) = .ok w ∧
        (Item.view w).items = .ok (parts.map .array) ∧
        List.Forall₂ Item.Alike (parts.flatMap Grid.items) (kept.map Item.int) := by
  have reads (style : Style) (marks : List Int) (h : ∀ k ∈ marks, 0 ≤ k) :
      ReadsAs style (.array (Grid.ofInts marks)) marks.length marks :=
    ⟨rfl, h, .view (View.ofGrid (Grid.ofInts marks)), marks, 1, rfl,
      Item.asInts_ofNumbers (s := [marks.length]) (by simp) style.role, rfl, rfl⟩
  refine ⟨?_, fun style marks kept h => ?_⟩
  · have rows : twoRows.IsKept := Grid.isKept_ofNumbers rfl
    have last : IsAlong none (.int 0) 2 1 := rfl
    obtain ⟨_, w, hw, hparted, _⟩ := (reads .keys [1, 0, 3] (by decide)).partition_lines rows
      (by simp [twoRows, Grid.of, Shape.IsProper]) rfl last
    obtain ⟨hshape, hlines, _⟩ := hparted trivial
    exact ⟨w, hw, hshape, hlines, rfl⟩
  · have six : upToSix.IsKept := Grid.isKept_ofNumbers rfl
    have first : IsAlong (some (.int 0)) (.int 0) 1 0 := rfl
    have hmarks : marks.length = 6 ∧ (∀ k ∈ marks, 0 ≤ k) ∧ style.HasRoom marks ∧
        style.covered upToSix.items marks = kept.map Item.int := by
      simp only [List.mem_cons, Prod.mk.injEq, List.not_mem_nil, or_false] at h
      obtain ⟨rfl, rfl, rfl⟩ | ⟨rfl, rfl, rfl⟩ := h
      · exact ⟨rfl, by decide, trivial, rfl⟩
      · exact ⟨rfl, by decide, ⟨by decide, by decide⟩, rfl⟩
    obtain ⟨hlen, hnonneg, hroom, hkept⟩ := hmarks
    obtain ⟨_, w, hw, hparted, _⟩ := (reads style marks hnonneg).partition_lines six
      (by simp [upToSix, Grid.ofInts, Grid.of, Shape.IsProper]) (by rw [hlen]; rfl) first
    obtain ⟨_, _, hvector⟩ := hparted hroom
    obtain ⟨parts, hparts, halike⟩ := hvector rfl
    exact ⟨w, parts, hw, hparts, hkept ▸ halike⟩

open scoped Usual in
/-- A count that no list can be repeated by describes no stretches, although there is a cell for
it. -/
theorem partition_beyond_room :
    ∃ w, Item.partition .counts (.array (Grid.ofInts [7])) (.array (Grid.ofInts [2 ^ 63 + 1])) none
        (.int 0) = .ok w ∧
      w.shape = .error .overflow ∧ ∀ xs, (Item.view w).items ≠ .ok xs :=
  ⟨_, rfl, rfl, nofun⟩

end Partition
end LazyApl
