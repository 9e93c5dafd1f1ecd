import LazyApl.Platform.Usual
import LazyApl.Proofs.Covering
import LazyApl.Proofs.Odometers
import LazyApl.Proofs.Searching
import LazyApl.Proofs.Tallying
/-!
# Lists of indices

Where lists the indices of the ones of a mask: whole numbers for a vector, and coordinate vectors
from the odometer otherwise. Its inverse reads such a list, makes the least shape in which all of
the indices name cells, and counts at each cell how often it is listed. So it gives the mask back up
to what follows the last one along each axis, and of indices without repetitions Where lists the
same again, in the order of their cells.
-/
namespace LazyApl

open Outcome

namespace Item

variable {x : Item} {xs : List Item} {ps : List (List Int)} {c : List Int} {o : Int}

/-- The item stands for coordinates that are counted from an origin: a whole number for a single
one, and a vector of whole numbers otherwise. -/
inductive IsIndex (o : Int) : Item → List Int → Prop
  | whole {k : Int} (h : 0 ≤ k) : IsIndex o (.int (k + o)) [k]
  | vector {c : List Int} {fill : Option Item} (hl : c.length ≠ 1) (h : ∀ k ∈ c, 0 ≤ k) :
      IsIndex o (.array ⟨[c.length], (Shape.countedFrom o c).map .int, fill⟩) c

/-- The item is read as coordinates that are counted from an origin, and none of them is below
it. -/
structure PointsTo (o : Int) (x : Item) (c : List Int) : Prop where
  reads : x.asInts "index" = .ok (Shape.countedFrom o c)
  nonneg : ∀ k ∈ c, 0 ≤ k

theorem IsIndex.pointsTo (h : IsIndex o x c) : PointsTo o x c := by
  cases h with
  | whole h => exact ⟨rfl, by simpa using h⟩
  | @vector _ fill _ h =>
      refine ⟨?_, h⟩
      have hkept : Grid.IsKept ⟨[c.length], (Shape.countedFrom o c).map .int, fill⟩ := by
        refine ⟨by simp [Shape.countedFrom], fun y hy => ?_⟩
        obtain ⟨n, -, rfl⟩ := List.mem_map.mp hy
        trivial
      rw [Item.asInts, items_of_isKept hkept]
      exact mapM_asWhole_int "index" _

theorem nonneg_of_pointsTo (h : List.Forall₂ (PointsTo o) xs ps) : ∀ p ∈ ps, ∀ k ∈ p, 0 ≤ k := by
  induction h with
  | nil => simp
  | cons hx _ ih => exact List.forall_mem_cons.mpr ⟨hx.nonneg, ih⟩

theorem anyNegative_ofShape (h : ∀ k ∈ c, 0 ≤ k) : anyNegative (Extents.ofShape c) = .ok false := by
  induction c with
  | nil => rfl
  | cons k c ih =>
      obtain ⟨hk, hc⟩ := List.forall_mem_cons.mp h
      have hlt : (Number.int k).lt (.int 0) = .ok (decide (k < 0)) := rfl
      have hcons : Extents.ofShape (k :: c) = .int k :: Extents.ofShape c := rfl
      simp only [hcons, anyNegative, hlt, decide_eq_false (not_lt.mpr hk), bind, Except.bind]
      exact ih hc

theorem PointsTo.position_eq (h : PointsTo o x c) :
    x.position (.int o) = .ok (Extents.ofShape c) := by
  have hstrip : (Shape.countedFrom o c).mapM (Scalar.strip (.int o)) = .ok (Extents.ofShape c) := by
    rw [Shape.countedFrom, List.mapM_map]
    refine mapM_ok fun k _ => ?_
    rw [Function.comp_apply, Scalar.strip_int, Int.add_sub_cancel]
  simp only [Item.position, h.reads, bind, Except.bind, hstrip, anyNegative_ofShape h.nonneg]
  rfl

/-- An array of truth values: its shape, and its items in order. -/
structure IsMask (m : Item) (t : Shape) (bs : List Bool) : Prop where
  proper : t.IsProper
  shape : m.lift.shape = .ok (.ofShape t)
  items : m.ShowsBits bs

variable {m : Item} {t : Shape} {bs : List Bool}

theorem IsMask.length_eq (h : m.IsMask t bs) : (bs.length : Int) = t.size := by
  obtain ⟨xs, hxs, hbits⟩ := h.items
  rw [items_lift] at hxs
  rw [← hbits.length_eq, length_items h.shape hxs,
    Int.toNat_of_nonneg (Shape.size_nonneg h.proper)]

theorem IsMask.packed [Platform] (hB : Platform.bitLists.IsLawful) (h : m.IsMask t bs)
    (refusal : DomainCause) :
    ∃ b, (view m.lift).packed refusal = .ok b ∧ Platform.bitLists.bits b = bs := by
  obtain ⟨xs, hxs, hbits⟩ := h.items
  rw [items_lift] at hxs
  exact ShowsBits.packed ⟨xs, hxs, hbits⟩ hB refusal

/-- The index of a position: the position itself in a vector, and otherwise the vector of its
coordinates. -/
def indexAt (t : Shape) (o i : Int) : Item :=
  if t.length = 1 then .int (i + o)
  else array (Grid.ofList ((Shape.countedFrom o (t.coordinates i)).map Item.int))

theorem settle_indexAt (t : Shape) (o i : Int) : (indexAt t o i).settle = .ok (indexAt t o i) := by
  unfold indexAt
  split <;> rfl

theorem isIndex_indexAt {i : Int} (ht : t.IsProper) (hi : t.Holds i) (o : Int) :
    IsIndex o (indexAt t o i) (t.coordinates i) := by
  unfold indexAt
  split
  case isTrue hr =>
    obtain ⟨n, rfl⟩ := List.length_eq_one_iff.mp hr
    rw [Shape.coordinates_vector hi]
    exact .whole hi.1
  case isFalse hr =>
    have hc := Shape.coordinates_within ht hi
    have hgrid : Grid.ofList ((Shape.countedFrom o (t.coordinates i)).map Item.int) =
        ⟨[((t.coordinates i).length : Int)],
          (Shape.countedFrom o (t.coordinates i)).map Item.int, none⟩ := by
      simp [Grid.ofList, Grid.of, Shape.countedFrom, stored]
    rw [hgrid]
    refine .vector (by rwa [hc.length_eq]) fun k hk => ?_
    obtain ⟨a, ha⟩ := List.mem_iff_getElem?.mp hk
    have hlt : a < t.length := hc.length_eq ▸ (List.getElem?_eq_some_iff.mp ha).1
    exact (hc.getElem ha (List.getElem?_eq_getElem hlt)).1

/-- The list of the indices of the ones of an array. -/
theorem whereOnes_spec [Platform] (hB : Platform.bitLists.IsLawful) (h : m.IsMask t bs)
    (hb : m.based = m.lift) (o : Int) :
    ∃ ys, (whereOnes m (.int o)).IsMadeFrom ys ∧ List.Forall₂ (IsIndex o) ys (Where.ones t bs) ∧
      ∀ y ∈ ys, y.settle = .ok y := by
  have hholds : ∀ i ∈ onesFrom 0 bs, t.Holds i := by
    intro i hi
    obtain ⟨k, hk⟩ := List.mem_iff_getElem?.mp hi
    exact (holds_onesFrom h.length_eq hk).1
  obtain ⟨b, hbits, hbs⟩ := h.packed hB .notBooleanArray
  have hones : onesIn b = .ok (onesFrom 0 bs) := hbs ▸ onesIn_eq hB b
  have hcount : Platform.bitLists.count b = bs.count true := hbs ▸ hB.count b
  refine ⟨(onesFrom 0 bs).map (indexAt t o), ⟨View.hasContent_whole.mpr ?_, ?_⟩, ?_, ?_⟩
  · simp only [Lazy.get_delay, Lazy.get_keep, hbits, hones, hb, h.shape, bind, Except.bind,
      Extents.length_ofShape]
    split
    case isTrue hr =>
      refine mapM_ok fun i _ => ?_
      rw [Scalar.count_int, indexAt, if_pos hr]
      rfl
    case isFalse hr =>
      have hodometer : Where.odometer t (.int o) = .ok ((upTo t.size).map fun i =>
          (Shape.countedFrom o (t.coordinates i)).map Scalar.int) := by
        simp only [Where.odometer, Shape.odometer_coordinates h.proper, List.map_map]
        rfl
      simp only [Extents.shape_ofShape, hodometer]
      refine mapM_ok fun i hi => ?_
      simp only [List.getElem?_toArray, getElem?_map_upTo _ (hholds i hi), List.map_map, indexAt,
        if_neg hr]
      rfl
  · simp only [whereOnes, View.whole, View.shape_computed, Lazy.get_delay, Lazy.get_keep, hbits,
      hcount, bind, Except.bind, pure, Except.pure, List.length_map, length_onesFrom]
    rfl
  · rw [Where.ones, List.forall₂_map_left_iff, List.forall₂_map_right_iff, List.forall₂_same]
    exact fun i hi => isIndex_indexAt h.proper (hholds i hi) o
  · intro y hy
    obtain ⟨i, -, rfl⟩ := List.mem_map.mp hy
    exact settle_indexAt t o i

theorem length_eraseDups_le {r : Nat} (hl : ∀ p ∈ ps, p.length = r) :
    ((ps.map Extents.ofShape).map List.length).eraseDups.length ≤ 1 := by
  have hlengths : (ps.map Extents.ofShape).map List.length = ps.map fun _ => r := by
    rw [List.map_map]
    exact List.map_congr_left fun p hp => (Extents.length_ofShape p).trans (hl p hp)
  rw [hlengths]
  cases ps with
  | nil => simp
  | cons p ps => simp [List.eraseDups_cons]

theorem length_eraseDups_eq_iff : (ps.map Extents.ofShape).eraseDups.length =
    (ps.map Extents.ofShape).length ↔ ps.Nodup := by
  have hinj : Function.Injective Extents.ofShape := fun _ _ h => Extents.ofShape_inj h
  rw [← List.nodup_map_iff hinj]
  constructor
  · intro h
    have hsub : (ps.map Extents.ofShape).eraseDups ⊆ ps.map Extents.ofShape :=
      fun p hp => List.mem_eraseDups.mp hp
    have hperm := (List.subperm_of_subset (nodup_eraseDups _) hsub).perm_of_length_le h.ge
    exact hperm.nodup_iff.mp (nodup_eraseDups _)
  · intro h
    rw [eraseDups_of_nodup h]

/-- What comes of a list of indices of one rank: counts in the least shape in which all of them name
cells, if there is room for so many. -/
theorem inverseWhere_spec [Platform] {r : Nat} (hx : x.Lists xs)
    (hi : List.Forall₂ (PointsTo o) xs ps) (hne : ps ≠ []) (hl : ∀ p ∈ ps, p.length = r) :
    ∃ u, u.length = r ∧ Where.IsBox (· ∈ ps) u ∧
      (inverseWhere x (.int o)).shape = .ok (.ofShape u) ∧
      (inverseWhere x (.int o)).etype =
        .ok (if ps.Nodup then EType.bit else EType.integer 0 ps.length) ∧
      (∀ k, Platform.room.times 1 u.size = .ok k →
        (view (inverseWhere x (.int o))).items = .ok ((Where.counts u ps).map int) ∧
        ∃ fill, (view (inverseWhere x (.int o))).render =
          .ok (.array ⟨u, (Where.counts u ps).map int, fill⟩)) ∧
      ∀ e, Platform.room.times 1 u.size = .error e →
        (view (inverseWhere x (.int o))).render = .error e := by
  have hmembers := hx.members_eq "argument"
  have hpositions : xs.mapM (position (.int o)) = .ok (ps.map Extents.ofShape) := by
    rw [mapM_eq_ok, List.forall₂_map_right_iff]
    exact hi.imp fun _ _ h => h.position_eq
  have hone : ¬ ((ps.map Extents.ofShape).map List.length).eraseDups.length > 1 :=
    not_lt.mpr (length_eraseDups_le hl)
  obtain ⟨u, hu, hlu, hbox⟩ := Where.exists_cover hne hl (nonneg_of_pointsTo hi)
  have hproper := hbox.isProper hne
  have hwholes : (ps.map Extents.ofShape).mapM (fun p => p.mapM Number.index) = .ok ps := by
    rw [List.mapM_map]
    refine (mapM_ok (g := id) fun p _ => ?_).trans (by simp)
    exact Number.mapM_index p
  have hshape : (inverseWhere x (.int o)).shape = .ok (.ofShape u) := by
    simp only [inverseWhere, View.whole, View.shape_computed, Lazy.get_delay, Lazy.get_keep,
      hmembers, hpositions, bind, Except.bind, if_neg hone, pure, Except.pure, hu]
  have hetype : (inverseWhere x (.int o)).etype =
      .ok (if ps.Nodup then EType.bit else EType.integer 0 ps.length) := by
    simp only [inverseWhere, View.whole, View.etype_computed, Lazy.get_delay, Lazy.get_keep,
      hmembers, hpositions, bind, Except.bind, if_neg hone, pure, Except.pure,
      length_eraseDups_eq_iff]
    rw [List.length_map]
    split <;> rfl
  have htally := Where.tally_eq hproper hbox.within
  refine ⟨u, hlu, hbox, hshape, hetype, fun k hroom => ?_, fun e hroom => ?_⟩
  · obtain rfl := Room.times_spec hroom
    have hlength : ((Where.counts u ps).length : Int) = u.size := by
      rw [Where.length_counts, Int.toNat_of_nonneg (Shape.size_nonneg hproper)]
    refine View.shown_ints ?_ hshape hetype hlength hproper rfl
    simp only [Lazy.get_delay, Lazy.get_keep, hmembers, hpositions, bind, Except.bind, if_neg hone,
      pure, Except.pure, hu, Extents.shape_ofShape, hroom, hwholes, htally]
  · refine View.render_whole_of_error ?_ hshape hproper rfl
    simp only [Lazy.get_delay, Lazy.get_keep, hmembers, hpositions, bind, Except.bind, if_neg hone,
      pure, Except.pure, hu, Extents.shape_ofShape, hroom]

theorem based_eq_lift (h : m ≠ nothing) : m.based = m.lift := by
  unfold based basedOn
  split
  · exact absurd rfl h
  · rfl

/-- The indices of the ones of a mask, counted, give an array of one less along each axis than the
last one has as its coordinate. It agrees with the mask, and outside of it there is no one. -/
theorem inverseWhere_whereOnes [Platform] (hB : Platform.bitLists.IsLawful) (h : m.IsMask t bs)
    (ht : t ≠ []) (hone : true ∈ bs) (o : Int) :
    ∃ u, Where.IsBox (Where.IsOne t bs) u ∧ u.size ≤ t.size ∧
      (inverseWhere (view (whereOnes m (.int o))) (.int o)).shape = .ok (.ofShape u) ∧
      (∀ k, Platform.room.times 1 u.size = .ok k → ∃ (ns : List Int) (fill : Option Item),
        (view (inverseWhere (view (whereOnes m (.int o))) (.int o))).render =
          .ok (.array ⟨u, ns.map int, fill⟩) ∧
        ∀ c, u.Within c → t.Within c ∧ ∃ b, bs[(t.position c).toNat]? = some b ∧
          ns[(u.position c).toNat]? = some (degree b)) ∧
      ∀ e, Platform.room.times 1 u.size = .error e →
        (view (inverseWhere (view (whereOnes m (.int o))) (.int o))).render = .error e := by
  have hbased : m.based = m.lift := by
    refine based_eq_lift ?_
    rintro rfl
    exact ht (Extents.ofShape_inj (Except.ok.inj h.shape)).symm
  obtain ⟨ys, hmade, hys, hsettle⟩ := whereOnes_spec hB h hbased o
  have hmem : ∀ c, c ∈ Where.ones t bs ↔ Where.IsOne t bs c :=
    fun c => Where.mem_ones h.proper h.length_eq
  have hne : Where.ones t bs ≠ [] := by
    obtain ⟨n, hn⟩ := List.mem_iff_getElem?.mp hone
    exact List.ne_nil_of_mem (List.mem_map_of_mem (mem_onesFrom.mpr ⟨n, hn, rfl⟩))
  obtain ⟨u, hlu, hbox, hshape, -, hroom, hnone⟩ := inverseWhere_spec (hmade.lists hsettle)
    (hys.imp fun _ _ h => h.pointsTo) hne fun p hp => ((hmem p).mp hp).1.length_eq
  have hbox' : Where.IsBox (Where.IsOne t bs) u := hbox.congr hmem
  have hle : List.Forall₂ (· ≤ ·) u t := hbox'.le hlu fun c hc => hc.1
  refine ⟨u, hbox', Shape.size_mono hle (hbox.isProper hne), hshape, fun k hk => ?_, hnone⟩
  obtain ⟨-, fill, hrender⟩ := hroom k hk
  refine ⟨_, fill, hrender, fun c hc => ⟨hc.mono hle, ?_⟩⟩
  obtain ⟨b, hb, hcount⟩ := Where.count_ones h.proper h.length_eq (hc.mono hle)
  exact ⟨b, hb, by rw [Where.getElem?_counts hbox.within hc, hcount]⟩

/-- A mask with two ones in its upper left corner. -/
def corner : Item := array ⟨[2, 3], [int 0, int 1, int 0, int 1, int 0, int 0], none⟩

open scoped Usual in
theorem corner_inverseWhere_whereOnes : ∃ (ns : List Int) (fill : Option Item),
    (view (inverseWhere (view (whereOnes corner (.int 1))) (.int 1))).render =
        .ok (.array ⟨[2, 2], ns.map int, fill⟩) ∧
      ∀ c, Shape.Within [2, 2] c → Shape.Within [2, 3] c ∧
        ∃ b, [false, true, false, true, false, false][(Shape.position [2, 3] c).toNat]? = some b ∧
          ns[(Shape.position [2, 2] c).toNat]? = some (degree b) := by
  have mask : corner.IsMask [2, 3] [false, true, false, true, false, false] :=
    ⟨by simp [Shape.IsProper], rfl, _, rfl, .cons (.counted false) (.cons (.counted true)
      (.cons (.counted false) (.cons (.counted true)
        (.cons (.counted false) (.cons (.counted false) .nil)))))⟩
  obtain ⟨u, -, -, hshape, hroom, -⟩ :=
    inverseWhere_whereOnes Usual.isLawful_bitLists mask (by simp) (by simp) 1
  have hcomputed : (inverseWhere (view (whereOnes corner (.int 1))) (.int 1)).shape =
      .ok (.ofShape [2, 2]) := rfl
  obtain rfl := Extents.ofShape_inj (Except.ok.inj (hshape.symm.trans hcomputed))
  have room : Platform.room.times 1 (Shape.size [2, 2]) = .ok 4 := rfl
  exact hroom 4 room

/-- A count is covered by the element type: at most one if no index is listed twice, and otherwise
at most the length of the list. -/
theorem covers_count (ps : List (List Int)) (c : List Int) :
    (if ps.Nodup then EType.bit else EType.integer 0 ps.length).covers
      (int (ps.count c : Nat)) = true := by
  have hinteger (h : Int) (hle : (ps.count c : Int) ≤ h) :
      (EType.integer 0 h).covers (int (ps.count c : Nat)) = true :=
    (EType.covers_integer rfl).mpr ⟨Int.natCast_nonneg _, hle⟩
  split
  case isTrue hn =>
    exact hinteger 1 (by exact_mod_cast List.nodup_iff_count_le_one.mp hn c)
  case isFalse => exact hinteger _ (by exact_mod_cast List.count_le_length)

/-- The item at each position is the number of times that its index is listed, all of them add up to
the length of the list, and the element type covers them. If no index is listed twice, the ones of
the result have the indices of the list, in the order of their positions. -/
theorem inverseWhere_counts [Platform] {r : Nat} (hx : x.Lists xs)
    (hi : List.Forall₂ (PointsTo o) xs ps) (hne : ps ≠ []) (hl : ∀ p ∈ ps, p.length = r) :
    ∃ u e, (inverseWhere x (.int o)).shape = .ok (.ofShape u) ∧
      (inverseWhere x (.int o)).etype = .ok e ∧ Where.IsBox (· ∈ ps) u ∧
      (∀ k, Platform.room.times 1 u.size = .ok k → ∃ (ns : List Int) (fill : Option Item),
        (view (inverseWhere x (.int o))).render = .ok (.array ⟨u, ns.map int, fill⟩) ∧
        (∀ c, u.Within c → ns[(u.position c).toNat]? = some (ps.count c : Int)) ∧
        ns.sum = xs.length ∧ (∀ n ∈ ns, e.covers (int n) = true) ∧
        (Platform.bitLists.IsLawful → ps.Nodup → ∃ ys qs,
          (view (whereOnes (view (inverseWhere x (.int o))) (.int o))).Lists ys ∧
          List.Forall₂ (IsIndex o) ys qs ∧ qs.Perm ps ∧
          qs.Pairwise fun p q => u.position p < u.position q)) ∧
      ∀ e, Platform.room.times 1 u.size = .error e →
        (view (inverseWhere x (.int o))).render = .error e := by
  obtain ⟨u, -, hbox, hshape, hetype, hroom, hnone⟩ := inverseWhere_spec hx hi hne hl
  have hproper := hbox.isProper hne
  refine ⟨u, _, hshape, hetype, hbox, fun k hk => ?_, hnone⟩
  obtain ⟨hitems, fill, hrender⟩ := hroom k hk
  refine ⟨_, fill, hrender, fun c hc => Where.getElem?_counts hbox.within hc, ?_, ?_,
    fun hB hn => ?_⟩
  · rw [Where.sum_counts hbox.within, hi.length_eq]
  · intro n hn
    rw [Where.counts_eq hproper hbox.within] at hn
    obtain ⟨i, -, rfl⟩ := List.mem_map.mp hn
    exact covers_count ps _
  · obtain ⟨bs, hlen, hcounts, hperm⟩ := Where.exists_mask hproper hbox.within hn
    have hmask : (view (inverseWhere x (.int o))).IsMask u bs := by
      refine ⟨hproper, hshape, _, hitems, ?_⟩
      rw [hcounts, List.map_map, List.forall₂_map_left_iff, List.forall₂_same]
      exact fun b _ => .counted b
    obtain ⟨ys, hmade, hys, hsettle⟩ := whereOnes_spec hB hmask rfl o
    exact ⟨ys, _, hmade.lists hsettle, hys, hperm, Where.pairwise_ones hproper hlen⟩

/-- Two coordinate vectors, of which the second one comes first in the order of cells. -/
def twoCorners : Item :=
  array ⟨[2], [array ⟨[2], [int 1, int 0], none⟩, array ⟨[2], [int 0, int 1], none⟩], none⟩

open scoped Usual in
theorem twoCorners_inverseWhere_counts : ∃ (ns : List Int) (fill : Option Item),
    (view (inverseWhere twoCorners (.int 0))).render = .ok (.array ⟨[2, 2], ns.map int, fill⟩) ∧
      (∀ c, Shape.Within [2, 2] c →
        ns[(Shape.position [2, 2] c).toNat]? = some ([[1, 0], [0, 1]].count c : Int)) ∧
      ns.sum = 2 ∧ ∃ ys qs,
        (view (whereOnes (view (inverseWhere twoCorners (.int 0))) (.int 0))).Lists ys ∧
        List.Forall₂ (IsIndex 0) ys qs ∧ qs.Perm [[1, 0], [0, 1]] ∧
        qs.Pairwise fun p q => Shape.position [2, 2] p < Shape.position [2, 2] q := by
  have lists : twoCorners.Lists [array ⟨[2], [int 1, int 0], none⟩,
      array ⟨[2], [int 0, int 1], none⟩] := by
    refine ⟨⟨[2], rfl, by simp [Shape.IsProper], by simp⟩, ?_⟩
    rfl
  have indices : List.Forall₂ (PointsTo 0) [array ⟨[2], [int 1, int 0], none⟩,
      array ⟨[2], [int 0, int 1], none⟩] [[1, 0], [0, 1]] :=
    .cons ⟨rfl, by decide⟩ (.cons ⟨rfl, by decide⟩ .nil)
  obtain ⟨u, e, hshape, -, -, hroom, -⟩ := inverseWhere_counts lists indices (by simp) (r := 2)
    (by decide)
  have hcomputed : (inverseWhere twoCorners (.int 0)).shape = .ok (.ofShape [2, 2]) := rfl
  obtain rfl := Extents.ofShape_inj (Except.ok.inj (hshape.symm.trans hcomputed))
  have room : Platform.room.times 1 (Shape.size [2, 2]) = .ok 4 := rfl
  obtain ⟨ns, fill, hrender, hcounts, hsum, -, hones⟩ := hroom 4 room
  exact ⟨ns, fill, hrender, hcounts, hsum, hones Usual.isLawful_bitLists (by decide)⟩

open scoped Usual in
/-- An index beyond all room: its place can be told, but the counts before it cannot be listed. -/
theorem inverseWhere_beyond_room :
    (ints [2 ^ 63]).Lists [int (2 ^ 63)] ∧
      List.Forall₂ (PointsTo 0) [int (2 ^ 63)] [[2 ^ 63]] ∧
      (inverseWhere (ints [2 ^ 63]) (.int 0)).shape = .ok (.ofShape [2 ^ 63 + 1]) ∧
      (view (inverseWhere (ints [2 ^ 63]) (.int 0))).render = .error .overflow := by
  refine ⟨⟨⟨[1], rfl, by simp [Shape.IsProper], by simp⟩, rfl⟩, ?_, rfl, rfl⟩
  exact .cons ⟨rfl, by decide⟩ .nil

end Item
end LazyApl
