import LazyApl.Platform.Usual
import LazyApl.Proofs.Joining
import LazyApl.Proofs.Reading
import LazyApl.Proofs.Sections
/-!
# Replication in blocks

A replication shows the cells along an axis in blocks, one for each count: as many copies of the
cell as the count says, or as many fills if it is negative. The blocks lie one after another, so
each starts after those of all earlier cells. Cells without a count show nowhere.
-/
namespace LazyApl

open Outcome

namespace Replicate

variable {i d n x : Int} {k a : Nat} {c ds : List Int} {t : Shape}

def sizes (ds : List Int) : List Int := ds.map fun d => (d.natAbs : Int)

theorem sizes_nonneg : ∀ n ∈ sizes ds, 0 ≤ n := by
  intro n hn
  obtain ⟨d, _, rfl⟩ := List.mem_map.mp hn
  exact Int.natCast_nonneg _

theorem getElem?_sizes (hd : ds[k]? = some d) : (sizes ds)[k]? = some (d.natAbs : Int) := by
  simp [sizes, hd]

theorem length_blocks (i : Int) (ds : List Int) :
    ((blocks i ds).length : Int) = (sizes ds).sum := by
  induction ds generalizing i with
  | nil => rfl
  | cons d ds ih =>
      have hrest := ih (i + 1)
      simp only [blocks, block, sizes, List.length_append, List.length_replicate, List.map_cons,
        List.sum_cons, Nat.cast_add] at hrest ⊢
      rw [hrest]

theorem getElem?_blocks (hd : ds[k]? = some d) (h0 : 0 ≤ x) (hx : x < d.natAbs) :
    (blocks i ds)[(x + ((sizes ds).take k).sum).toNat]? =
      some (if 0 ≤ d then some (i + k) else none) := by
  induction ds generalizing i k with
  | nil => cases hd
  | cons e ds ih =>
      cases k with
      | zero =>
          obtain rfl : e = d := Option.some.inj hd
          have hlt : x.toNat < e.natAbs := by omega
          simp [blocks, block, List.getElem?_append_left, hlt]
      | succ k =>
          have hsum : 0 ≤ ((sizes ds).take k).sum :=
            List.sum_nonneg fun n hn => sizes_nonneg n (List.mem_of_mem_take hn)
          have hplace : (x + ((sizes (e :: ds)).take (k + 1)).sum).toNat =
              e.natAbs + (x + ((sizes ds).take k).sum).toNat := by
            simp only [sizes, List.map_cons, List.take_succ_cons, List.sum_cons] at hsum ⊢
            omega
          rw [hplace, blocks, List.getElem?_append_right (by simp [block])]
          simp only [block, List.length_replicate, Nat.add_sub_cancel_left]
          rw [ih hd, Nat.cast_add_one, add_assoc, add_comm 1 (k : Int)]

theorem contains_blocks (i : Int) (ds : List Int) :
    (blocks i ds).contains none = true ↔ ∃ d ∈ ds, d < 0 := by
  rw [List.contains_iff_mem]
  constructor
  · intro h
    obtain ⟨k, d, hd, hx⟩ := mem_blocks h
    refine ⟨d, List.mem_of_getElem? hd, not_le.mp fun h0 => ?_⟩
    rw [if_pos h0] at hx
    cases hx
  · rintro ⟨d, hd, hneg⟩
    obtain ⟨k, hk⟩ := List.mem_iff_getElem?.mp hd
    have hget := getElem?_blocks (i := i) (x := 0) hk le_rfl (by omega)
    rw [if_neg (not_le.mpr hneg)] at hget
    exact List.mem_of_getElem? hget

/-- The counts of a replication: one for all cells, or one for each. -/
inductive Degrees
  | all (d : Int)
  | each (ds : List Int)

namespace Degrees

def listed : Degrees → List Int
  | all d => [d]
  | each ds => ds

/-- Whether there is one count for all cells. -/
def isSingle : Degrees → Bool
  | all _ => true
  | each _ => false

/-- The counts of the cells along an axis of extent `n`. -/
def counts (n : Int) : Degrees → List Int
  | all d => List.replicate n.toNat d
  | each ds => ds

/-- There is room for the copies of each cell, which are made at once, for the list of all of them,
and for the counts where they have to be made. A list as long as that of the counts has room. -/
structure HasRoom (room : Room) (n : Int) (K : Degrees) : Prop where
  counts : K.isSingle = true → room.Has n.toNat
  copies : ∀ d ∈ K.counts n, d.natAbs < twoTo 63
  total : ((K.counts n).map Int.natAbs).sum ≤ (room.beside (K.counts n).length).limit

variable {room : Room}

theorem hasRoom_iff {K : Degrees} : K.HasRoom room n ↔ (K.isSingle = true → room.Has n.toNat) ∧
    (room.beside (K.counts n).length).Takes 0 0 ((K.counts n).map Int.natAbs) := by
  constructor
  · rintro ⟨hcounts, hcopies, htotal⟩
    exact ⟨hcounts, List.forall_mem_map.mpr hcopies, by omega⟩
  · rintro ⟨hcounts, hcopies, htotal⟩
    exact ⟨hcounts, List.forall_mem_map.mp hcopies, by omega⟩

end Degrees

variable {room : Room}

theorem positions_each (ds : List Int) (n : Int) : positions room ds false (.int n) =
    if n < ds.length then .error (.length .countsBeyondCells [[(ds.length : Int)], [.int n]])
    else expand (room.beside ds.length) 0 0 ds := by
  by_cases h : n < ds.length <;> simp [positions, h, bind, Except.bind, pure, Except.pure]

theorem positions_single (ds : List Int) (n : Number) : positions room ds true n =
    n.index >>= fun m => room.repeated ds m >>= fun made => positions room made false n := rfl

theorem positions_all (d : Int) (h0 : 0 ≤ n) : positions room [d] true (.int n) =
    room.times 1 n.toNat >>= fun _ =>
      expand (room.beside n.toNat) 0 0 (List.replicate n.toNat d) := by
  obtain ⟨m, rfl⟩ := Int.eq_ofNat_of_zero_le h0
  have hmade : positions room [d] true (.int m) =
      room.repeated [d] m >>= fun made => positions room made false (.int m) := by
    rw [positions_single, Number.index_int]
    exact pure_bind (m : Int) _
  have hrepeated : room.repeated [d] m =
      room.times 1 m >>= fun k => .ok (List.replicate k [d]).flatten := by
    rw [Room.repeated, List.length_singleton]
    cases room.times 1 m <;> rfl
  have heach : positions room (List.replicate m [d]).flatten false (.int m) =
      expand (room.beside m) 0 0 (List.replicate m d) := by
    rw [List.flatten_replicate_singleton, positions_each, List.length_replicate,
      if_neg (lt_irrefl _)]
  rw [hmade, hrepeated, Int.toNat_natCast]
  rcases room.times_one m with ⟨_, htimes⟩ | ⟨_, htimes | htimes⟩
  · rw [htimes]
    exact heach
  · rw [htimes]
    rfl
  · rw [htimes]
    rfl

/-- What the places along the axis show, or why there are none. -/
theorem positions_cases (K : Degrees) (h0 : 0 ≤ n) :
    (n < (K.counts n).length ∧ positions room K.listed K.isSingle (.int n) =
        .error (.length .countsBeyondCells [[((K.counts n).length : Int)], [.int n]])) ∨
      ((K.counts n).length ≤ n ∧ K.HasRoom room n ∧
        positions room K.listed K.isSingle (.int n) = .ok (blocks 0 (K.counts n))) ∨
      ((K.counts n).length ≤ n ∧ ¬ K.HasRoom room n ∧
        (positions room K.listed K.isSingle (.int n) = .error .overflow ∨
          positions room K.listed K.isSingle (.int n) = .error .noRoom)) := by
  have hexpand := expand_eq (room.beside (K.counts n).length) 0 (K.counts n) (Nat.zero_le _)
  rw [Degrees.hasRoom_iff]
  cases K with
  | each ds =>
      simp only [Degrees.listed, Degrees.isSingle, Degrees.counts, positions_each] at hexpand ⊢
      by_cases hlong : n < ds.length
      · exact .inl ⟨hlong, if_pos hlong⟩
      · rw [if_neg hlong]
        rcases hexpand with ⟨hroom, he⟩ | ⟨hroom, he⟩
        · exact .inr (.inl ⟨not_lt.mp hlong, ⟨nofun, hroom⟩, he⟩)
        · exact .inr (.inr ⟨not_lt.mp hlong, fun h => hroom h.2, he⟩)
  | all d =>
      have hlen : (List.replicate n.toNat d).length ≤ n := by
        rw [List.length_replicate]
        omega
      simp only [Degrees.listed, Degrees.isSingle, Degrees.counts, positions_all d h0,
        List.length_replicate] at hexpand hlen ⊢
      rcases room.times_one n.toNat with ⟨hmade, htimes⟩ | ⟨hmade, htimes⟩
      · rw [htimes]
        rcases hexpand with ⟨hroom, he⟩ | ⟨hroom, he⟩
        · exact .inr (.inl ⟨hlen, ⟨fun _ => hmade, hroom⟩, he⟩)
        · exact .inr (.inr ⟨hlen, fun h => hroom h.2, he⟩)
      · refine .inr (.inr ⟨hlen, fun h => hmade (h.1 trivial), htimes.imp ?_ ?_⟩)
        · exact fun h => by rw [h]; rfl
        · exact fun h => by rw [h]; rfl

/-- The axis of a replication of an array with axes is one of them. -/
theorem axis_bounds {given : Option AxisArgument} {first : Bool} {origin : Origin} (hne : t ≠ [])
    {j : Int} (h : axis given first origin (.ofShape t) = .ok j) :
    ∃ (a : Nat) (n : Int), j = a ∧ t[a]? = some n := by
  have hsame : located given first origin (.ofShape t) =
      Rotation.located given first origin (.ofShape t) := by
    cases given with
    | some a => rfl
    | none => cases t with
      | nil => exact absurd rfl hne
      | cons m t => rfl
  rw [axis, hsame] at h
  exact Rotation.axis_bounds hne h

/-- Where a cell of the block of cell `k` stands in a replication along the axis `a`. -/
def place (t : Shape) (a : Nat) (ds : List Int) (k : Nat) (c : List Int) : Int :=
  Shape.dot (c.set a (c.getD a 0 + ((sizes ds).take k).sum))
    (Shape.strides (t.set a (sizes ds).sum))

theorem reach_place (ht : t.IsProper) (ha : t[a]? = some n) (hle : (ds.length : Int) ≤ n)
    (hd : ds[k]? = some d) (hc : Shape.Within (t.set a d.natAbs) c) :
    (link (blocks 0 ds) a (.ofShape t)).reach (place t a ds k c) =
      if 0 ≤ d then some (Shape.dot (c.set a k) t.strides) else none := by
  have hlt := (List.getElem?_eq_some_iff.mp ha).1
  have hac : a < c.length := by simpa [hc.length_eq] using hlt
  have hmoved := Join.within_part hlt sizes_nonneg (getElem?_sizes hd) hc
  have hx := hc.getD_bounds (a := a) (n := d.natAbs) (by simp [hlt])
  have hblock := getElem?_blocks (i := 0) hd hx.1 hx.2
  have hcells (x : Int) (hx : some x ∈ blocks 0 ds) : 0 ≤ x ∧ x < n := by
    have hbounds := mem_blocks_bounds hx
    omega
  have hmaps := maps_link ht ha hcells
  rw [length_blocks] at hmaps
  rw [place, hmaps.reach_eq hmoved.holds, Shape.coordinates_dot hmoved, source]
  have hget : (c.set a (c.getD a 0 + ((sizes ds).take k).sum)).getD a 0 =
      c.getD a 0 + ((sizes ds).take k).sum := by simp [List.getD_eq_getElem?_getD, hac]
  rw [hget, List.getD_eq_getElem?_getD (l := blocks 0 ds), hblock]
  by_cases h0 : 0 ≤ d <;> simp [h0]

end Replicate

namespace Item

open Replicate

/-- The item is read as the counts of a replication. -/
def ListsDegrees (x : Item) (K : Degrees) : Prop :=
  ∃ arg, flat x .leftScalarOrVector = .ok arg ∧ arg.asInts "left argument" = .ok K.listed ∧
    arg.rankOf = .ok (if K.isSingle then 0 else 1)

variable {v : View Item} {t : Shape} {x : Item} {K : Degrees} {given : Option AxisArgument}
  {first : Bool} {origin : Origin}

theorem listsDegrees_ofInts (ds : List Int) :
    (array (Grid.ofInts ds)).ListsDegrees (.each ds) :=
  ⟨view (View.ofGrid (Grid.ofInts ds)), rfl,
    asInts_ofNumbers (s := [ds.length]) (by simp) "left argument", rfl⟩

theorem replicate_eq [Platform] (hx : x.ListsDegrees K) (hv : v.shape = .ok (.ofShape t))
    (hne : t ≠ []) :
    replicate (.view v) x given first origin =
      .ok (v.under (.compress K.listed K.isSingle given first origin Platform.room)) := by
  obtain ⟨arg, hflat, hlisted, hrank⟩ := hx
  have hbase : (view v).based.rank = .ok (t.length : Int) := View.rank_of_shape hv
  have hlen : ¬ (t.length : Int) = 0 := by simpa using hne
  simp only [replicate, hflat, hlisted, hrank, hbase, bind, Except.bind, pure, Except.pure,
    if_neg hlen]
  cases K <;> rfl

end Item

namespace Step

open Replicate

variable {t : Shape} {a : Nat} {n : Int} {ks : List Int} {single : Bool}
  {given : Option AxisArgument} {first : Bool} {origin : Origin} {room : Room}

theorem shapeOver_compress (haxis : axis given first origin (.ofShape t) = .ok (a : Int))
    (ha : t[a]? = some n) : (compress ks single given first origin room).shapeOver (.ofShape t) =
      positions room ks single (.int n) >>= fun ps => .ok (.ofShape (t.set a ps.length)) := by
  simp only [shapeOver, haxis, pickAt_ofShape ha, bind, Except.bind]
  cases positions room ks single (.int n) with
  | error e => rfl
  | ok ps => exact congrArg Except.ok (Extents.replaced_ofShape t a ps.length)

theorem linkOver_compress (haxis : axis given first origin (.ofShape t) = .ok (a : Int))
    (ha : t[a]? = some n) : (compress ks single given first origin room).linkOver (.ofShape t) =
      positions room ks single (.int n) >>= fun ps => .ok (Replicate.link ps a (.ofShape t)) := by
  simp only [linkOver, haxis, pickAt_ofShape ha, bind, Except.bind]
  cases positions room ks single (.int n) <;> rfl

end Step

namespace View

open Replicate

variable {root : Root Item} {r t : Shape} {v : View Item} {f : Int → Item} {a : Nat} {n : Int}
  {ks ds : List Int} {single : Bool} {given : Option AxisArgument} {first : Bool} {origin : Origin}
  {room : Room}

theorem etype_compress : (v.under (.compress ks single given first origin room)).etype = (do
      let source ← v.shape
      let a ← axis given first origin source
      let cells ← positions room ks single (← pickAt source a)
      if cells.contains none then return (← v.etype).join (← v.prototype).etype else v.etype) := by
  simp only [View.shape, View.prototype, View.etype, View.facts, Tower.etype_facts,
    Tower.shape_facts, Tower.prototype_facts]
  rfl

theorem flat_of_vector {n : Int} (hv : v.shape = .ok (.ofShape [n])) (refusal : RankCause) :
    Item.flat (.view v) refusal = .ok (.view v) := by
  have hrank : (Item.view v).lift.rank = .ok 1 := View.rank_of_shape hv
  simp only [Item.flat, hrank, bind, Except.bind]
  rfl

theorem listsDegrees_vector {m : Int} (hv : v.shape = .ok (.ofShape [m]))
    (hds : (Item.view v).asInts "left argument" = .ok ds) :
    (Item.view v).ListsDegrees (.each ds) :=
  ⟨_, flat_of_vector hv .leftScalarOrVector, hds, View.rank_of_shape hv⟩

/-- Nothing comes of the array but a fault. -/
structure IsRefused (w : View Item) (e : Fault) : Prop where
  shape : w.shape = .error e
  generator : ∀ gen, w.generator ≠ .ok gen
  render : (Item.view w).render = .error e

theorem isRefused_of_shape {w : View Item} {e : Fault} (hne : ¬ ∃ g, w = ofGrid g)
    (hshape : w.shape = .error e) (hgen : ∀ gen, w.generator ≠ .ok gen) : w.IsRefused e := by
  refine ⟨hshape, hgen, ?_⟩
  rw [render_eq hne, Tower.collect, shape_settled, hshape]
  rfl

/-- If there are no places along the axis, the replication is refused. -/
theorem isRefused_compress (hv : v.shape = .ok (.ofShape t))
    (haxis : axis given first origin (.ofShape t) = .ok (a : Int)) (ha : t[a]? = some n) {e : Fault}
    (hps : positions room ks single (.int n) = .error e) :
    (v.under (.compress ks single given first origin room)).IsRefused e := by
  have hshape : (v.under (.compress ks single given first origin room)).shape = .error e := by
    have hover : (Step.compress ks single given first origin room).shapeOver (.ofShape t) =
        .error e := by
      rw [Step.shapeOver_compress haxis ha, hps]
      rfl
    have hunder : (v.under (.compress ks single given first origin room)).shape =
        v.shape >>= (Step.compress ks single given first origin room).shapeOver := by
      simp only [View.shape, View.facts, Tower.shape_facts]
      rfl
    rw [hunder, hv]
    exact hover
  have hlink :
      (Step.compress ks single given first origin room).linkOver (.ofShape t) = .error e := by
    rw [Step.linkOver_compress haxis ha, hps]
    rfl
  refine isRefused_of_shape (under_ne_ofGrid v _) hshape fun gen hgen => ?_
  obtain ⟨ls, _, hls, _⟩ := Tower.generator_ok hgen
  obtain ⟨l, _, hl, _⟩ := Level.extend_eq_ok.mp hls
  obtain ⟨s, hs, hl⟩ := bind_eq_ok.mp hl
  have hbelow : v.shape = .ok s := (Tower.shape_facts ..).trans hs
  obtain rfl := Except.ok.inj (hv.symm.trans hbelow)
  cases hlink.symm.trans hl

/-- Along the axis `a` the array `w` shows the cells of `v` in blocks, as their counts say: copies
of the cell, or fills where the count is negative. If `v` renders, so does `w`; where a fill shows,
or where there are no cells, `v` has to have one. -/
structure ShowsBlocks (v w : View Item) (t : Shape) (a : Nat) (ds : List Int) : Prop where
  shape : w.shape = .ok (.ofShape (t.set a (sizes ds).sum))
  covers : ∀ i, Shape.Holds (t.set a (sizes ds).sum) i → ∃ k d c, ds[k]? = some d ∧
    Shape.Within (t.set a d.natAbs) c ∧ place t a ds k c = i
  cells : ∀ gen, v.generator = .ok gen → ∃ cells, w.generator = .ok cells ∧
    ∀ k d c, ds[k]? = some d → Shape.Within (t.set a d.natAbs) c →
      cells.cell (.int (place t a ds k c)) =
        if 0 ≤ d then gen.cell (.int (Shape.dot (c.set a k) t.strides)) else v.prototype
  renders : ∀ g, v.Presents g →
    ((∃ d ∈ ds, d < 0) ∨ Shape.size (t.set a (sizes ds).sum) = 0 → ∃ p, v.prototype = .ok p) →
      ∃ h, (Item.view w).render = .ok (.array h) ∧ h.shape = t.set a (sizes ds).sum ∧
        ∀ k d c, ds[k]? = some d → Shape.Within (t.set a d.natAbs) c →
          if 0 ≤ d then h.AlikeAt (place t a ds k c) g (Shape.dot (c.set a k) t.strides)
          else ∃ p x, v.prototype = .ok p ∧ h.items[(place t a ds k c).toNat]? = some x ∧
            Item.Alike x p.stored

theorem covers_place (ht : t.IsProper) (ha : t[a]? = some n) {i : Int}
    (hi : Shape.Holds (t.set a (sizes ds).sum) i) :
    ∃ k d c, ds[k]? = some d ∧ Shape.Within (t.set a d.natAbs) c ∧ place t a ds k c = i := by
  have hlt := (List.getElem?_eq_some_iff.mp ha).1
  obtain ⟨k, m, c, hm, hc, hplace⟩ := Join.exists_part ht hlt sizes_nonneg hi
  obtain ⟨d, hd, rfl⟩ : ∃ d, ds[k]? = some d ∧ (d.natAbs : Int) = m := by
    simpa [sizes] using hm
  exact ⟨k, d, c, hd, hc, hplace⟩

theorem exists_etype_compress (hv : v.Offers t f)
    (haxis : axis given first origin (.ofShape t) = .ok (a : Int)) (ha : t[a]? = some n)
    {ps : List (Option Int)} (hps : positions room ks single (.int n) = .ok ps)
    (hfill : ps.contains none = true → ∃ p, v.prototype = .ok p) :
    ∃ e, (v.under (.compress ks single given first origin room)).etype = .ok e := by
  obtain ⟨e, he⟩ := hv.etype
  rw [etype_compress, hv.shape]
  simp only [haxis, pickAt_ofShape ha, hps, he, bind, Except.bind]
  split
  · rename_i hfills
    obtain ⟨p, hp⟩ := hfill hfills
    exact ⟨_, by rw [hp]; rfl⟩
  · exact ⟨e, rfl⟩

/-- A replication whose places are blocks repeats the cells of the array. -/
theorem StandsOn.showsBlocks (h : StandsOn root r v t)
    (haxis : axis given first origin (.ofShape t) = .ok (a : Int)) (ha : t[a]? = some n)
    (hle : (ds.length : Int) ≤ n) (hps : positions room ks single (.int n) = .ok (blocks 0 ds)) :
    v.ShowsBlocks (v.under (.compress ks single given first origin room)) t a ds := by
  have ht := (h.stands.keeps Item.fillOf).proper
  have hlt := (List.getElem?_eq_some_iff.mp ha).1
  have hshape : (Step.compress ks single given first origin room).shapeOver (.ofShape t) =
      .ok (.ofShape (t.set a (sizes ds).sum)) := by
    rw [Step.shapeOver_compress haxis ha, hps, ← length_blocks 0]
    rfl
  have hlink : (Step.compress ks single given first origin room).linkOver (.ofShape t) =
      .ok (link (blocks 0 ds) a (.ofShape t)) := by
    rw [Step.linkOver_compress haxis ha, hps]
    rfl
  have hholds {k : Nat} {d : Int} {c : List Int} (hd : ds[k]? = some d)
      (hc : Shape.Within (t.set a d.natAbs) c) :
      Shape.Holds (t.set a (sizes ds).sum) (place t a ds k c) :=
    (Join.within_part hlt sizes_nonneg (getElem?_sizes hd) hc).holds
  have hsound : (Step.compress ks single given first origin room).IsSound t := trivial
  refine ⟨(h.above hsound hshape).shape_eq, fun i hi => covers_place ht ha hi, fun gen hgen => ?_,
    fun g hg hfill => ?_⟩
  · obtain ⟨cells, hcells, heach⟩ := h.generator_under hsound hshape hlink rfl hgen
    refine ⟨cells, hcells, fun k d c hd hc => ?_⟩
    rw [heach _ (hholds hd hc), reach_place ht ha hle hd hc]
    split <;> rfl
  · obtain ⟨root', r', F, hstands, hyields, hcollects⟩ := hg.exists_yields
    obtain rfl : g.shape = t :=
      Extents.ofShape_inj (Except.ok.inj (hyields.shape.symm.trans h.shape_eq))
    -- a fill shows only where a count is negative
    obtain ⟨p, hp⟩ : ∃ p : Item, ∀ i, Shape.Holds (g.shape.set a (sizes ds).sum) i →
        (link (blocks 0 ds) a (.ofShape g.shape)).reach i = none → v.prototype = .ok p := by
      by_cases hneg : ∃ d ∈ ds, d < 0
      · obtain ⟨p, hp⟩ := hfill (.inl hneg)
        exact ⟨p, fun _ _ _ => hp⟩
      · refine ⟨.nothing, fun i hi hnone => ?_⟩
        obtain ⟨k, d, c, hd, hc, rfl⟩ := covers_place ht ha hi
        have h0 : 0 ≤ d := not_lt.mp fun h => hneg ⟨d, List.mem_of_getElem? hd, h⟩
        rw [reach_place ht ha hle hd hc, if_pos h0] at hnone
        cases hnone
    have hetype : ∃ e, (v.under (.compress ks single given first origin room)).etype = .ok e :=
      exists_etype_compress hyields.toOffers haxis ha hps fun hfills =>
        hfill (.inl ((contains_blocks 0 ds).mp hfills))
    have hsettled (i : Int) (hi : Shape.Holds (g.shape.set a (sizes ds).sum) i)
        (hnone : (link (blocks 0 ds) a (.ofShape g.shape)).reach i = none) :
        v.prototype >>= Item.settle = .ok p := by
      rw [hp i hi hnone]
      exact hyields.ready.fill p (hp i hi hnone)
    have hoffers := hstands.offers_filled hsound hshape hlink rfl hyields.toOffers hsettled hetype
    have hready := hyields.ready.under (hstands.above hsound hshape) rfl
    have hprototype :
        (v.under (.compress ks single given first origin room)).prototype = v.prototype :=
      prototype_under rfl
    obtain ⟨h', hr, hh⟩ := Yields.exists_render
      ⟨hoffers, hready, fun h0 => hprototype ▸ hfill (.inr h0)⟩
    refine ⟨h', hr, hh.shape_eq, fun k d c hd hc => ?_⟩
    have hplace := hholds hd hc
    have hreach := reach_place ht ha hle hd hc
    split
    · rename_i h0
      rw [if_pos h0] at hreach
      have hk := (List.getElem?_eq_some_iff.mp hd).1
      have hsource := hc.move ha (x := k) (by omega)
      exact hh.alikeAt hcollects hplace hsource.holds (by rw [hreach]; rfl)
    · rename_i h0
      rw [if_neg h0] at hreach
      obtain ⟨l, hl⟩ := hh.cells _ hplace
      refine ⟨p, _, hp _ hplace hreach, hl, ?_⟩
      rw [Item.alike_countedFor, hreach]
      exact .refl _

/-- A replication of an array with axes by one count or by a list of them repeats its cells. A list
that is longer than the axis is refused as such, and so are counts that leave no room for the
copies of a cell, or for all copies together. -/
theorem Grown.replicate_blocks [Platform]
    (h : Grown (fun v w => Raises v w ∨ HandsOut v w) root r v) (hv : v.shape = .ok (.ofShape t))
    (hne : t ≠ []) {j : Int} {x : Item} {K : Degrees}
    (haxis : axis given first origin (.ofShape t) = .ok j) (hx : x.ListsDegrees K) :
    ∃ (a : Nat) (n : Int) (w : View Item), j = a ∧ t[a]? = some n ∧
      Item.replicate (.view v) x given first origin = .ok w ∧
      (n < (K.counts n).length →
        w.IsRefused (.length .countsBeyondCells [[((K.counts n).length : Int)], [.int n]])) ∧
      ((K.counts n).length ≤ n → K.HasRoom Platform.room n → v.ShowsBlocks w t a (K.counts n)) ∧
      ((K.counts n).length ≤ n → ¬ K.HasRoom Platform.room n →
        w.IsRefused .overflow ∨ w.IsRefused .noRoom) := by
  obtain ⟨t', hs⟩ := h.exists_standsOn
  obtain rfl : t' = t := Extents.ofShape_inj (Except.ok.inj (hs.shape_eq.symm.trans hv))
  obtain ⟨a, n, rfl, ha⟩ := axis_bounds hne haxis
  have hn := (hs.stands.keeps Item.fillOf).proper n (List.mem_of_getElem? ha)
  refine ⟨a, n, _, rfl, ha, Item.replicate_eq hx hv hne, ?_⟩
  rcases positions_cases K hn with ⟨hlong, hps⟩ | ⟨hle, hroom, hps⟩ | ⟨hle, hroom, hps⟩
  · exact ⟨fun _ => isRefused_compress hv haxis ha hps, fun hle => absurd hle (not_le.mpr hlong),
      fun hle => absurd hle (not_le.mpr hlong)⟩
  · exact ⟨fun hlong => absurd hle (not_le.mpr hlong), fun _ _ => hs.showsBlocks haxis ha hle hps,
      fun _ hno => absurd hroom hno⟩
  · exact ⟨fun hlong => absurd hle (not_le.mpr hlong), fun _ h => absurd h hroom,
      fun _ _ => hps.imp (isRefused_compress hv haxis ha) (isRefused_compress hv haxis ha)⟩

/-- The numbers from one to six in two rows. -/
def sixNumbers : View Item := ofGrid (Grid.of [2, 3] ([1, 2, 3, 4, 5, 6].map Item.int) none)

open scoped Usual in
/-- The first column is repeated, the second one left out, and a column of fills stands for the
third one. One count holds for all columns. Four counts are too many. -/
theorem sixNumbers_replicate_blocks :
    (∃ w, Item.replicate (.view sixNumbers) (.array (Grid.ofInts [2, 0, -1])) none false (.int 0) =
        .ok w ∧ sixNumbers.ShowsBlocks w [2, 3] 1 [2, 0, -1] ∧ (Item.view w).render =
        .ok (.array (Grid.of [2, 3] ([1, 1, 0, 4, 4, 0].map Item.int) none))) ∧
      (∃ w, Item.replicate (.view sixNumbers) (.int 2) none false (.int 0) = .ok w ∧
        sixNumbers.ShowsBlocks w [2, 3] 1 [2, 2, 2]) ∧
      ∃ w, Item.replicate (.view sixNumbers) (.array (Grid.ofInts [1, 1, 1, 1])) none false
        (.int 0) = .ok w ∧ w.IsRefused (.length .countsBeyondCells [[4], [3]]) := by
  have root : Grown (fun v w => Raises v w ∨ HandsOut v w)
      (.concrete (Grid.of [2, 3] ([1, 2, 3, 4, 5, 6].map Item.int) none)) [2, 3] sixNumbers :=
    .root rfl (by simp [Shape.IsProper])
  have axis : Replicate.axis none false (.int 0) (.ofShape [2, 3]) = .ok 1 := rfl
  have all : (Item.int 2).ListsDegrees (.all 2) := ⟨_, rfl, rfl, rfl⟩
  refine ⟨?_, ?_, ?_⟩
  · obtain ⟨a, n, w, ha, hn, hw, _, hblocks, _⟩ := root.replicate_blocks (t := [2, 3]) rfl
      (by simp) axis (Item.listsDegrees_ofInts [2, 0, -1])
    obtain rfl : 1 = a := Int.ofNat.inj ha
    cases hn
    cases hw
    exact ⟨_, rfl, hblocks (by decide) ⟨fun h => absurd h (by decide), by decide, by decide⟩, rfl⟩
  · obtain ⟨a, n, w, ha, hn, hw, _, hblocks, _⟩ := root.replicate_blocks (t := [2, 3]) rfl
      (by simp) axis all
    obtain rfl : 1 = a := Int.ofNat.inj ha
    cases hn
    exact ⟨w, hw, hblocks (by decide) ⟨fun _ => ⟨by decide, by decide⟩, by decide, by decide⟩⟩
  · obtain ⟨a, n, w, ha, hn, hw, hlong, _⟩ := root.replicate_blocks (t := [2, 3]) rfl
      (by simp) axis (Item.listsDegrees_ofInts [1, 1, 1, 1])
    obtain rfl : 1 = a := Int.ofNat.inj ha
    cases hn
    exact ⟨w, hw, hlong (by decide)⟩

open scoped Usual in
/-- A count that no list can be repeated by is refused, although there is a cell for it. -/
theorem replicate_beyond_room :
    ∃ w, Item.replicate (.array (Grid.ofInts [7])) (.array (Grid.ofInts [2 ^ 63])) none false
        (.int 0) = .ok w ∧
      w.shape = .error .overflow ∧ w.shape ≠ .ok (.ofShape [2 ^ 63]) := by
  have hshape {w : View Item} (h : w.shape = .error .overflow) :
      w.shape ≠ .ok (.ofShape [2 ^ 63]) := by
    rw [h]
    exact nofun
  exact ⟨_, rfl, rfl, hshape rfl⟩

end View
end LazyApl
