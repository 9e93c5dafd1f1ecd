import LazyApl.Proofs.Catenating
import LazyApl.Proofs.Filling
import LazyApl.Proofs.Mixing
import LazyApl.Proofs.Picking
/-!
# A mix takes each item to one shape

Mixed items get leading axes of one cell up to the greatest rank, and then each of them is taken to
the greatest extent along each axis. So a part of the mix, at a position of the array, is what a
take shows of the item there after a reshape. Beyond the item both show its fill.
-/
namespace LazyApl

open Outcome

namespace Grid

variable {g : Grid Item} {s m : Shape} {F : Int → Item} {k : Int}

/-- The part of an array at a position of its leading axes, with the other axes. -/
def part (g : Grid Item) (m : Shape) (k : Int) : Grid Item :=
  ⟨m, (g.items.drop (k * m.size).toNat).take m.size.toNat, g.fill⟩

/-- What an array with ones in front of its shape shows at coordinates: the cell there, or the fill
if there is none. -/
def filledAt (h : Grid Item) (r : Nat) (d : List Int) : Item :=
  if (h.shape.raised r).Within d then h.cellAt (Shape.dot d (h.shape.raised r).strides)
  else h.prototype

theorem Collects.part (hg : g.Collects (s ++ m) F) (hm : m.IsProper) (hk : s.Holds k) :
    (g.part m k).Collects m fun i => F (k * m.size + i) := by
  have hsize := Shape.size_nonneg hm
  have hlen : (g.items.length : Int) = s.size * m.size := by
    rw [hg.length_eq, Shape.size_append]
    exact Int.toNat_of_nonneg (Int.mul_nonneg hk.size_pos.le hsize)
  have hstart : 0 ≤ k * m.size := Int.mul_nonneg hk.1 hsize
  have hstop : k * m.size + m.size ≤ s.size * m.size := by
    have hnext : k + 1 ≤ s.size := hk.2
    calc k * m.size + m.size = (k + 1) * m.size := by ring
      _ ≤ s.size * m.size := Int.mul_le_mul_of_nonneg_right hnext hsize
  unfold Grid.part
  generalize k * m.size = o at hstart hstop ⊢
  refine ⟨rfl, ?_, fun i hi => ?_⟩
  · rw [List.length_take, List.length_drop]
    omega
  · have hi' : (s ++ m).Holds (o + i) := by
      unfold Shape.Holds at hi ⊢
      rw [Shape.size_append]
      omega
    obtain ⟨kind, hcell⟩ := hg.cells _ hi'
    have hlt : i.toNat < m.size.toNat := (Int.toNat_lt_toNat hi.size_pos).mpr hi.2
    have hplace : o.toNat + i.toNat = (o + i).toNat := (Int.toNat_add hstart hi.1).symm
    refine ⟨kind, ?_⟩
    rw [List.getElem?_take_of_lt hlt, List.getElem?_drop, hplace]
    exact hcell

end Grid

namespace View

variable {g : Grid Item} {v : View Item}

theorem yields_cellAt (h : (ofGrid g).IsReady) : (ofGrid g).Yields g.shape g.cellAt := by
  have hk := h.kept g rfl
  obtain ⟨gen, hgen, hread⟩ := Grid.exists_generator hk.length_eq
  refine ⟨⟨rfl, ⟨_, rfl⟩, gen, hgen, fun i hi => ?_⟩, h, fun _ => ⟨_, rfl⟩⟩
  have hi' := hk.getElem?_eq hi
  obtain ⟨hlt, _⟩ := List.getElem?_eq_some_iff.mp hi'
  have hb := hi.1
  rw [hread i ⟨hb, by omega⟩, (pickAt_ok hb).mpr hi']
  exact (hk.isKept_cellAt hi).settle_eq

end View

namespace Item

variable {x : Item} {t m : Shape} {d : List Int} {f : Int → Item} {p : Item}

/-- A simple value, or an array at hand that is ready. -/
inductive IsAtHand : Item → Prop
  | scalar {s : Scalar} (h : ¬ (scalar s).IsLongText) : IsAtHand (scalar s)
  | array {g : Grid Item} (h : (View.ofGrid g).IsReady) : IsAtHand (array g)

/-- An item shows in a mix what an array at hand shows: its cells, and its fill elsewhere. -/
structure ShownBy (x : Item) (h : Grid Item) : Prop where
  ready : (View.ofGrid h).IsReady
  lift : x.lift = View.ofGrid h
  shape : x.shapeOf = .ok (.ofShape h.shape)
  etype : ∃ e, (do if ← x.isArray then x.etypeOf else return x.etype) = .ok e
  prototype : x.prototypeOf = .ok h.prototype
  cells : ∀ i, h.shape.Holds i → ∃ z, x.elementAt (.int i) = .ok z ∧ z.settle = .ok z ∧
    Alike z.stored (h.cellAt i).stored
  disclosed : h.shape = [] → ∃ z, (do if ← x.isArray then x.elementAt 0 else return x) = .ok z ∧
    z.settle = .ok z ∧ Alike z.stored (h.cellAt 0).stored

theorem shownBy_scalar {s : Scalar} (hs : ¬ (scalar s).IsLongText) :
    (scalar s).ShownBy (Grid.ofScalar (scalar s).counted) := by
  have hstored := (isKept_counted hs).stored_eq
  have hgrid : (Grid.ofScalar (scalar s).counted).IsKept :=
    ⟨rfl, List.forall_mem_singleton.mpr (hstored.symm ▸ isKept_counted hs)⟩
  have hcounted : (scalar s).counted = (scalar s).countedFor .int := rfl
  have hcell : Alike (scalar s).stored (scalar s).counted.stored := by
    rw [hcounted, alike_countedFor_right]
    exact .refl _
  have hfill : (Grid.ofScalar (scalar s).counted).prototype = (scalar s).typify := by
    have hprototype : (Grid.ofScalar (scalar s).counted).prototype =
        (scalar s).counted.stored.typify := rfl
    rw [hprototype, hstored]
    cases s <;> rfl
  refine ⟨View.isReady_ofGrid hgrid Shape.isProper_nil nofun, lift_scalar hs, rfl, ⟨_, rfl⟩,
    congrArg Except.ok hfill.symm, fun i hi => ⟨_, rfl, rfl, ?_⟩, fun _ => ⟨_, rfl, rfl, ?_⟩⟩
  · obtain rfl : i = 0 := by
      unfold Shape.Holds at hi
      simp only [Grid.ofScalar, Grid.of, Shape.size_nil] at hi
      omega
    have hzero : (Grid.ofScalar (scalar s).counted).cellAt 0 = (scalar s).counted.stored := rfl
    rwa [hzero, hstored]
  · have hzero : (Grid.ofScalar (scalar s).counted).cellAt 0 = (scalar s).counted.stored := rfl
    rwa [hzero, hstored]

theorem stored_eq_cellAt {g : Grid Item} (hk : g.IsKept) (hnil : g.shape = [])
    (hgrid : (array g).stored.isGrid = false) : (array g).stored = (g.cellAt 0).stored := by
  obtain ⟨s, xs, fill⟩ := g
  obtain rfl : s = [] := hnil
  obtain ⟨y, rfl⟩ := List.length_eq_one_iff.mp hk.length_eq
  have hunboxed : Grid.unboxed ⟨[], [y], fill⟩ =
    if y.isGrid then array ⟨[], [y], fill⟩ else y := rfl
  have hkept := (hk.items y List.mem_cons_self).stored_eq
  rw [stored_array, hunboxed] at hgrid ⊢
  cases hy : y.isGrid with
  | true =>
      rw [hy] at hgrid
      cases hgrid
  | false => exact hkept.symm

theorem shownBy_array {g : Grid Item} (hg : (View.ofGrid g).IsReady) : (array g).ShownBy g := by
  have hk := hg.kept g rfl
  have hread {i : Int} (hi : g.shape.Holds i) : (array g).elementAt (.int i) = .ok (g.cellAt i) :=
    (pickAt_ok hi.1).mpr (hk.getElem?_eq hi)
  have harray : (array g).isArray = .ok (array g).stored.isGrid :=
    (IsSettled.array hk.items).isArray_eq
  refine ⟨hg, rfl, rfl, ?_, rfl, fun i hi => ⟨_, hread hi, (hk.isKept_cellAt hi).settle_eq,
    .refl _⟩, fun hnil => ?_⟩
  · rw [harray]
    cases (array g).stored.isGrid
    · exact ⟨_, rfl⟩
    · exact ⟨_, rfl⟩
  · have h0 : g.shape.Holds 0 := by
      rw [hnil]
      exact ⟨le_refl 0, Int.one_pos⟩
    rw [harray]
    cases hgrid : (array g).stored.isGrid with
    | true => exact ⟨_, hread h0, (hk.isKept_cellAt h0).settle_eq, .refl _⟩
    | false =>
        have hstored := stored_eq_cellAt hk hnil hgrid
        exact ⟨_, rfl, rfl, hstored ▸ .refl _⟩

theorem IsAtHand.exists_shownBy (hx : x.IsAtHand) : ∃ h, x.ShownBy h := by
  cases hx with
  | scalar hs => exact ⟨_, shownBy_scalar hs⟩
  | array hg => exact ⟨_, shownBy_array hg⟩

theorem ShownBy.isProper {h : Grid Item} (hx : x.ShownBy h) : h.shape.IsProper :=
  hx.ready.isProper rfl

theorem ShownBy.exists_shown {h : Grid Item} (hx : x.ShownBy h) {r : Nat}
    (hr : h.shape.length ≤ r) (hd : d.length = r) :
    ∃ z, Mix.shown (h.shape.raised r) x d = .ok z ∧ z.settle = .ok z ∧
      Alike z.stored (h.filledAt r d).stored := by
  unfold Mix.shown Grid.filledAt
  by_cases hw : (h.shape.raised r).Within d
  · rw [if_pos hw, if_pos hw]
    by_cases hnil : d = []
    · subst hnil
      obtain rfl : 0 = r := hd
      obtain ⟨z, hz⟩ := hx.disclosed (List.length_eq_zero_iff.mp (Nat.le_zero.mp hr))
      exact ⟨z, by rwa [if_pos rfl]⟩
    · rw [if_neg hnil]
      exact hx.cells _ hw.holds_raised
  · rw [if_neg hw, if_neg hw]
    exact ⟨_, hx.prototype, hx.ready.fill _ rfl, .refl _⟩

theorem ShownBy.take_reshape {h : Grid Item} (hx : x.ShownBy h) {r : Nat}
    (hr : h.shape.length ≤ r) (hm : m.IsProper) (hl : m.length = r) (origin : Origin) :
    ∃ b w, reshape (view x.lift) (array (Grid.ofInts (h.shape.raised r))) = .ok b ∧
      take (view b) (array (Grid.ofInts m)) none origin = .ok w ∧
      w.Yields m fun i => h.filledAt r (m.coordinates i) := by
  have hproper := hx.isProper
  have hraised := hproper.raised r
  have hstands := View.standsOn_ofGrid hproper
  have hyields := (View.yields_cellAt hx.ready).reshape hstands hraised (Shape.size_raised r _)
  have hfill : ((View.ofGrid h).under (.reshape .reshape (h.shape.raised r))).prototype =
      .ok h.prototype := View.prototype_under rfl
  obtain ⟨w, hw, htaken⟩ := hyields.take_counts (hstands.reshape hraised) hfill hm
    (hl.trans (Shape.length_raised hr).symm) origin
  exact ⟨_, w, hx.lift ▸ reshape_eq hraised, hw, htaken⟩

end Item

theorem Mix.Unites.isProper {ts : List Shape} {r : Nat} {m : Shape} (h : Mix.Unites ts r m)
    (ht : ∀ t ∈ ts, t.IsProper) : m.IsProper := by
  intro n hn
  obtain ⟨k, hk, rfl⟩ := List.mem_iff_getElem.mp hn
  obtain ⟨u, hu, hattained⟩ := h.hull.attained k hk
  obtain ⟨t, hmem, rfl⟩ := List.mem_map.mp hu
  rw [List.getElem?_eq_getElem hk] at hattained
  exact (ht t hmem).raised r _ (List.mem_of_getElem? hattained)

namespace View

variable {v : View Item} {s : Shape} {xs : List Item} {F : Item → Grid Item}

/-- An array whose items are at hand, one for each cell. Without items it has an element type and a
fill of its own. -/
structure HoldsAtHand (v : View Item) (s : Shape) (xs : List Item) : Prop where
  shape : v.shape = .ok (.ofShape s)
  proper : s.IsProper
  items : Item.unrendered v = .ok xs
  atHand : ∀ x ∈ xs, x.IsAtHand
  empty : xs = [] → (∃ e, v.etype = .ok e) ∧ ∃ p, v.prototype = .ok p ∧ p.settle = .ok p

theorem HoldsAtHand.mixes (h : v.HoldsAtHand s xs) (hF : ∀ x ∈ xs, x.ShownBy (F x)) :
    v.Mixes s xs (xs.map fun x => (F x).shape) := by
  refine ⟨h.shape, h.items, List.forall₂_map_right_iff.mpr (List.forall₂_same.mpr fun x hx => ?_)⟩
  exact (hF x hx).shape

theorem HoldsAtHand.exists_prototype_mix (h : v.HoldsAtHand s xs)
    (hF : ∀ x ∈ xs, x.ShownBy (F x)) :
    ∃ p, (Item.mix (.view v)).prototype = .ok p ∧ p.settle = .ok p := by
  have hmixes := h.mixes hF
  cases xs with
  | nil =>
      obtain ⟨_, p, hp, hsettle⟩ := h.empty rfl
      exact ⟨p, hmixes.prototype_mix_nil.trans hp, hsettle⟩
  | cons x xs =>
      have hx := hF x List.mem_cons_self
      exact ⟨_, hmixes.prototype_mix.trans hx.prototype, hx.ready.fill _ rfl⟩

/-- The cells of a mix of items at hand: behind the position of an item stand those of the item, and
its fill. -/
theorem HoldsAtHand.exists_cells (h : v.HoldsAtHand s xs) (hF : ∀ x ∈ xs, x.ShownBy (F x)) :
    ∃ r m gen, Mix.Unites (xs.map fun x => (F x).shape) r m ∧ m.IsProper ∧
      (Item.mix (.view v)).shape = .ok (.ofShape (s ++ m)) ∧
      (Item.mix (.view v)).generator = .ok gen ∧
      ∀ k i, s.Holds k → m.Holds i → ∃ x z, xs[k.toNat]? = some x ∧
        gen.cell (.int (k * m.size + i)) = .ok z ∧ z.settle = .ok z ∧
        Item.Alike z.stored ((F x).filledAt r (m.coordinates i)).stored := by
  obtain ⟨r, m, hunites, hshape, gen, hgen, hcell⟩ := (h.mixes hF).mix_spec h.proper
  have hm : m.IsProper := hunites.isProper fun t ht => by
    obtain ⟨x, hx, rfl⟩ := List.mem_map.mp ht
    exact (hF x hx).isProper
  refine ⟨r, m, gen, hunites, hm, hshape, hgen, fun k i hk hi => ?_⟩
  have hc := Shape.coordinates_within h.proper hk
  have hd := Shape.coordinates_within hm hi
  obtain ⟨x, t, hx, ht, hshown⟩ := hcell _ _ hc hd
  rw [Shape.dot_coordinates h.proper hk] at hx ht
  rw [Shape.dot_coordinates_append h.proper hm hk hi] at hshown
  have hmem := List.mem_of_getElem? hx
  obtain rfl : (F x).shape = t := by simpa [hx] using ht
  have hshapes : (F x).shape ∈ xs.map fun x => (F x).shape := List.mem_map_of_mem hmem
  have hlen : m.length = r := hunites.length_eq (List.ne_nil_of_mem hshapes)
  obtain ⟨z, hz, hsettle, halike⟩ := (hF x hmem).exists_shown (hunites.rank_le _ hshapes)
    (hd.length_eq.trans hlen)
  exact ⟨x, z, hx, hshown.trans hz, hsettle, halike⟩

/-- What a mix of items at hand yields. -/
theorem HoldsAtHand.exists_mix (h : v.HoldsAtHand s xs) (hF : ∀ x ∈ xs, x.ShownBy (F x)) :
    ∃ r m f, Mix.Unites (xs.map fun x => (F x).shape) r m ∧ m.IsProper ∧
      (Item.mix (.view v)).Yields (s ++ m) f ∧
      ∀ k x, s.Holds k → xs[k.toNat]? = some x → ∀ i, m.Holds i →
        Item.Alike (f (k * m.size + i)).stored ((F x).filledAt r (m.coordinates i)).stored := by
  obtain ⟨r, m, gen, hunites, hm, hshape, hgen, hcell⟩ := h.exists_cells hF
  have hitem : Nonempty Item := ⟨.nothing⟩
  have hcells : ∀ j, (s ++ m).Holds j → ∃ z, gen.cell (.int j) = .ok z ∧ z.settle = .ok z := by
    intro j hj
    obtain ⟨k, i, hk, hi, rfl⟩ := hj.exists_append h.proper hm
    obtain ⟨_, z, _, hz, hsettle, _⟩ := hcell k i hk hi
    exact ⟨z, hz, hsettle⟩
  choose! f hf hsettle using hcells
  obtain ⟨p, hp, hsettled⟩ := h.exists_prototype_mix hF
  refine ⟨r, m, f, hunites, hm, ⟨⟨hshape, ?_, gen, hgen, fun j hj => ?_⟩,
    ⟨fun e he => ?_, fun q hq => ?_, fun g hg => ?_⟩, fun _ => ⟨p, hp⟩⟩, fun k x hk hx i hi => ?_⟩
  · exact (h.mixes hF).exists_etype_mix (fun x hx => (hF x hx).etype) fun hnil => (h.empty hnil).1
  · rw [hf j hj]
    exact hsettle j hj
  · exact ⟨s ++ m, Except.ok.inj (he.symm.trans hshape), h.proper.append hm⟩
  · obtain rfl := Except.ok.inj (hp.symm.trans hq)
    exact hsettled
  · cases hg
  · obtain ⟨x', z, hx', hz, _, halike⟩ := hcell k i hk hi
    obtain rfl := Option.some.inj (hx.symm.trans hx')
    have hj := hk.append h.proper hm hi
    obtain rfl := Except.ok.inj ((hf _ hj).symm.trans hz)
    exact halike

/-- A mix has the axes of the array and then those of the least shape that holds the items, extended
to the greatest rank. Its part at a position is what a take of that shape shows of the item there,
after a reshape to the extended shape. -/
theorem HoldsAtHand.mix_take (h : v.HoldsAtHand s xs) (origin : Origin) :
    ∃ ts r m g, List.Forall₂ (fun x t => x.shapeOf = .ok (.ofShape t)) xs ts ∧
      Mix.Unites ts r m ∧ (Item.mix (.view v)).shape = .ok (.ofShape (s ++ m)) ∧
      (Item.view (Item.mix (.view v))).render = .ok (.array g) ∧ g.shape = s ++ m ∧
      ∀ k, s.Holds k → ∃ x t b w u, xs[k.toNat]? = some x ∧ ts[k.toNat]? = some t ∧
        Item.reshape (.view x.lift) (.array (Grid.ofInts (t.raised r))) = .ok b ∧
        Item.take (.view b) (.array (Grid.ofInts m)) none origin = .ok w ∧
        (Item.view w).render = .ok (.array u) ∧ Item.Alike (.array (g.part m k)) (.array u) := by
  have hgrid : ∀ x, ∃ g, x ∈ xs → x.ShownBy g := by
    intro x
    by_cases hx : x ∈ xs
    · obtain ⟨g, hg⟩ := (h.atHand x hx).exists_shownBy
      exact ⟨g, fun _ => hg⟩
    · exact ⟨Grid.ofInts [], fun hx' => absurd hx' hx⟩
  choose F hF using hgrid
  obtain ⟨r, m, f, hunites, hm, hyields, hparts⟩ := h.exists_mix hF
  obtain ⟨g, hg, hcollects⟩ := hyields.exists_render
  refine ⟨_, r, m, g, List.forall₂_map_right_iff.mpr
    (List.forall₂_same.mpr fun x hx => (hF x hx).shape), hunites, hyields.shape, hg,
    hcollects.shape_eq, fun k hk => ?_⟩
  obtain ⟨x, hx⟩ := (h.mixes hF).exists_item hk
  have hmem := List.mem_of_getElem? hx
  have hshapes : (F x).shape ∈ xs.map fun x => (F x).shape := List.mem_map_of_mem hmem
  obtain ⟨b, w, hb, hw, htaken⟩ := (hF x hmem).take_reshape (hunites.rank_le _ hshapes) hm
    (hunites.length_eq (List.ne_nil_of_mem hshapes)) origin
  obtain ⟨u, hu, hshown⟩ := htaken.exists_render
  refine ⟨x, (F x).shape, b, w, u, hx, by simp [hx], hb, hw, hu, ?_⟩
  exact ((hcollects.part hm hk).alike_iff hshown).mpr (hparts k x hk hx)

/-- The items of an array at hand are its own. -/
theorem holdsAtHand_ofGrid {g : Grid Item} (hg : (ofGrid g).IsReady)
    (hitems : ∀ x ∈ g.items, x.IsAtHand) : (ofGrid g).HoldsAtHand g.shape g.items := by
  have hk := hg.kept g rfl
  have hproper : g.shape.IsProper := hg.isProper rfl
  refine ⟨rfl, hproper, ?_, hitems, fun _ => ⟨⟨_, rfl⟩, _, rfl, hg.fill _ rfl⟩⟩
  have hlen : (g.items.length : Int) = g.shape.size := by
    rw [hk.length_eq, Int.toNat_of_nonneg (Shape.size_nonneg hproper)]
  obtain ⟨gen, hgen, hread⟩ := Grid.exists_generator hk.length_eq
  have hgen : (ofGrid g).generator = .ok gen := hgen
  have hcells : (upTo g.shape.size).mapM (fun i : Int => gen.cell i) =
      .ok ((upTo g.shape.size).map g.cellAt) := by
    refine mapM_ok fun i hi => ?_
    have hi : g.shape.Holds i := mem_upTo.mp hi
    have hb := hi.1
    have hlt := hi.2
    exact (hread i ⟨hb, by omega⟩).trans ((pickAt_ok hb).mpr (hk.getElem?_eq hi))
  have hown : (upTo g.shape.size).map g.cellAt = g.items := by
    rw [← hlen]
    exact (map_upTo_getD g.items (.int 0) id).trans (List.map_id _)
  have hshape : (ofGrid g).shape = .ok (.ofShape g.shape) := rfl
  simp only [Item.unrendered, hgen, count, hshape, Extents.count_ofShape, bind, Except.bind]
  rw [hcells, hown]

/-- A number, a text and two rows of numbers. -/
def threeShapes : Grid Item :=
  Grid.of [3] [.int 7, .array (Grid.ofText "abc"), .array (Grid.of [2, 2] ([1, 2, 3, 4].map .int)
    none)] none

/-- Mixed, they are two rows of three each. The text is filled up with blanks. -/
theorem threeShapes_mix_take :
    ∃ g b w u, (Item.view (Item.mix (.view (ofGrid threeShapes)))).render = .ok (.array g) ∧
      g.shape = [3, 2, 3] ∧
      Item.reshape (.view (ofGrid (Grid.ofText "abc"))) (.array (Grid.ofInts [1, 3])) = .ok b ∧
      Item.take (.view b) (.array (Grid.ofInts [2, 3])) none (.int 0) = .ok w ∧
      (Item.view w).render = .ok (.array u) ∧
      Item.Alike (.array (g.part [2, 3] 1)) (.array u) ∧
      u.items = [.text "a", .text "b", .text "c", .blank, .blank, .blank] := by
  have vector : (ofGrid (Grid.ofText "abc")).IsReady := Item.isReady_ofText "abc"
  have matrix : (ofGrid (Grid.of [2, 2] ([1, 2, 3, 4].map .int) none)).IsReady :=
    isReady_ofNumbers (by simp [Shape.IsProper]) rfl
  have items : threeShapes.items = [.int 7, .array (Grid.ofText "abc"),
      .array (Grid.of [2, 2] ([1, 2, 3, 4].map .int) none)] := rfl
  have kept : threeShapes.IsKept := by
    refine ⟨rfl, ?_⟩
    rw [items]
    simp only [List.forall_mem_cons]
    exact ⟨rfl, rfl, rfl, List.forall_mem_nil _⟩
  have atHand : ∀ x ∈ threeShapes.items, x.IsAtHand := by
    rw [items]
    simp only [List.forall_mem_cons]
    exact ⟨.scalar (by simp [Item.IsLongText]), .array vector, .array matrix,
      List.forall_mem_nil _⟩
  have holds := holdsAtHand_ofGrid (isReady_ofGrid kept (by simp [threeShapes, Grid.of,
    Shape.IsProper]) (by simp [threeShapes, Grid.of])) atHand
  obtain ⟨ts, r, m, g, hshapes, hunites, hshape, hg, hgshape, hparts⟩ := holds.mix_take (.int 0)
  have shape : (Item.mix (.view (ofGrid threeShapes))).shape = .ok (.ofShape [3, 2, 3]) := rfl
  obtain rfl : m = [2, 3] := by
    have hm := Extents.ofShape_inj (Except.ok.inj (hshape.symm.trans shape))
    exact List.append_cancel_left hm
  obtain ⟨x, t, b, w, u, hx, ht, hb, hw, hu, halike⟩ := hparts 1 (by decide)
  obtain rfl : .array (Grid.ofText "abc") = x := Option.some.inj hx
  obtain ⟨t', ht', htx⟩ := getElem?_forall₂ hshapes hx
  obtain rfl : t = t' := Option.some.inj (ht.symm.trans ht')
  obtain rfl : [3] = t := Extents.ofShape_inj (Except.ok.inj htx)
  obtain rfl : 2 = r := hunites.length_eq (List.ne_nil_of_mem (List.mem_of_getElem? ht))
  have taken : ∀ g, (Item.view w).render = .ok (.array g) → g.items =
      [.text "a", .text "b", .text "c", .blank, .blank, .blank] := by
    cases hb
    cases hw
    intro g hg
    cases hg
    rfl
  exact ⟨g, b, w, u, hg, hgshape, hb, hw, hu, halike, taken u hu⟩

end View
end LazyApl
