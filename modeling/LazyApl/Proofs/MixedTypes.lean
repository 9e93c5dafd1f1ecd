import LazyApl.Proofs.Soundness
import LazyApl.Proofs.Uniting
/-!
# What the element type of a mix covers

The element type of a mix is joined from the types of the items alone. It covers the cells of the
items, but the items are filled up to one shape, and nothing is joined for their fills. So it covers
all cells of the mix exactly if it covers these fills. A fill that is made from a cell is covered
like the cell, unless the type is one of whole numbers other than zero.
-/
namespace LazyApl

open Outcome

namespace Mix

variable {t m : Shape} {r : Nat} {x y : Item} {d : List Int}

/-- An item is filled up: some cells of the greater shape lie outside of the extended shape. -/
def FillsUp (t : Shape) (r : Nat) (m : Shape) : Prop :=
  ∃ d, m.Within d ∧ ¬ (t.raised r).Within d

/-- An item that shows a cell of its own shows one of those that it has as an array, or itself, if
it is no array. -/
theorem shown_eq_ok (h : shown t x d = .ok y) (hd : t.Within d) :
    x.elementAt (.int (Shape.dot d t.strides)) = .ok y ∨ x.isArray = .ok false ∧ y = x := by
  unfold shown at h
  rw [if_pos hd] at h
  by_cases hnil : d = []
  · subst hnil
    obtain ⟨b, hb, h⟩ := bind_eq_ok.mp h
    cases b with
    | true => exact .inl h
    | false => exact .inr ⟨hb, (Except.ok.inj h).symm⟩
  · rw [if_neg hnil] at h
    exact .inl h

end Mix

namespace Item

variable {x y z : Item} {t : Shape} {r : Nat} {e u : EType} {d : List Int} {i : Int}

/-- An item that is covered by its own element type, which states whole bounds if any. -/
structure CoversItself (x : Item) (t : Shape) : Prop where
  shape : x.shapeOf = .ok (.ofShape t)
  proper : t.IsProper
  bounds : ∀ e, x.etypeOf = .ok e → e.HasWholeBounds
  covers : ∀ e i y z, x.etypeOf = .ok e → t.Holds i → x.elementAt (.int i) = .ok y →
    y.settle = .ok z → e.covers z.stored = true

/-- What is no array counts for a mix as a cell. That it is of any type is all that is known of an
array or a view then. -/
theorem mixedType_cases (h : (do if ← x.isArray then x.etypeOf else return x.etype) = .ok e) :
    e.kind = .mixed ∨
      x.etypeOf = .ok e ∧ (x.isArray = .ok false → ∀ i, x.elementAt i = .ok x) := by
  obtain ⟨b, hb, h⟩ := bind_eq_ok.mp h
  cases b with
  | true => exact .inr ⟨h, fun hfalse => by cases hb.symm.trans hfalse⟩
  | false =>
      obtain rfl := Except.ok.inj h
      cases x with
      | scalar s => exact .inr ⟨rfl, fun _ _ => rfl⟩
      | list xs => exact .inl rfl
      | array g => exact .inl rfl
      | view v => exact .inl rfl

theorem CoversItself.hasWholeBounds (hx : x.CoversItself t)
    (he : (do if ← x.isArray then x.etypeOf else return x.etype) = .ok e) : e.HasWholeBounds := by
  obtain ⟨b, _, he⟩ := bind_eq_ok.mp he
  cases b with
  | true => exact hx.bounds e he
  | false => exact Except.ok.inj he ▸ x.hasWholeBounds_etype

theorem CoversItself.covers_cell (hx : x.CoversItself t)
    (he : (do if ← x.isArray then x.etypeOf else return x.etype) = .ok e) (hi : t.Holds i)
    (hy : x.elementAt (.int i) = .ok y) (hz : y.settle = .ok z) : e.covers z.stored = true := by
  rcases mixedType_cases he with hmixed | ⟨he, _⟩
  · exact EType.covers_mixed hmixed _
  · exact hx.covers e i y z he hi hy hz

theorem CoversItself.covers_shown (hx : x.CoversItself t)
    (he : (do if ← x.isArray then x.etypeOf else return x.etype) = .ok e)
    (hd : (t.raised r).Within d) (hy : Mix.shown (t.raised r) x d = .ok y)
    (hz : y.settle = .ok z) : e.covers z.stored = true := by
  have hi : t.Holds (Shape.dot d (t.raised r).strides) := hd.holds_raised
  rcases Mix.shown_eq_ok hy hd with hcell | ⟨hsimple, rfl⟩
  · exact hx.covers_cell he hi hcell hz
  · rcases mixedType_cases he with hmixed | ⟨_, hself⟩
    · exact EType.covers_mixed hmixed _
    · exact hx.covers_cell he hi (hself hsimple _) hz

theorem coversItself_array {g : Grid Item} (hg : (View.ofGrid g).IsReady) :
    (array g).CoversItself g.shape := by
  have hk := hg.kept g rfl
  refine ⟨rfl, hg.isProper rfl, fun e he => ?_, fun e i y z he hi hy hz => ?_⟩
  · exact Except.ok.inj he ▸ g.hasWholeBounds_etype
  · have hmem : y ∈ g.items := List.mem_of_getElem? ((pickAt_ok hi.1).mp hy)
    have hkept := hk.items y hmem
    obtain rfl : y = z := Except.ok.inj (hkept.settle_eq.symm.trans hz)
    rw [hkept.stored_eq]
    exact Except.ok.inj he ▸ Grid.covers_of_mem hk.items hmem

theorem exists_made_array {g : Grid Item} (hg : (View.ofGrid g).IsReady) (h0 : 0 < g.shape.size) :
    ∃ i y z, g.shape.Holds i ∧ (array g).elementAt (.int i) = .ok y ∧ y.settle = .ok z ∧
      (array g).prototypeOf = .ok z.typify := by
  have hk := hg.kept g rfl
  have hi : g.shape.Holds 0 := ⟨le_refl 0, h0⟩
  have hfirst := hk.getElem?_eq hi
  obtain ⟨y, ys, hys⟩ := List.exists_cons_of_ne_nil (l := g.items) fun hnil => by
    rw [hnil] at hfirst
    cases hfirst
  have hy : y.IsKept := hk.items y (hys ▸ List.mem_cons_self)
  refine ⟨0, y, y, hi, (pickAt_ok hi.1).mpr (by simp [hys]), hy.settle_eq, ?_⟩
  have hprototype : (array g).prototypeOf = .ok g.prototype := rfl
  rw [hprototype, Grid.prototype, hys]

end Item

namespace View

variable {v w : View Item} {s t u : Shape} {xs : List Item} {ts : List Shape} {g : Grid Item}
  {e : EType}

/-- The element type of a mix covers what the types of the items cover. -/
theorem Mixes.exists_covered (h : v.Mixes s xs ts) (hx : List.Forall₂ Item.CoversItself xs ts)
    (he : (Item.mix (.view v)).etype = .ok e) : ∀ x ∈ xs, ∃ u,
      (do if ← x.isArray then x.etypeOf else return x.etype) = .ok u ∧
        ∀ z, u.covers z = true → e.covers z = true := by
  cases hes : xs.mapM (fun x => do if ← x.isArray then x.etypeOf else return x.etype) with
  | error f =>
      have hbased : (Item.view v).based = v := rfl
      simp only [Item.mix, etype_computed, Lazy.get_delay, Lazy.get_keep, hbased, h.items, bind,
        Except.bind] at he hes
      rw [hes] at he
      cases he
  | ok us =>
      have hus := mapM_eq_ok.mp hes
      have hbounds : ∀ u ∈ us, u.HasWholeBounds := by
        intro u hu
        obtain ⟨k, hk⟩ := List.mem_iff_getElem?.mp hu
        obtain ⟨x, hxk, hxu⟩ := getElem?_forall₂ (List.Forall₂.flip hus) hk
        obtain ⟨t, _, hxt⟩ := getElem?_forall₂ hx hxk
        exact hxt.hasWholeBounds hxu
      rw [h.etype_mix hes] at he
      intro x hxs
      obtain ⟨k, hk⟩ := List.mem_iff_getElem?.mp hxs
      obtain ⟨u, huk, hxu⟩ := getElem?_forall₂ hus hk
      have hmem := List.mem_of_getElem? huk
      refine ⟨u, hxu, fun z hz => ?_⟩
      have hcovers := (EType.joinAll_spec hbounds).2 u hmem z hz
      cases hjoin : EType.joinAll us with
      | none =>
          rw [EType.eq_nil_of_joinAll hjoin] at hmem
          cases hmem
      | some e' =>
          rw [hjoin] at he hcovers
          obtain rfl := Except.ok.inj he
          exact hcovers

/-- A rendered mix: at coordinates it has what the item shows that the leading ones name, rendered
on its own and counted for the element type. -/
structure MixesInto (v : View Item) (s : Shape) (xs : List Item) (ts : List Shape) (g : Grid Item)
    (e : EType) (r : Nat) (m : Shape) : Prop where
  etype : (Item.mix (.view v)).etype = .ok e
  unites : Mix.Unites ts r m
  proper : s.IsProper ∧ m.IsProper
  length_zip : ((xs.zip ts).length : Int) = s.size
  length_eq : g.items.length = (s ++ m).size.toNat
  cells : ∀ c d, s.Within c → m.Within d → ∃ x t y z,
    (xs.zip ts)[(Shape.dot c s.strides).toNat]? = some (x, t) ∧
    Mix.shown (t.raised r) x d = .ok y ∧ y.settle = .ok z ∧
    g.items[(Shape.dot (c ++ d) (s ++ m).strides).toNat]? = some (z.countedFor e.kind).stored

theorem Mixes.exists_into (h : v.Mixes s xs ts) (hs : s.IsProper) (hts : ∀ t ∈ ts, t.IsProper)
    (hr : (Item.view (Item.mix (.view v))).render = .ok (.array g)) :
    ∃ e r m, MixesInto v s xs ts g e r m := by
  obtain ⟨r, m, hunites, hshape, gen, hgen, hcell⟩ := h.mix_spec hs
  have hcomputed : (Item.mix (.view v)).IsComputed := ⟨_, rfl⟩
  obtain ⟨gen', e, hgen', he, hlen, hitems⟩ := hcomputed.exists_items hshape hr
  obtain rfl := Except.ok.inj (hgen.symm.trans hgen')
  refine ⟨e, r, m, he, hunites, ⟨hs, hunites.isProper hts⟩, ?_, hlen, fun c d hc hd => ?_⟩
  · rw [List.length_zip, ← h.shapes.length_eq, min_self, h.length_eq_size hs]
  · obtain ⟨x, t, hxk, htk, hshown⟩ := hcell c d hc hd
    have hcd : (s ++ m).Within (c ++ d) := List.rel_append hc hd
    obtain ⟨y, z, hy, hz, hitem⟩ := hitems _ hcd.holds
    exact ⟨x, t, y, z, List.getElem?_zip_eq_some.mpr ⟨hxk, htk⟩, hshown.symm.trans hy, hz, hitem⟩

variable {r : Nat} {m : Shape}

/-- Each cell of a mix is covered like the cell of an item that it is, or the fill of one that is
filled up. -/
theorem MixesInto.covers_or (hg : MixesInto v s xs ts g e r m) (h : v.Mixes s xs ts)
    (hx : List.Forall₂ Item.CoversItself xs ts) {y : Item} (hy : y ∈ g.items) :
    e.covers y = true ∨ ∃ x t p, (x, t) ∈ xs.zip ts ∧ Mix.FillsUp t r m ∧
      x.prototypeOf >>= Item.settle = .ok p ∧ y = (p.countedFor e.kind).stored := by
  obtain ⟨n, hn⟩ := List.mem_iff_getElem?.mp hy
  have hj : (s ++ m).Holds n := by
    obtain ⟨hlt, _⟩ := List.getElem?_eq_some_iff.mp hn
    rw [hg.length_eq] at hlt
    unfold Shape.Holds
    omega
  obtain ⟨c, d, hc, hd, hcd⟩ := Shape.exists_within_append hg.proper.1 hg.proper.2 hj
  obtain ⟨x, t, w, z, hxt, hw, hz, hitem⟩ := hg.cells c d hc hd
  rw [← hcd, Int.toNat_natCast, hn] at hitem
  obtain rfl := Option.some.inj hitem
  have hmem := List.mem_of_getElem? hxt
  by_cases hwithin : (t.raised r).Within d
  · obtain ⟨u, hu, hle⟩ := h.exists_covered hx hg.etype x (List.of_mem_zip hmem).1
    have hxt := List.forall₂_zip hx hmem
    exact .inl (EType.covers_countedFor (hle _ (hxt.covers_shown hu hwithin hw hz)))
  · rw [Mix.shown, if_neg hwithin] at hw
    exact .inr ⟨x, t, z, hmem, ⟨d, hd, hwithin⟩, bind_eq_ok.mpr ⟨w, hw, hz⟩, rfl⟩

theorem MixesInto.mem_of_fillsUp (hg : MixesInto v s xs ts g e r m) {x p : Item}
    (hxt : (x, t) ∈ xs.zip ts) (hfills : Mix.FillsUp t r m)
    (hp : x.prototypeOf >>= Item.settle = .ok p) : (p.countedFor e.kind).stored ∈ g.items := by
  obtain ⟨d, hd, hwithin⟩ := hfills
  obtain ⟨n, hn⟩ := List.mem_iff_getElem?.mp hxt
  have hk : s.Holds n := by
    obtain ⟨hlt, _⟩ := List.getElem?_eq_some_iff.mp hn
    have hlen := hg.length_zip
    unfold Shape.Holds
    omega
  obtain ⟨x', t', y, z, hxt', hy, hz, hitem⟩ :=
    hg.cells _ d (Shape.coordinates_within hg.proper.1 hk) hd
  rw [Shape.dot_coordinates hg.proper.1 hk, Int.toNat_natCast, hn] at hxt'
  cases hxt'
  rw [Mix.shown, if_neg hwithin] at hy
  obtain rfl : z = p := Except.ok.inj ((bind_eq_ok.mpr ⟨y, hy, hz⟩).symm.trans hp)
  exact List.mem_of_getElem? hitem

theorem MixesInto.covers_made (hg : MixesInto v s xs ts g e r m) (h : v.Mixes s xs ts)
    (hx : List.Forall₂ Item.CoversItself xs ts) (hfill : e.CoversFill) {x y z p : Item} {i : Int}
    (hxt : (x, t) ∈ xs.zip ts) (hi : t.Holds i) (hy : x.elementAt (.int i) = .ok y)
    (hz : y.settle = .ok z) (hmade : x.prototypeOf = .ok z.typify)
    (hp : x.prototypeOf >>= Item.settle = .ok p) :
    e.covers (p.countedFor e.kind).stored = true := by
  obtain rfl : z.typify = p := by
    rw [hmade] at hp
    exact Except.ok.inj ((Item.isFill_typify z).settle_eq.symm.trans hp)
  obtain ⟨u, hu, hle⟩ := h.exists_covered hx hg.etype x (List.of_mem_zip hxt).1
  have hcell := (List.forall₂_zip hx hxt).covers_cell hu hi hy hz
  exact EType.covers_countedFor (hfill.covers_typify (hle _ hcell))

/-- The element type of a mix covers the cells of the items. The other cells of the mix are fills of
items that are filled up, and the type covers the mix exactly if it covers these. It does so if it
covers any fill, and if the fills are made from cells. -/
theorem Mixes.covers_mix (h : v.Mixes s xs ts) (hs : s.IsProper)
    (hx : List.Forall₂ Item.CoversItself xs ts)
    (hr : (Item.view (Item.mix (.view v))).render = .ok (.array g)) :
    ∃ e r m, (Item.mix (.view v)).etype = .ok e ∧ Mix.Unites ts r m ∧
      (∀ y ∈ g.items, e.covers y = true ∨ ∃ x t p, (x, t) ∈ xs.zip ts ∧ Mix.FillsUp t r m ∧
        x.prototypeOf >>= Item.settle = .ok p ∧ y = (p.countedFor e.kind).stored) ∧
      ((∀ y ∈ g.items, e.covers y = true) ↔ ∀ x t p, (x, t) ∈ xs.zip ts → Mix.FillsUp t r m →
        x.prototypeOf >>= Item.settle = .ok p → e.covers (p.countedFor e.kind).stored = true) ∧
      (e.CoversFill → (∀ x t, (x, t) ∈ xs.zip ts → Mix.FillsUp t r m → ∃ i y z, t.Holds i ∧
          x.elementAt (.int i) = .ok y ∧ y.settle = .ok z ∧ x.prototypeOf = .ok z.typify) →
        ∀ y ∈ g.items, e.covers y = true) := by
  have hts : ∀ t ∈ ts, t.IsProper := by
    intro t ht
    obtain ⟨k, hk⟩ := List.mem_iff_getElem?.mp ht
    obtain ⟨x, _, hxt⟩ := getElem?_forall₂ hx.flip hk
    exact hxt.proper
  obtain ⟨e, r, m, hg⟩ := h.exists_into hs hts hr
  have hiff : (∀ y ∈ g.items, e.covers y = true) ↔ ∀ x t p, (x, t) ∈ xs.zip ts →
      Mix.FillsUp t r m → x.prototypeOf >>= Item.settle = .ok p →
        e.covers (p.countedFor e.kind).stored = true := by
    refine ⟨fun hall x t p hxt hfills hp => hall _ (hg.mem_of_fillsUp hxt hfills hp),
      fun hall y hy => ?_⟩
    rcases hg.covers_or h hx hy with hcovers | ⟨x, t, p, hxt, hfills, hp, rfl⟩
    · exact hcovers
    · exact hall x t p hxt hfills hp
  refine ⟨e, r, m, hg.etype, hg.unites, fun y hy => hg.covers_or h hx hy, hiff,
    fun hfill hmade => hiff.mpr fun x t p hxt hfills hp => ?_⟩
  obtain ⟨i, y, z, hi, hy, hz, hmade⟩ := hmade x t hxt hfills
  exact hg.covers_made h hx hfill hxt hi hy hz hmade hp

/-- Rows of different lengths, the first of which starts with some number. -/
def unequalRows (n : Int) : Grid Item :=
  Grid.of [2] [.array (Grid.ofInts [n, 2]), .array (Grid.ofInts [3, 4, 5])] none

/-- The rows are filled up with zeros. These are covered if there is a zero in a row, but not if the
numbers start at one. -/
theorem unequalRows_covers_mix :
    (∃ e g, (Item.mix (.view (ofGrid (unequalRows 1)))).etype = .ok e ∧
      (Item.view (Item.mix (.view (ofGrid (unequalRows 1))))).render = .ok (.array g) ∧
      (e.low, e.high) = (some (.int 1), some (.int 5)) ∧
      g.items = [1, 2, 0, 3, 4, 5].map Item.int ∧ ¬ ∀ y ∈ g.items, e.covers y = true) ∧
    ∃ e g, (Item.mix (.view (ofGrid (unequalRows 0)))).etype = .ok e ∧
      (Item.view (Item.mix (.view (ofGrid (unequalRows 0))))).render = .ok (.array g) ∧
      ∀ y ∈ g.items, e.covers y = true := by
  have ready (ns : List Int) : (ofGrid (Grid.ofInts ns)).IsReady :=
    isReady_ofNumbers (by simp [Shape.IsProper]) (by simp)
  have mixes (n : Int) : (ofGrid (unequalRows n)).Mixes [2]
      [.array (Grid.ofInts [n, 2]), .array (Grid.ofInts [3, 4, 5])] [[2], [3]] :=
    ⟨rfl, rfl, .cons rfl (.cons rfl .nil)⟩
  have covers (n : Int) : List.Forall₂ Item.CoversItself
      [.array (Grid.ofInts [n, 2]), .array (Grid.ofInts [3, 4, 5])] [[2], [3]] :=
    .cons (Item.coversItself_array (ready _)) (.cons (Item.coversItself_array (ready _)) .nil)
  have proper : Shape.IsProper [2] := by simp [Shape.IsProper]
  constructor
  · obtain ⟨e, r, m, he, hunites, _, hiff, _⟩ := (mixes 1).covers_mix proper (covers 1) rfl
    refine ⟨e, _, he, rfl, ?_, rfl, fun hall => ?_⟩
    · cases he
      rfl
    · have hfills : Mix.FillsUp [2] r m := by
        have hle := hunites.rank_le [2] (by simp)
        obtain rfl : r = 1 := by
          rcases hunites.rank_attained with h0 | ⟨t, ht, rfl⟩
          · simp [h0] at hle
          · obtain rfl | rfl : t = [2] ∨ t = [3] := by simpa using ht
            · rfl
            · rfl
        have hlong := hunites.hull.le [3] (by simp [Shape.raised])
        obtain ⟨k, ks, hk, hks, rfl⟩ := List.forall₂_cons_left_iff.mp hlong
        cases hks
        refine ⟨[2], .cons ⟨by decide, by omega⟩ .nil, by decide⟩
      have hzero := hiff.mp hall (.array (Grid.ofInts [1, 2])) [2] (.int 0) (by simp) hfills rfl
      cases he
      cases hzero
  · obtain ⟨e, r, m, he, hunites, _, _, hmade⟩ := (mixes 0).covers_mix proper (covers 0) rfl
    refine ⟨e, _, he, rfl, hmade ⟨.int 0, Item.isFill_zero, ?_⟩ fun x t hxt _ => ?_⟩
    · cases he
      rfl
    · simp only [List.zip_cons_cons, List.zip_nil_right, List.mem_cons, List.not_mem_nil,
        Prod.mk.injEq, or_false] at hxt
      obtain ⟨rfl, rfl⟩ | ⟨rfl, rfl⟩ := hxt
      · exact Item.exists_made_array (ready [0, 2]) (by decide)
      · exact Item.exists_made_array (ready [3, 4, 5]) (by decide)

end View
end LazyApl
