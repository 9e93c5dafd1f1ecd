import LazyApl.Proofs.Keeping
/-!
# The items that an array yields

An array yields items if it has whole extents, an element type and a fill where one is asked for,
and if each of its cells renders to the item at its position. What it renders to collects these
items, up to the way in which an array at hand stores them. Arrays are compared by what they yield,
so it does not matter how they have been made.
-/
namespace LazyApl

open Outcome

namespace Grid

/-- The array at hand holds the items, each in the form in which it is stored. -/
structure Collects (g : Grid Item) (t : Shape) (f : Int → Item) : Prop where
  shape_eq : g.shape = t
  length_eq : g.items.length = t.size.toNat
  cells : ∀ i, t.Holds i → ∃ k, g.items[i.toNat]? = some ((f i).countedFor k).stored

/-- The cells of two arrays at hand at a position of each are alike. -/
def AlikeAt (g : Grid Item) (i : Int) (h : Grid Item) (j : Int) : Prop :=
  ∃ x y, g.items[i.toNat]? = some x ∧ h.items[j.toNat]? = some y ∧ Item.Alike x y

variable {g h : Grid Item} {s t : Shape} {f f' : Int → Item}

theorem unboxed_of_shape (ht : g.shape ≠ []) : g.unboxed = .array g := by
  obtain ⟨s, xs, fill⟩ := g
  cases s with
  | nil => exact absurd rfl ht
  | cons n s => rfl

theorem stored_of_shape (ht : g.shape ≠ []) : (Item.array g).stored = .array g := by
  rw [Item.stored_array, unboxed_of_shape ht]

theorem Collects.alikeAt (hg : g.Collects s f) (hh : h.Collects t f') {i j : Int} (hi : s.Holds i)
    (hj : t.Holds j) (heq : f i = f' j) : g.AlikeAt i h j := by
  obtain ⟨k, hk⟩ := hg.cells i hi
  obtain ⟨l, hl⟩ := hh.cells j hj
  refine ⟨_, _, hk, hl, ?_⟩
  rw [Item.alike_countedFor, Item.alike_countedFor_right, heq]
  exact .refl _

/-- Arrays of one shape are alike exactly if the items that they hold are stored alike. -/
theorem Collects.alike_iff (hg : g.Collects t f) (hh : h.Collects t f') :
    Item.Alike (.array g) (.array h) ↔
      ∀ i, t.Holds i → Item.Alike (f i).stored (f' i).stored := by
  obtain ⟨s, xs, fill⟩ := g
  obtain ⟨s', ys, fill'⟩ := h
  obtain rfl : s = t := hg.shape_eq
  obtain rfl : s' = s := hh.shape_eq
  have hlx : xs.length = s'.size.toNat := hg.length_eq
  have hly : ys.length = s'.size.toNat := hh.length_eq
  have hcell (n : Nat) (hn : n < xs.length) (hn' : n < ys.length) :
      Item.Alike xs[n] ys[n] ↔ Item.Alike (f n).stored (f' n).stored := by
    have hi : s'.Holds n := by
      unfold Shape.Holds
      omega
    obtain ⟨k, hk⟩ := hg.cells n hi
    obtain ⟨l, hl⟩ := hh.cells n hi
    simp only [Int.toNat_natCast] at hk hl
    obtain ⟨_, hk⟩ := List.getElem?_eq_some_iff.mp hk
    obtain ⟨_, hl⟩ := List.getElem?_eq_some_iff.mp hl
    rw [hk, hl, Item.alike_countedFor, Item.alike_countedFor_right]
  rw [Item.alike_array hlx hly, List.forall₂_iff_get]
  constructor
  · rintro ⟨-, -, hall⟩ i hi
    have hnat : ((i.toNat : Nat) : Int) = i := Int.toNat_of_nonneg hi.1
    have hn : i.toNat < s'.size.toNat := by
      unfold Shape.Holds at hi
      omega
    have ha := (hcell i.toNat (by omega) (by omega)).mp (hall i.toNat (by omega) (by omega))
    rwa [hnat] at ha
  · intro hall
    refine ⟨rfl, by omega, fun n hn hn' => (hcell n hn hn').mpr (hall n ?_)⟩
    unfold Shape.Holds
    omega

theorem items_ofNumbers (s : Shape) (ns : List Int) :
    (of s (ns.map Item.int) none).items = ns.map Item.int := by
  simp [of, Item.stored]

theorem isKept_ofNumbers {ns : List Int} (hl : ns.length = s.size.toNat) :
    (of s (ns.map Item.int) none).IsKept := by
  refine ⟨by simpa [of] using hl, fun x hx => ?_⟩
  rw [items_ofNumbers] at hx
  obtain ⟨n, _, rfl⟩ := List.mem_map.mp hx
  rfl

theorem Collects.alike (hg : g.Collects t f) (hh : h.Collects t f')
    (heq : ∀ i, t.Holds i → f i = f' i) : Item.Alike (.array g) (.array h) :=
  (hg.alike_iff hh).mpr fun i hi => heq i hi ▸ .refl _

theorem isSettled_prototype (hfill : ∀ p ∈ g.fill, p.IsSettled) : g.prototype.IsSettled := by
  unfold prototype
  split
  · cases hp : g.fill with
    | none => exact Item.isSettled_int 0
    | some p => exact hfill p hp
  · exact Item.isSettled_typify _

end Grid

namespace View

variable {v : View Item} {t : Shape} {f : Int → Item}

/-- Rendered cells are the cells, each rendered on its own. A fill that shows has been rendered when
it was made. -/
theorem settles (hp : ∀ p, v.prototype = .ok p → p.settle = .ok p) :
    Item.Settles v.generator (v.settled.generator .now) := by
  obtain ⟨root, steps⟩ := v
  have hroot := Item.settles_root root
  cases steps with
  | nil => exact hroot
  | cons x rest =>
      have hsteps := Item.ofSteps_settled root (x :: rest)
      change Item.Settles ((Level.ofSteps Item.fillOf root.facts (x :: rest)).stage.chain.get >>= _)
        ((Level.ofSteps (fun y => .ok y.typify) (Item.settledRoot root)
          (x :: rest)).stage.chain.get >>= _)
      rw [hsteps]
      cases (Level.ofSteps Item.fillOf root.facts (x :: rest)).stage.chain.get with
      | error e => rfl
      | ok ls =>
          change Item.Settles (root.facts.generator .now >>= _)
            ((Item.settledRoot root).generator .now >>= _)
          cases hraw : root.facts.generator .now with
          | error e =>
              rw [hraw] at hroot
              rw [hroot]
              rfl
          | ok raw =>
              rw [hraw] at hroot
              obtain ⟨cells, hcells, heach⟩ := hroot
              rw [hcells]
              refine ⟨_, rfl, fun i => ?_⟩
              rw [Gen.cell_indexed, Gen.cell_indexed, Item.source_settled heach]
              cases Level.source ls raw i with
              | error e => rfl
              | ok r =>
                  cases r with
                  | some z =>
                      simp only [bind, Except.bind, pure, Except.pure]
                      cases z.settle <;> rfl
                  | none =>
                      have hq (q : Item) (hq : (Level.ofSteps Item.fillOf root.facts
                          (x :: rest)).stage.prototype.get = .ok q) := hp q hq
                      simp only [bind, Except.bind]
                      cases hfill : (Level.ofSteps Item.fillOf root.facts
                          (x :: rest)).stage.prototype.get with
                      | error e => rfl
                      | ok q => exact (hq q hfill).symm

/-- An array that is ready to be rendered: its extents are whole, its fill has been rendered when it
was made, and if it is at hand it stores its cells. -/
structure IsReady (v : View Item) : Prop where
  shape : ∀ e, v.shape = .ok e → ∃ s : Shape, e = .ofShape s ∧ s.IsProper
  fill : ∀ p, v.prototype = .ok p → p.settle = .ok p
  kept : ∀ g, v.root = .concrete g → g.IsKept

theorem IsReady.isProper {v : View Item} {t : Shape} (h : v.IsReady)
    (hs : v.shape = .ok (.ofShape t)) : t.IsProper := by
  obtain ⟨s, hs, hp⟩ := h.shape _ hs
  rwa [Extents.ofShape_inj hs]

/-- What an array answers to those built on it: whole extents, an element type, and cells that
render to the items. -/
structure Offers (v : View Item) (t : Shape) (f : Int → Item) : Prop where
  shape : v.shape = .ok (.ofShape t)
  etype : ∃ e, v.etype = .ok e
  cells : ∃ gen, v.generator = .ok gen ∧ ∀ i, t.Holds i →
    gen.cell (.int i) >>= Item.settle = .ok (f i)

/-- An array that can be rendered: it is ready, and offers the items, and a fill if there is no
cell. -/
structure Yields (v : View Item) (t : Shape) (f : Int → Item) : Prop extends Offers v t f where
  ready : v.IsReady
  prototype : t.size = 0 → ∃ p, v.prototype = .ok p

theorem Yields.isProper (h : v.Yields t f) : t.IsProper := by
  exact h.ready.isProper h.shape

theorem Offers.congr {f' : Int → Item} (h : v.Offers t f) (heq : ∀ i, t.Holds i → f i = f' i) :
    v.Offers t f' := by
  obtain ⟨gen, hgen, hcell⟩ := h.cells
  exact ⟨h.shape, h.etype, gen, hgen, fun i hi => heq i hi ▸ hcell i hi⟩

theorem Yields.congr {f' : Int → Item} (h : v.Yields t f) (heq : ∀ i, t.Holds i → f i = f' i) :
    v.Yields t f' :=
  ⟨h.toOffers.congr heq, h.ready, h.prototype⟩

/-- The items of an array at hand are its own. -/
theorem yields_ofGrid {g : Grid Item} (h : (ofGrid g).IsReady) :
    ∃ f, (ofGrid g).Yields g.shape f ∧ g.Collects g.shape f := by
  have hk := h.kept g rfl
  obtain ⟨cells, hcells, heach⟩ := hk.cells
  have hs := Item.settles_root (.concrete g)
  rw [hcells] at hs
  cases hgen : (ofGrid g).generator with
  | error e =>
      have hraw : (Root.concrete g).facts.generator .now = .error e := hgen
      rw [hraw] at hs
      cases hs
  | ok gen =>
      have hraw : (Root.concrete g).facts.generator .now = .ok gen := hgen
      rw [hraw] at hs
      obtain ⟨_, hsame, hsettle⟩ := hs
      obtain rfl := Except.ok.inj hsame
      have hitem : Nonempty Item := ⟨.nothing⟩
      choose! f hf hkept hcell using heach
      refine ⟨f, ⟨⟨rfl, ⟨_, rfl⟩, gen, hgen, fun i hi => ?_⟩, h, fun _ => ⟨_, rfl⟩⟩, rfl,
        hk.length_eq, fun i hi => ⟨.mixed, ?_⟩⟩
      · exact (hsettle _).symm.trans (hcell i hi)
      · rw [hf i hi]
        exact congrArg some (hkept i hi).stored_eq.symm

theorem exists_array_of_render {x : Item} (hr : (Item.view v).render = .ok x) :
    ∃ g, x = .array g := by
  by_cases hv : ∃ g', v = ofGrid g'
  · obtain ⟨g', rfl⟩ := hv
    exact ⟨g', (Except.ok.inj hr).symm⟩
  · rw [render_eq hv] at hr
    obtain ⟨g', _, rfl⟩ := map_eq_ok.mp hr
    exact ⟨g', rfl⟩

/-- What an array yields is what it renders to. -/
theorem IsReady.exists_yields (h : v.IsReady) {g : Grid Item}
    (hr : (Item.view v).render = .ok (.array g)) :
    ∃ f, v.Yields g.shape f ∧ g.Collects g.shape f := by
  by_cases hv : ∃ g', v = ofGrid g'
  · obtain ⟨g', rfl⟩ := hv
    cases hr
    exact yields_ofGrid h
  · rw [render_eq hv] at hr
    obtain ⟨g', hcollect, hg⟩ := map_eq_ok.mp hr
    cases hg
    obtain ⟨e, he, _⟩ := bind_eq_ok.mp hcollect
    have hshape := (shape_settled v).symm.trans he
    obtain ⟨t, rfl, _⟩ := h.shape e hshape
    obtain ⟨cells, xs, e, fill, hcells, hxs, hetype, hfill, rfl⟩ := (Tower.collect_eq_ok he).mp
      hcollect
    have hs := settles h.fill
    rw [hcells] at hs
    cases hgen : v.generator with
    | error e =>
        rw [hgen] at hs
        cases hs
    | ok gen =>
        rw [hgen] at hs
        obtain ⟨_, hsame, heach⟩ := hs
        obtain rfl := Except.ok.inj hsame
        obtain ⟨hlen, hx⟩ := mapM_upTo hxs
        have hitem : Nonempty Item := ⟨.nothing⟩
        choose! f hf hcell using hx
        rw [etype_settled] at hetype
        rw [prototype_settled] at hfill
        refine ⟨f, ⟨⟨hshape, ⟨e, hetype⟩, gen, hgen, fun i hi => ?_⟩, h, fun h0 => ?_⟩, rfl, ?_,
          fun i hi => ⟨e.kind, ?_⟩⟩
        · exact (heach _).symm.trans (hcell i hi)
        · have h0 : t.size = 0 := h0
          rw [if_pos h0] at hfill
          obtain ⟨p, hp, _⟩ := map_eq_ok.mp hfill
          exact ⟨p, hp⟩
        · simpa [Grid.of] using hlen
        · have hi := hf i hi
          simp [Grid.of, hi]

/-- The rendered cells of an array that yields items collect these items. -/
theorem Yields.exists_collect (h : v.Yields t f) :
    ∃ g, Tower.collect v.settled = .ok g ∧ g.Collects t f := by
  obtain ⟨gen, hgen, hcell⟩ := h.cells
  have hs := settles h.ready.fill
  rw [hgen] at hs
  obtain ⟨cells, hcells, heach⟩ := hs
  have hread : ∀ i ∈ upTo t.size, ∃ x, cells.cell (.int i) = .ok x := by
    intro i hi
    exact ⟨f i, (heach _).trans (hcell i (mem_upTo.mp hi))⟩
  obtain ⟨xs, hxs⟩ := exists_mapM hread
  have hshape := (shape_settled v).trans h.shape
  have hsupplied : Tower.IsSupplied v.settled t := by
    refine ⟨?_, fun h0 => ?_⟩
    · rw [etype_settled]
      exact h.etype
    · rw [prototype_settled]
      exact h.prototype h0
  obtain ⟨k, fill, hg⟩ := Tower.exists_collect hshape hsupplied hcells hxs
  obtain ⟨hlen, hx⟩ := mapM_upTo hxs
  refine ⟨_, hg, rfl, by simpa [Grid.of] using hlen, fun i hi => ⟨k, ?_⟩⟩
  obtain ⟨x, hxi, hxc⟩ := hx i hi
  have hxf := (heach _).trans (hcell i hi)
  obtain rfl := Except.ok.inj (hxf.symm.trans hxc)
  simp [Grid.of, hxi]

/-- An array renders to the items that it yields. -/
theorem Yields.exists_render (h : v.Yields t f) :
    ∃ g, (Item.view v).render = .ok (.array g) ∧ g.Collects t f := by
  by_cases hv : ∃ g, v = ofGrid g
  · obtain ⟨g, rfl⟩ := hv
    obtain ⟨gen, hgen, hcell⟩ := h.cells
    obtain ⟨f', hy, hg⟩ := yields_ofGrid h.ready
    obtain rfl : g.shape = t := Extents.ofShape_inj (Except.ok.inj h.shape)
    obtain ⟨gen', hgen', hcell'⟩ := hy.cells
    obtain rfl := Except.ok.inj (hgen.symm.trans hgen')
    refine ⟨g, rfl, rfl, hg.length_eq, fun i hi => ?_⟩
    rw [Except.ok.inj ((hcell i hi).symm.trans (hcell' i hi))]
    exact hg.cells i hi
  · obtain ⟨g, hcollect, hg⟩ := h.exists_collect
    refine ⟨g, ?_, hg⟩
    rw [render_eq hv, hcollect]
    rfl

theorem isReady_of_isMade {root : Root Item} (h : root.IsMade)
    (hs : ∀ e, (⟨root, []⟩ : View Item).shape = .ok e →
      ∃ s : Shape, e = .ofShape s ∧ s.IsProper) : (⟨root, []⟩ : View Item).IsReady := by
  refine ⟨hs, fun p hp => ?_, fun g hg => ?_⟩
  · have hfill : (Item.settledRoot root).prototype .now = .ok p := by
      rw [Root.prototype_settledRoot]
      exact hp
    exact (h.isSettled.fill p hfill).settle_eq
  · have hg : root = .concrete g := hg
    rw [hg] at h
    exact h.isKept

theorem isReady_ofGrid {g : Grid Item} (hk : g.IsKept) (hs : g.shape.IsProper)
    (hfill : ∀ p ∈ g.fill, p.IsSettled) : (ofGrid g).IsReady := by
  refine ⟨fun e he => ?_, fun p hp => ?_, fun g' hg => ?_⟩
  · cases he
    exact ⟨g.shape, rfl, hs⟩
  · cases hp
    exact (Grid.isSettled_prototype hfill).settle_eq
  · cases hg
    exact hk

theorem isReady_ofNumbers {s : Shape} {ns : List Int} (hs : s.IsProper)
    (hl : ns.length = s.size.toNat) : (ofGrid (Grid.of s (ns.map .int) none)).IsReady :=
  isReady_ofGrid (Grid.isKept_ofNumbers hl) hs (by simp [Grid.of])

/-- An array is ready if its root is. -/
theorem StandsOn.isReady {root : Root Item} {r : Shape} (h : StandsOn root r v t)
    (hr : (⟨root, []⟩ : View Item).IsReady) : v.IsReady := by
  refine ⟨fun e he => ?_, fun p hp => ?_, ?_⟩
  · exact ⟨t, Except.ok.inj (he.symm.trans h.shape_eq), (h.stands.keeps Item.fillOf).proper⟩
  · rw [← prototype_settled, View.settled, Tower.prototype_facts, h.root_eq] at hp
    refine Tower.prototype_induction (P := fun q => q.settle = .ok q) (fun q hq => ?_)
      (fun x => (Item.isSettled_typify x).settle_eq) hp
    rw [Root.prototype_settledRoot] at hq
    exact hr.fill q hq
  · rw [h.root_eq]
    exact hr.kept

end View
end LazyApl
