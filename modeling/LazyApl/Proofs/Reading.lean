import LazyApl.Primitive.Function
import LazyApl.Primitive.Pervade
import LazyApl.Proofs.Yielding
/-!
# Whole numbers read from an array, rendered or not

Arguments that have to be whole numbers are read from the rendered cells of an array. Rendering the
array first reads the same cells, but it stores them: truth values are counted where the element
type is one of whole numbers, texts of several characters become vectors, and simple values leave
their boxes. What is read from an array is read from what it renders to as well, and the other way
round exactly if no cell has been changed by being stored.
-/
namespace LazyApl

open Outcome

namespace Outcome

/-- Two computations at each member, one after all of the other, or one after the other at each. -/
theorem mapM_mapM_eq_ok {α β γ : Type} {f : α → Except Fault β} {g : β → Except Fault γ}
    {xs : List α} {zs : List γ} : (xs.mapM f >>= fun ys => ys.mapM g) = .ok zs ↔
      List.Forall₂ (fun x z => (f x >>= g) = .ok z) xs zs := by
  rw [bind_eq_ok]
  constructor
  · rintro ⟨ys, hys, hzs⟩
    rw [mapM_eq_ok] at hys hzs
    induction hys generalizing zs with
    | nil =>
        cases hzs
        exact .nil
    | cons hy _ ih =>
        cases hzs with
        | cons hz hzs => exact .cons (bind_eq_ok.mpr ⟨_, hy, hz⟩) (ih hzs)
  · intro h
    induction h with
    | nil => exact ⟨[], rfl, rfl⟩
    | cons hz _ ih =>
        obtain ⟨y, hy, hz⟩ := bind_eq_ok.mp hz
        obtain ⟨ys, hys, hzs⟩ := ih
        exact ⟨y :: ys, mapM_eq_ok.mpr (.cons hy (mapM_eq_ok.mp hys)),
          mapM_eq_ok.mpr (.cons hz (mapM_eq_ok.mp hzs))⟩

theorem mapM_pickAt {α β : Type} (f : α → Except Fault β) (xs : List α) :
    ((upTo xs.length).mapM fun i => pickAt xs i >>= f) = xs.mapM f := by
  cases xs with
  | nil => rfl
  | cons x rest =>
      have hmap : (upTo (x :: rest).length).map (fun i => (x :: rest).getD i.toNat x) =
          x :: rest := by
        refine List.ext_getElem (by simp) fun k hk hk' => ?_
        simp [upTo, List.getElem?_eq_getElem hk']
      conv_rhs => rw [← hmap, List.mapM_map]
      refine mapM_congr fun i hi => ?_
      have hi := mem_upTo.mp hi
      have hlt : i.toNat < (x :: rest).length := by omega
      have hget : (x :: rest)[i.toNat]? = some ((x :: rest).getD i.toNat x) := by
        simp [List.getElem?_eq_getElem hlt]
      rw [(pickAt_ok hi.1).mpr hget]
      rfl

end Outcome

/-- The cells of an array at hand are read off its items. -/
theorem Grid.exists_generator {g : Grid Item} (hl : g.items.length = g.shape.size.toNat) :
    ∃ gen, g.generator = .ok gen ∧ ∀ i : Int, 0 ≤ i ∧ i < g.items.length →
      gen.cell (.int i) = pickAt g.items i := by
  obtain ⟨s, xs, fill⟩ := g
  cases s with
  | nil =>
      obtain ⟨x, rfl⟩ := List.length_eq_one_iff.mp (by simpa using hl)
      refine ⟨_, rfl, fun i hi => ?_⟩
      have hi' : 0 ≤ i ∧ i < 1 := by simpa using hi
      obtain rfl : i = 0 := by omega
      rfl
  | cons n s => exact ⟨_, rfl, fun i _ => by simp⟩

namespace Item

variable {v : View Item} {g : Grid Item} {t : Shape} {f : Int → Item} {role : String}
  {ns : List Int}

theorem items_lift (x : Item) : x.items = (view x.lift).items := by
  cases x <;> rfl

theorem asInts_lift (x : Item) (role : String) : x.asInts role = (view x.lift).asInts role := by
  rw [asInts, asInts, items_lift]

theorem items_of_cells {gen : Gen Item} (hs : v.shape = .ok (.ofShape t))
    (hgen : v.generator = .ok gen)
    (hcell : ∀ i, t.Holds i → gen.cell (.int i) >>= settle = .ok (f i)) :
    (view v).items = .ok ((upTo t.size).map f) := by
  have hshape : (view v).shapeOf = .ok (.ofShape t) := hs
  have hcells : (view v).generatorOf = .ok gen := hgen
  simp only [items, hcells, hshape, Extents.count_ofShape, bind, Except.bind]
  exact mapM_ok fun i hi => hcell i (mem_upTo.mp hi)

theorem items_of_offers (h : v.Offers t f) : (view v).items = .ok ((upTo t.size).map f) := by
  obtain ⟨gen, hgen, hcell⟩ := h.cells
  exact items_of_cells h.shape hgen hcell

theorem asInts_of_offers (h : v.Offers t f) (role : String) :
    (view v).asInts role = ((upTo t.size).map f).mapM (asWhole role) := by
  rw [asInts, items_of_offers h]
  rfl

theorem getElem?_asInts (h : v.Offers t f) (hns : (view v).asInts role = .ok ns) :
    ns.length = t.size.toNat ∧
      ∀ i, t.Holds i → ∃ k, ns[i.toNat]? = some k ∧ (f i).asWhole role = .ok k := by
  rw [asInts_of_offers h, List.mapM_map] at hns
  exact mapM_upTo hns

theorem exists_asInts (h : v.Offers t f)
    (hwhole : ∀ i, t.Holds i → ∃ k, (f i).asWhole role = .ok k) :
    ∃ ns, (view v).asInts role = .ok ns := by
  rw [asInts_of_offers h, List.mapM_map]
  exact exists_mapM fun i hi => hwhole i (mem_upTo.mp hi)

theorem length_items {xs : List Item} (hs : v.shape = .ok (.ofShape t))
    (h : (view v).items = .ok xs) : xs.length = t.size.toNat := by
  have hshape : (view v).shapeOf = .ok (.ofShape t) := hs
  obtain ⟨gen, _, h⟩ := bind_eq_ok.mp h
  simp only [hshape, Extents.count_ofShape, bind, Except.bind] at h
  exact (mapM_upTo h).1

theorem items_array (hl : g.items.length = g.shape.size.toNat) :
    (array g).items = g.items.mapM settle := by
  have hupTo : upTo g.shape.size = upTo g.items.length := by
    unfold upTo
    rw [← hl, Int.toNat_natCast]
  obtain ⟨gen, hgen, hcell⟩ := Grid.exists_generator hl
  have hshape : (array g).shapeOf = .ok (.ofShape g.shape) := rfl
  have hgen' : (array g).generatorOf = .ok gen := hgen
  simp only [items, hgen', hshape, Extents.count_ofShape, hupTo, bind, Except.bind]
  refine Eq.trans (mapM_congr fun i hi => ?_) (mapM_pickAt settle g.items)
  rw [hcell i (mem_upTo.mp hi)]
  rfl

theorem items_of_isKept (hg : g.IsKept) : (array g).items = .ok g.items := by
  rw [items_array hg.length_eq, mapM_ok (g := id) fun x hx => (hg.items x hx).settle_eq]
  simp

theorem items_ofNumbers {s : Shape} {ns : List Int} (hl : ns.length = s.size.toNat) :
    (array (Grid.of s (ns.map int) none)).items = .ok (ns.map int) := by
  rw [items_of_isKept (Grid.isKept_ofNumbers hl), Grid.items_ofNumbers]

theorem mapM_asWhole_int (role : String) (ns : List Int) :
    (ns.map int).mapM (asWhole role) = .ok ns := by
  rw [mapM_eq_ok, List.forall₂_map_left_iff, List.forall₂_same]
  exact fun n _ => rfl

theorem newShape_ints {d : Shape} (hd : d.IsProper) : newShape (d.map int) = .ok d := by
  have hnone : d.any (· < 0) = false := by
    rw [List.any_eq_false]
    intro n hn
    simpa using hd n hn
  simp only [newShape, mapM_asWhole_int, hnone, bind, Except.bind]
  rfl

theorem asInts_ofNumbers {s : Shape} {ns : List Int} (hl : ns.length = s.size.toNat)
    (role : String) : (array (Grid.of s (ns.map int) none)).asInts role = .ok ns := by
  rw [asInts, items_ofNumbers hl]
  exact mapM_asWhole_int role ns

/-- To read the cells of an array is the first thing that rendering it does. -/
theorem collect_settled (h : v.IsReady) (hs : v.shape = .ok (.ofShape t)) :
    Tower.collect v.settled = (do
      let xs ← (view v).items
      let e ← v.etype
      (if t.size = 0 then some <$> v.prototype else .ok none) >>= fun fill =>
        .ok (Grid.of t (xs.map (countedFor e.kind)) fill)) := by
  rw [Tower.collect_eq ((View.shape_settled v).trans hs), View.etype_settled,
    View.prototype_settled]
  have hsettles := View.settles h.fill
  have hshape : (view v).shapeOf = .ok (.ofShape t) := hs
  cases hgen : v.generator with
  | error e =>
      rw [hgen] at hsettles
      have hcells : (view v).generatorOf = .error e := hgen
      have hgen' : v.settled.generator .now = .error e := hsettles
      simp only [items, hcells, hgen', bind, Except.bind]
  | ok gen =>
      rw [hgen] at hsettles
      obtain ⟨cells, hcells, heach⟩ := hsettles
      have hcells' : (view v).generatorOf = .ok gen := hgen
      have hread : (upTo t.size).mapM (fun i : Int => cells.cell i) =
          (upTo t.size).mapM fun i : Int => gen.cell i >>= settle :=
        mapM_congr fun i _ => heach i
      simp only [items, hcells, hcells', hshape, hread, Extents.count_ofShape, bind, Except.bind]

theorem asWhole_eq_ok {role : String} {x : Item} {n : Int} (h : x.asWhole role = .ok n) :
    ∃ s, x = scalar s ∧ ∀ b, s ≠ .truth b := by
  cases x with
  | scalar s =>
      refine ⟨s, rfl, fun b hb => ?_⟩
      rw [hb] at h
      cases h
  | _ => cases h

theorem asWhole_stored {role : String} {x : Item} {n : Int} (h : x.asWhole role = .ok n)
    (k : Kind) : (x.countedFor k).stored.settle >>= asWhole role = .ok n := by
  obtain ⟨s, rfl, hs⟩ := asWhole_eq_ok h
  have hkept : (scalar s).IsKept := by
    cases s with
    | text s => cases h
    | _ => rfl
  rw [countedFor_eq_self fun b hb => hs b (scalar.inj hb), hkept.stored_eq, hkept.settle_eq]
  exact h

theorem asWhole_of_stored {role : String} {s : Scalar} {k : Kind} {n : Int}
    (hs : ∀ b, s ≠ .truth b)
    (h : ((scalar s).countedFor k).stored.settle >>= asWhole role = .ok n) :
    (scalar s).asWhole role = .ok n := by
  rw [countedFor_eq_self fun b hb => hs b (scalar.inj hb)] at h
  by_cases hkept : (scalar s).IsKept
  · rw [hkept.stored_eq, hkept.settle_eq] at h
    exact h
  · have hlong : ∃ u, s = .text u ∧ u.length ≠ 1 := by
      cases s with
      | text u =>
          refine ⟨u, rfl, fun hu => hkept ?_⟩
          simp [IsKept, stored, hu]
      | _ => exact absurd rfl hkept
    obtain ⟨u, rfl, hu⟩ := hlong
    simp only [stored, if_neg hu, characters, settle] at h
    cases h

end Item

namespace Grid

/-- The cells of an array that collects items are these, each as it is stored. -/
theorem Collects.exists_items {g : Grid Item} {t : Shape} {f : Int → Item} (h : g.Collects t f) :
    ∃ k : Int → Kind, g.items = (upTo t.size).map fun i => ((f i).countedFor (k i)).stored := by
  have hkind : Nonempty Kind := ⟨.mixed⟩
  choose! k hk using h.cells
  refine ⟨k, List.ext_getElem (by simp [h.length_eq]) fun n hn hn' => ?_⟩
  have hi : t.Holds n := by
    rw [h.length_eq] at hn
    unfold Shape.Holds
    omega
  have hget := hk n hi
  rw [Int.toNat_natCast, List.getElem?_eq_getElem hn] at hget
  simpa [upTo] using Option.some.inj hget

end Grid

namespace View

variable {v : View Item} {g : Grid Item}

/-- Each cell of the array is rendered to a simple value, and none to a truth value. -/
def HandsOutPlain (v : View Item) : Prop :=
  ∀ xs, (Item.view v).items = .ok xs → ∀ x ∈ xs, ∃ s, x = .scalar s ∧ ∀ b, s ≠ .truth b

/-- The array answers for its shape where it answers for its cells. Where it does, it answers for
its element type, by which each rendered cell is stored as it is, and for its fill if there is no
cell. -/
structure ReadsPlainly (v : View Item) : Prop where
  shape : ∀ e, v.shape = .error e → v.generator = .error e
  etype : ∀ xs, (Item.view v).items = .ok xs →
    ∃ e, v.etype = .ok e ∧ ∀ x ∈ xs, x.IsKept ∧ x.countedFor e.kind = x
  fill : (Item.view v).items = .ok [] → ∃ p, v.prototype = .ok p

theorem ReadsPlainly.asInts_eq (h : v.ReadsPlainly) (hv : v.IsReady) (role : String) :
    (Item.view v).asInts role = (Item.view v).render >>= fun x => x.asInts role := by
  by_cases hgrid : ∃ g, v = ofGrid g
  · obtain ⟨g, rfl⟩ := hgrid
    rfl
  · rw [render_eq hgrid]
    cases hshape : v.shape with
    | error e =>
        have hcells : (Item.view v).generatorOf = .error e := h.shape e hshape
        have hshape' : v.settled.shape.get = .error e := (shape_settled v).trans hshape
        simp only [Item.asInts, Item.items, hcells, Tower.collect, hshape', bind, Except.bind]
        rfl
    | ok e =>
        obtain ⟨t, rfl, ht⟩ := hv.shape e hshape
        rw [Item.collect_settled hv hshape]
        cases hxs : (Item.view v).items with
        | error e =>
            simp only [Item.asInts, hxs, bind, Except.bind]
            rfl
        | ok xs =>
            have hlen := Item.length_items hshape hxs
            obtain ⟨e, he, hall⟩ := h.etype xs hxs
            have hfill : ∃ fill, (if t.size = 0 then some <$> v.prototype else .ok none) =
                Except.ok fill := by
              split
              · rename_i h0
                rw [h0] at hlen
                obtain rfl := List.length_eq_zero_iff.mp hlen
                obtain ⟨p, hp⟩ := h.fill hxs
                exact ⟨some p, by rw [hp]; rfl⟩
              · exact ⟨none, rfl⟩
            obtain ⟨fill, hfill⟩ := hfill
            -- each cell is stored as it is, so it is read back as it was
            have hof : Grid.of t (xs.map (Item.countedFor e.kind)) fill = ⟨t, xs, fill⟩ := by
              have hcounted : xs.map (Item.countedFor e.kind) = xs := by
                simpa using List.map_congr_left fun x hx => (hall x hx).2
              have hstored : xs.map Item.stored = xs := by
                simpa using List.map_congr_left fun x hx => (hall x hx).1.stored_eq
              rw [Grid.of, hcounted, hstored]
            have hkept : (⟨t, xs, fill⟩ : Grid Item).IsKept := ⟨hlen, fun x hx => (hall x hx).1⟩
            simp only [he, hfill, hof, bind, Except.bind]
            simp only [Item.asInts, hxs, Item.items_of_isKept hkept, bind, Except.bind,
              Functor.map, Except.map]

/-- What is read from an array that can be rendered is read from what it renders to, and nothing
else is if all cells are plain. -/
theorem IsReady.asInts_iff (hv : v.IsReady) (hr : (Item.view v).render = .ok (.array g))
    (role : String) (ns : List Int) : (Item.view v).asInts role = .ok ns ↔
      (Item.array g).asInts role = .ok ns ∧ v.HandsOutPlain := by
  obtain ⟨f, hf, hg⟩ := hv.exists_yields hr
  obtain ⟨k, hk⟩ := hg.exists_items
  have hitems := Item.items_of_offers hf.toOffers
  have hread : (Item.view v).asInts role = .ok ns ↔
      List.Forall₂ (fun i n => (f i).asWhole role = .ok n) (upTo g.shape.size) ns := by
    rw [Item.asInts_of_offers hf.toOffers, mapM_eq_ok, List.forall₂_map_left_iff]
  have hread' : (Item.array g).asInts role = .ok ns ↔ List.Forall₂ (fun i n =>
      (((f i).countedFor (k i)).stored.settle >>= Item.asWhole role) = .ok n)
        (upTo g.shape.size) ns := by
    rw [Item.asInts, Item.items_array hg.length_eq, hk, mapM_mapM_eq_ok,
      List.forall₂_map_left_iff]
  constructor
  · intro h
    refine ⟨hread'.mpr ((hread.mp h).imp fun i n hn => Item.asWhole_stored hn (k i)),
      fun xs hxs x hx => ?_⟩
    rw [Item.asInts, hxs] at h
    have hwhole : xs.mapM (Item.asWhole role) = .ok ns := h
    obtain ⟨n, _, hn⟩ := exists_mem_of_mapM hwhole hx
    exact Item.asWhole_eq_ok hn
  · rintro ⟨h, hplain⟩
    have hcells : ∀ i ∈ upTo g.shape.size, ∃ s, f i = .scalar s ∧ ∀ b, s ≠ .truth b :=
      fun i hi => hplain _ hitems _ (List.mem_map_of_mem hi)
    refine hread.mpr (((List.forall₂_and_left ..).mpr ⟨hcells, hread'.mp h⟩).imp
      fun i n hi => ?_)
    obtain ⟨⟨s, hs, htruth⟩, hn⟩ := hi
    rw [hs] at hn ⊢
    exact Item.asWhole_of_stored htruth hn

/-- Whole numbers are read from an array as from what it renders to. If the array answers plainly,
the outcome is the same, be it numbers or a refusal. If it can be rendered, numbers are read from it
exactly if they are read from what it renders to and no cell is a truth value or an array that
rendering stores as a number. -/
theorem IsReady.asInts_render (hv : v.IsReady) (role : String) :
    (v.ReadsPlainly →
      (Item.view v).asInts role = (Item.view v).render >>= fun x => x.asInts role) ∧
    ∀ g, (Item.view v).render = .ok (.array g) → ∀ ns, (Item.view v).asInts role = .ok ns ↔
      (Item.array g).asInts role = .ok ns ∧ v.HandsOutPlain :=
  ⟨fun h => h.asInts_eq hv role, fun _ hr ns => hv.asInts_iff hr role ns⟩

/-- Two numbers compared with one, as an array of bits: its cells are truth values. -/
def compared : View Item :=
  pervade (CellFunction.dyadic fun a b => do return .truth (← Item.same a b)) (.fixed EType.bit)
    [ofGrid (Grid.ofList [.int 1, .int 2]), ofGrid (Grid.ofScalar (.int 1))]

/-- Two numbers subtracted from one, as an array of whole numbers. -/
def subtracted : View Item :=
  pervade (CellFunction.dyadic Item.sub) (.fixed EType.unbounded)
    [ofGrid (Grid.ofScalar (.int 1)), ofGrid (Grid.ofList [.int 1, .int 2])]

theorem isReady_of_computed {f : Facts Item} {t : Shape} (hf : v.root = .computed f)
    (hs : v.shape = .ok (.ofShape t)) (ht : t.IsProper) (hp : v.prototype = .ok (.int 0)) :
    v.IsReady := by
  refine ⟨fun e he => ⟨t, ?_, ht⟩, fun p hp' => ?_, fun g hg => ?_⟩
  · exact Except.ok.inj (he.symm.trans hs)
  · cases hp.symm.trans hp'
    exact (Item.isSettled_int 0).settle_eq
  · rw [hf] at hg
    cases hg

/-- The bits are read only after they have been rendered; the numbers are read before and after. -/
theorem compared_asInts_render :
    (∃ g, (Item.view compared).render = .ok (.array g) ∧
      (Item.array g).asInts "mask" = .ok [1, 0] ∧
      (Item.view compared).asInts "mask" ≠ .ok [1, 0]) ∧
    (Item.view subtracted).asInts "mask" = .ok [0, -1] ∧
      ((Item.view subtracted).render >>= fun x => x.asInts "mask") = .ok [0, -1] := by
  constructor
  · have answers : compared.IsReady ∧
        (Item.view compared).render = .ok (.array ⟨[2], [.int 1, .int 0], none⟩) ∧
        (Item.view compared).items = .ok [.truth true, .truth false] := by
      unfold compared
      rw [pervade]
      exact ⟨isReady_of_computed rfl rfl (t := [2]) (by simp [Shape.IsProper]) rfl, rfl, rfl⟩
    obtain ⟨hready, hrender, hitems⟩ := answers
    refine ⟨_, hrender, rfl, fun h => ?_⟩
    obtain ⟨_, hplain⟩ := ((hready.asInts_render "mask").2 _ hrender [1, 0]).mp h
    obtain ⟨s, hs, htruth⟩ := hplain _ hitems (.truth true) List.mem_cons_self
    exact htruth true (Item.scalar.inj hs).symm
  · have answers : subtracted.IsReady ∧ subtracted.shape = .ok (.ofShape [2]) ∧
        subtracted.etype = .ok EType.unbounded ∧
        (Item.view subtracted).items = .ok [.int 0, .int (-1)] := by
      unfold subtracted
      rw [pervade]
      exact ⟨isReady_of_computed rfl rfl (t := [2]) (by simp [Shape.IsProper]) rfl, rfl, rfl, rfl⟩
    obtain ⟨hready, hshape, hetype, hitems⟩ := answers
    have hplain : subtracted.ReadsPlainly := by
      refine ⟨fun e he => ?_, fun xs hxs => ⟨_, hetype, fun x hx => ?_⟩, fun hxs => ?_⟩
      · cases hshape.symm.trans he
      · cases hitems.symm.trans hxs
        rcases List.mem_pair.mp hx with rfl | rfl <;> exact ⟨rfl, rfl⟩
      · cases hitems.symm.trans hxs
    have hread : (Item.view subtracted).asInts "mask" = .ok [0, -1] := by
      rw [Item.asInts, hitems]
      rfl
    exact ⟨hread, ((hready.asInts_render "mask").1 hplain).symm.trans hread⟩

end View
end LazyApl
