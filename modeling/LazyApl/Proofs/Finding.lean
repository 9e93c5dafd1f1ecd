import LazyApl.Platform.Usual
import LazyApl.Proofs.Reindexing
import LazyApl.Proofs.Searching
/-!
# Items are selected from where they are found

A search gives each item of one array the first position in another one of an item that is equal to
it, or the position after the last if there is none. It counts them from the origin from which a
selection counts its indices. So if every item is found, what is selected from there has the shape
of the first array, and it matches that array unless an item has been found that is only near.
-/
namespace LazyApl

open Outcome

namespace Lookup

variable {test : Item → Except Fault Bool} {xs : List Item} {p : Nat}

/-- A search ends at the first item that passes the test, or after the last one if none does. -/
def EndsAt (test : Item → Except Fault Bool) (xs : List Item) (p : Nat) : Prop :=
  (∀ x ∈ xs.take p, test x = .ok false) ∧
    (p = xs.length ∨ ∃ x, xs[p]? = some x ∧ test x = .ok true)

theorem endsAt_iff : EndsAt test xs p ↔ ∃ k, IsFirst test xs k ∧ p = k.getD xs.length := by
  constructor
  · rintro ⟨hbefore, rfl | hfound⟩
    · rw [List.take_length] at hbefore
      exact ⟨none, hbefore, rfl⟩
    · exact ⟨some p, ⟨hfound, hbefore⟩, rfl⟩
  · rintro ⟨k, hk, rfl⟩
    cases k with
    | none =>
        refine ⟨?_, .inl rfl⟩
        rw [Option.getD_none, List.take_length]
        exact hk
    | some k => exact ⟨hk.2, .inr hk.1⟩

theorem EndsAt.lt_length_iff (h : EndsAt test xs p) :
    p < xs.length ↔ ∃ x ∈ xs, test x = .ok true := by
  obtain ⟨hbefore, rfl | ⟨x, hx, hpass⟩⟩ := h
  · rw [List.take_length] at hbefore
    refine ⟨fun h => absurd h (lt_irrefl _), ?_⟩
    rintro ⟨x, hx, hpass⟩
    cases (hbefore x hx).symm.trans hpass
  · exact ⟨fun _ => ⟨x, List.mem_of_getElem? hx, hpass⟩,
      fun _ => (List.getElem?_eq_some_iff.mp hx).1⟩

theorem EndsAt.exists_passes (h : EndsAt test xs p) (hp : p < xs.length) :
    ∃ x, xs[p]? = some x ∧ test x = .ok true :=
  h.2.resolve_left hp.ne

theorem find_eq_of_endsAt [Platform] {ct : Tolerance} {z : Item}
    (h : EndsAt (Item.near ct z) xs p) :
    ∃ r, (ofList xs ct).find z = .ok r ∧ r.getD xs.length = (p : Int) := by
  obtain ⟨hfaithful, hvalues, htolerance⟩ := ofList_spec xs ct
  obtain ⟨k, hk, rfl⟩ := endsAt_iff.mp h
  refine ⟨k.map fun (j : Nat) => (0 : Int) + j, ?_, ?_⟩
  · rw [hfaithful.find_eq, hvalues, htolerance, firstWhere_eq_ok]
    exact ⟨k, rfl, hk⟩
  · cases k <;> simp

variable {as zs : List Item} {ps : List Nat} {ct : Tolerance}

theorem exists_places [Platform] (h : ∀ z ∈ zs, ∃ p, EndsAt (Item.near ct z) as p) :
    ∃ ps, List.Forall₂ (fun z p => EndsAt (Item.near ct z) as p) zs ps := by
  choose! place hplace using h
  exact ⟨zs.map place, List.forall₂_map_right_iff.mpr (List.forall₂_same.mpr hplace)⟩

theorem lt_length_of_found [Platform]
    (hps : List.Forall₂ (fun z p => EndsAt (Item.near ct z) as p) zs ps)
    (hfound : ∀ z ∈ zs, ∃ y ∈ as, Item.near ct z y = .ok true) : ∀ p ∈ ps, p < as.length := by
  intro p hp
  obtain ⟨k, hk⟩ := List.mem_iff_getElem?.mp hp
  obtain ⟨z, hz, hend⟩ := getElem?_forall₂ hps.flip hk
  exact EndsAt.lt_length_iff hend |>.mpr (hfound z (List.mem_of_getElem? hz))

end Lookup

namespace Item

open Lookup (EndsAt)

variable {a x : Item} {as xs : List Item} {t : Shape} {n o : Int} {ct : Tolerance} {ps : List Nat}

/-- The positions at which the items of an array are found, counted from an origin. -/
theorem indexOf_spec [Platform] (ha : a.lift.shape = .ok (.ofShape [n])) (has : a.Lists as)
    (hs : x.lift.shape = .ok (.ofShape t)) (ht : t.IsProper) (hxs : x.items = .ok xs)
    (hps : List.Forall₂ (fun z p => EndsAt (near ct z) as p) xs ps) :
    (indexOf a x (.int o) ct).shape = .ok (.ofShape t) ∧
      (view (indexOf a x (.int o) ct)).items = .ok (ps.map fun (p : Nat) => int (p + o)) ∧
      ∃ fill, (view (indexOf a x (.int o) ct)).render =
        .ok (.array ⟨t, ps.map fun (p : Nat) => int (p + o), fill⟩) := by
  rw [items_lift] at hxs
  have hshape : (indexOf a x (.int o) ct).shape = .ok (.ofShape t) := by
    have hrank : ¬ (1 : Int) < ([n] : Shape).length := by simp
    simp only [indexOf, View.whole, View.shape_computed, Lazy.get_delay, View.rank_of_shape ha,
      if_neg hrank, bind, Except.bind]
    exact hs
  have hetype : ∃ e, (indexOf a x (.int o) ct).etype = .ok e := by
    have hsize : a.lift.size = .ok (.int (Shape.size [n])) := by
      simp [View.size, ha, bind, Except.bind]
    simp only [indexOf, View.whole, View.etype_computed, Lazy.get_delay, hsize, bind, Except.bind]
    exact ⟨_, EType.counted_int o _⟩
  have hfound : xs.mapM (fun z => do
      let place := (← (Lookup.ofList as ct).find z).getD as.length
      return scalar (← Scalar.count (.int o) (.int place))) =
        .ok (ps.map fun (p : Nat) => int (p + o)) := by
    rw [mapM_eq_ok, List.forall₂_map_right_iff]
    refine hps.imp fun z p hp => ?_
    obtain ⟨r, hr, hplace⟩ := Lookup.find_eq_of_endsAt hp
    simp only [hr, hplace, Scalar.count_int, bind, Except.bind, pure, Except.pure]
  have hlength : (ps.length : Int) = t.size := by
    rw [← hps.length_eq, length_items hs hxs, Int.toNat_of_nonneg (Shape.size_nonneg ht)]
  obtain ⟨e, he⟩ := hetype
  obtain ⟨-, hvalues, -⟩ := Lookup.ofList_spec as ct
  refine ⟨hshape, View.shown_ints ?_ hshape he hlength ht rfl⟩
  simp only [Lazy.get_delay, has.members_eq, hxs, hvalues, bind, Except.bind]
  exact hfound

theorem indexes_of_items {w : View Item} (hs : w.shape = .ok (.ofShape t)) (ht : t.IsProper)
    (hw : (view w).items = .ok (ps.map fun (p : Nat) => int (p + o)))
    (hlt : ∀ p ∈ ps, (p : Int) < n) :
    (view w).asInts "index" = .ok (ps.map fun (p : Nat) => (p : Int) + o) ∧
      (view w).Indexes o n := by
  have hints : (view w).asInts "index" = .ok (ps.map fun (p : Nat) => (p : Int) + o) := by
    have hmap : (ps.map fun (p : Nat) => int (p + o)) =
        (ps.map fun (p : Nat) => (p : Int) + o).map int := by
      rw [List.map_map]
      rfl
    rw [asInts, hw, hmap]
    exact mapM_asWhole_int _ _
  refine ⟨hints, t, _, hs, hints, ht, fun k hk => ?_⟩
  obtain ⟨p, hp, rfl⟩ := List.mem_map.mp hk
  have := hlt p hp
  omega

end Item

namespace View

variable {root : Root Item} {r t : Shape} {v w : View Item} {f : Int → Item} {n o : Int}
  {ps : List Nat}

/-- A selection by positions offers the items there. -/
theorem StandsOn.select_positions (h : StandsOn root r v [n]) (hn : Shape.IsProper [n])
    (hv : v.Offers [n] f) (hs : w.shape = .ok (.ofShape t)) (ht : t.IsProper)
    (hw : (Item.view w).items = .ok (ps.map fun (p : Nat) => .int (p + o)))
    (hlt : ∀ p ∈ ps, (p : Int) < n) :
    ∃ u f', Item.select (.view v) [some (.view w)] (.int o) = .ok u ∧ StandsOn root r u t ∧
      u.prototype = v.prototype ∧ u.Offers t f' ∧
      ∀ (k : Nat) p, ps[k]? = some p → f' k = f p := by
  obtain ⟨hints, hindexes⟩ := Item.indexes_of_items hs ht hw hlt
  have hselects : Item.Selects (.int o) o [some (.view w)] [n] t :=
    Item.selects_single rfl hn hindexes hs
  obtain ⟨u, f', hu, hstands, hprototype, hoffers, hnamed⟩ := h.select_spec hselects hv
  refine ⟨u, f', hu, hstands, hprototype, hoffers, fun k p hk => ?_⟩
  have hholds : t.Holds k := by
    have hlen := Item.length_items hs hw
    have := (List.getElem?_eq_some_iff.mp hk).1
    rw [List.length_map] at hlen
    unfold Shape.Holds
    omega
  obtain ⟨i, hi, hnames, heq⟩ := hnamed k hholds
  have hlisted := Selection.getElem?_of_names (z := (Item.view w).asArgument "index") ht hn hs hints
    hholds hi hnames
  rw [Int.toNat_natCast, List.getElem?_map, hk, Option.map_some, Option.some.injEq] at hlisted
  rw [heq, (Int.add_left_inj o).mp hlisted]

end View

namespace Scalar

theorem eq_int_comm (k : Int) (s : Scalar) : (int k).eq s = s.eq (int k) := by
  cases s with
  | int m => exact BEq.comm
  | truth b => exact BEq.comm
  | _ => rfl

theorem eq_text_comm (u : String) (s : Scalar) : (text u).eq s = s.eq (text u) := by
  cases s with
  | text w => exact BEq.comm
  | _ => rfl

end Scalar

namespace Item

variable {x y z : Item} {xs ys : List Item} {s t : Shape} {n : Nat}

theorem sameFirst_cons_eq_true : sameFirst (n + 1) (x :: xs) (y :: ys) = .ok true ↔
    x.same y = .ok true ∧ sameFirst n xs ys = .ok true := by
  rw [sameFirst, bind_eq_ok]
  constructor
  · rintro ⟨b, hb, h⟩
    cases b with
    | false => cases h
    | true => exact ⟨hb, h⟩
  · rintro ⟨hb, h⟩
    exact ⟨true, hb, h⟩

theorem sameFirst_comm (h : ∀ x ∈ xs, ∀ y, x.same y = .ok true ↔ y.same x = .ok true) :
    sameFirst n xs ys = .ok true ↔ sameFirst n ys xs = .ok true := by
  induction n generalizing xs ys with
  | zero => simp [sameFirst]
  | succ n ih =>
      cases xs with
      | nil => cases ys <;> simp [sameFirst]
      | cons x xs =>
          cases ys with
          | nil => simp [sameFirst]
          | cons y ys =>
              obtain ⟨hx, hxs⟩ := List.forall_mem_cons.mp h
              rw [sameFirst_cons_eq_true, sameFirst_cons_eq_true, hx y, ih hxs]

/-- A discrete item is the same as what is the same as it. -/
theorem IsDiscrete.same_comm (hz : z.IsDiscrete) (y : Item) :
    z.same y = .ok true ↔ y.same z = .ok true := by
  induction hz generalizing y with
  | number k =>
      cases y with
      | scalar s => rw [same, same, Scalar.eq_int_comm]
      | _ => simp [same]
  | @character u _ =>
      cases y with
      | scalar s => rw [same, same, Scalar.eq_text_comm]
      | _ => simp [same]
  | @array g _ _ ih =>
      cases y with
      | array h =>
          obtain ⟨s, xs, f⟩ := g
          obtain ⟨t, ys, f'⟩ := h
          rw [same_array, same_array]
          by_cases hst : s = t
          · subst hst
            rw [if_pos rfl, if_pos rfl]
            exact sameFirst_comm ih
          · rw [if_neg hst, if_neg (Ne.symm hst)]
      | _ => simp [same]

theorem IsDiscrete.stored (hz : z.IsDiscrete) : z.stored.IsDiscrete := by
  cases hz with
  | number k => exact .number k
  | @character u hu =>
      have hstored : (text u).stored = text u := if_pos hu
      rw [hstored]
      exact .character hu
  | @array g hlen hitems =>
      rw [stored_array]
      unfold Grid.unboxed
      split
      · rename_i y _ hy
        split
        · exact .array hlen hitems
        · exact hitems y (by rw [hy]; exact List.mem_singleton_self y)
      · exact .array hlen hitems

theorem IsDiscrete.unfilled_stored (hz : z.IsDiscrete) : z.stored.unfilled = z.unfilled.stored := by
  cases hz with
  | number k => rfl
  | @character u hu =>
      have hstored : (text u).stored = text u := if_pos hu
      exact (congrArg unfilled hstored).trans hstored.symm
  | @array g _ _ =>
      obtain ⟨s, xs, f⟩ := g
      have hgrid (x : Item) : x.unfilled.isGrid = x.isGrid := by cases x <;> rfl
      match s, xs with
      | [], [x] =>
          rw [stored_array]
          simp only [Grid.unboxed, unfilled, unfilledAll, Item.stored, hgrid]
          split <;> rfl
      | [], [] => rfl
      | [], _ :: _ :: _ => rfl
      | _ :: _, _ => rfl

theorem IsDiscrete.same_stored [Platform] {ct : Tolerance} (hz : z.IsDiscrete) (hy : y.IsDiscrete)
    (h : near ct z y = .ok true) : z.stored.same y.stored = .ok true := by
  have hunfilled : z.unfilled = y.unfilled := (hz.tells_near ct hy).eq_true_iff.mp h
  refine (hz.stored.tells_same hy.stored).eq_true_iff.mpr ?_
  rw [hz.unfilled_stored, hy.unfilled_stored, hunfilled]

theorem same_stored_of_near [Platform] {ct : Tolerance} (hx : ∀ x ∈ xs, x.IsDiscrete)
    (hy : ∀ y ∈ ys, y.IsDiscrete) (h : List.Forall₂ (fun x y => near ct x y = .ok true) xs ys) :
    List.Forall₂ (fun x y => x.stored.same y.stored = .ok true) xs ys := by
  induction h with
  | nil => exact .nil
  | cons hnear _ ih =>
      obtain ⟨hx, hxs⟩ := List.forall_mem_cons.mp hx
      obtain ⟨hy, hys⟩ := List.forall_mem_cons.mp hy
      exact .cons (hx.same_stored hy hnear) (ih hxs hys)

theorem IsDiscrete.exists_endsAt [Platform] {ct : Tolerance} (hz : z.IsDiscrete)
    (hxs : ∀ x ∈ xs, x.IsDiscrete) : ∃ p, Lookup.EndsAt (near ct z) xs p := by
  have htest : ∀ x ∈ xs, ∃ b, near ct z x = .ok b := by
    intro x hx
    obtain ⟨b, hb, -⟩ := hz.tells_near ct (hxs x hx)
    exact ⟨b, hb⟩
  obtain ⟨k, hk⟩ := Lookup.exists_isFirst htest
  exact ⟨_, Lookup.endsAt_iff.mpr ⟨k, hk, rfl⟩⟩

theorem isDiscrete_of_collects {g : Grid Item} {f : Int → Item} (hg : g.Collects t f)
    (hd : ∀ i, t.Holds i → (f i).IsDiscrete) : (array g).IsDiscrete := by
  refine .array (hg.shape_eq ▸ hg.length_eq) fun y hy => ?_
  obtain ⟨k, hk⟩ := List.mem_iff_getElem?.mp hy
  have hi : t.Holds k := by
    have := (List.getElem?_eq_some_iff.mp hk).1
    have := hg.length_eq
    unfold Shape.Holds
    omega
  obtain ⟨kind, hcell⟩ := hg.cells k hi
  rw [Int.toNat_natCast, hk] at hcell
  have hdisc := hd k hi
  have htruth : ∀ b, f k ≠ truth b := by
    intro b hb
    rw [hb] at hdisc
    cases hdisc
  rw [Option.some.inj hcell, countedFor_eq_self htruth]
  exact hdisc.stored

theorem matched_iff_same {g h : Grid Item} {f f' : Int → Item} (hg : g.Collects t f)
    (hh : h.Collects t f') (hd : ∀ i, t.Holds i → (f i).IsDiscrete) :
    matched (array h) (array g) = .ok true ↔
      ∀ i, t.Holds i → (f i).stored.same (f' i).stored = .ok true := by
  have hdiscrete : (array g).IsDiscrete := isDiscrete_of_collects hg hd
  have hself : matched (array g) (array g) = .ok true :=
    (hdiscrete.tells_same hdiscrete).eq_true_iff.mpr rfl
  have hcells : Alike (array g) (array h) ↔ ∀ i, t.Holds i → Alike (f i).stored (f' i).stored :=
    hg.alike_iff hh
  have hsymm : matched (array h) (array g) = .ok true ↔ matched (array g) (array h) = .ok true :=
    (hdiscrete.same_comm (array h)).symm
  rw [hsymm, ← alike_iff_matched hself, hcells]
  refine forall₂_congr fun i hi => ⟨fun h => h.same_of_same_self ?_, .same⟩
  exact ((hd i hi).stored.tells_same (hd i hi).stored).eq_true_iff.mpr rfl

section

variable {a x : Item} {g gx : Grid Item} {as xs : List Item} {n o : Int} {ct : Tolerance}
  {w : View Item} {ps : List Nat}

/-- A selection from a vector by positions renders, and to the items there. -/
theorem exists_select_places (ha : a.lift.ShownAs g) (hg : g.shape = [n]) (has : a.items = .ok as)
    (hs : w.shape = .ok (.ofShape t)) (ht : t.IsProper)
    (hw : (view w).items = .ok (ps.map fun (p : Nat) => int (p + o)))
    (hlt : ∀ p ∈ ps, p < as.length) :
    ∃ u h f, select a [some (view w)] (.int o) = .ok u ∧ (view u).render = .ok (array h) ∧
      h.Collects t f ∧ (view u).items = .ok ((upTo t.size).map f) ∧
      ∀ (k : Nat) p, ps[k]? = some p → as[p]? = some (f k) := by
  obtain ⟨root, r, f, hready, hstands, hf, -⟩ := ha.presents.exists_ready_yields
  rw [hg] at hstands hf
  have hn : Shape.IsProper [n] := hf.isProper
  have has' : as = (upTo n).map f := by
    rw [items_lift, items_of_offers hf.toOffers, Shape.size_cons, Shape.size_nil, mul_one] at has
    exact (Except.ok.inj has).symm
  have hbelow : ∀ p ∈ ps, (p : Int) < n := by
    intro p hp
    have := hlt p hp
    rw [has', List.length_map, upTo, List.length_map, List.length_range] at this
    omega
  obtain ⟨u, f', hu, hstands', hprototype, hoffers, hselected⟩ :=
    hstands.select_positions hn hf.toOffers hs ht hw hbelow
  have hyields : u.Yields t f' := by
    refine ⟨hoffers, hstands'.isReady hready, fun _ => ?_⟩
    rw [hprototype]
    exact ha.fill
  obtain ⟨h, hr, hh⟩ := hyields.exists_render
  have ha0 : a ≠ nothing := by
    rintro rfl
    cases Extents.ofShape_inj (Except.ok.inj hf.shape)
  refine ⟨u, h, f', (select_lift ha0).trans hu, hr, hh, items_of_offers hoffers, fun k p hk => ?_⟩
  rw [hselected k p hk, has']
  exact getElem?_map_upTo f (i := (p : Int))
    ⟨by omega, hbelow p (List.mem_of_getElem? hk)⟩

/-- Each item is given the position of the first item of a vector that is equal to it within the
tolerance, and an item to which none is equal the position after the last one. If every item is
found, then what is selected by these positions has the shape of the array that has been looked up,
and its items are the ones that have been found. It matches that array exactly if each of them is
not only equal within the tolerance to the item for which it has been found, but the same. If the
items of the vector are discrete, too, then every search ends and what is selected always
matches. -/
theorem select_indexOf [Platform] (ha : a.lift.ShownAs g) (hg : g.shape = [n])
    (has : a.items = .ok as) (hx : x.lift.ShownAs gx) (hxs : x.items = .ok xs)
    (hdiscrete : ∀ z ∈ xs, z.IsDiscrete)
    (hends : (∀ y ∈ as, y.IsDiscrete) ∨ ∀ z ∈ xs, ∃ p, Lookup.EndsAt (near ct z) as p) :
    ∃ (ps : List Nat) (fill : Option Item),
      (view (indexOf a x (.int o) ct)).render =
        .ok (.array ⟨gx.shape, ps.map fun (p : Nat) => int (p + o), fill⟩) ∧
      List.Forall₂ (fun z p => Lookup.EndsAt (near ct z) as p) xs ps ∧
      ((∀ z ∈ xs, ∃ y ∈ as, near ct z y = .ok true) →
        ∃ w h ys, select a [some (view (indexOf a x (.int o) ct))] (.int o) = .ok w ∧
          (view w).render = .ok (.array h) ∧ h.shape = gx.shape ∧ (view w).items = .ok ys ∧
          List.Forall₂ (fun p y => as[p]? = some y) ps ys ∧
          List.Forall₂ (fun z y => near ct z y = .ok true) xs ys ∧
          (matched (array h) (array gx) = .ok true ↔
            List.Forall₂ (fun z y => z.stored.same y.stored = .ok true) xs ys) ∧
          ((∀ y ∈ as, y.IsDiscrete) → matched (array h) (array gx) = .ok true)) := by
  replace hends : ∀ z ∈ xs, ∃ p, Lookup.EndsAt (near ct z) as p :=
    hends.elim (fun h z hz => (hdiscrete z hz).exists_endsAt h) id
  obtain ⟨-, -, fa, -, hfa, -⟩ := ha.exists_yields
  obtain ⟨-, -, fx, -, hfx, hgx⟩ := hx.exists_yields
  have hshape : a.lift.shape = .ok (.ofShape [n]) := hg ▸ hfa.shape
  have hlists : a.Lists as := ⟨⟨[n], hshape, hg ▸ hfa.isProper, by simp⟩, has⟩
  have ht : gx.shape.IsProper := hfx.isProper
  obtain ⟨ps, hps⟩ := Lookup.exists_places hends
  obtain ⟨hs, hitems, fill, hrender⟩ :=
    indexOf_spec (o := o) hshape hlists hfx.shape ht hxs hps
  refine ⟨ps, fill, hrender, hps, fun hfound => ?_⟩
  have hlt := Lookup.lt_length_of_found hps hfound
  obtain ⟨w, h, f, hw, hr, hh, hys, hcell⟩ := exists_select_places ha hg has hs ht hitems hlt
  obtain rfl : xs = (upTo gx.shape.size).map fx := by
    rw [items_lift, items_of_offers hfx.toOffers] at hxs
    exact (Except.ok.inj hxs).symm
  -- the places that were found are the indices, so what is selected stands there
  have hplaces : List.Forall₂ (fun p y => as[p]? = some y) ps ((upTo gx.shape.size).map f) := by
    have hlen : ps.length = ((upTo gx.shape.size).map f).length := by
      rw [← hps.length_eq, List.length_map, List.length_map]
    refine List.forall₂_iff_get.mpr ⟨hlen, fun k hk hk' => ?_⟩
    have hy := hcell k _ (List.getElem?_eq_getElem hk)
    simpa [upTo] using hy
  -- each search has ended at an item that passed
  have hnear : List.Forall₂ (fun z y => near ct z y = .ok true) ((upTo gx.shape.size).map fx)
      ((upTo gx.shape.size).map f) := by
    rw [List.forall₂_map_left_iff, List.forall₂_map_right_iff, List.forall₂_same]
    intro i hi
    have hi : gx.shape.Holds i := mem_upTo.mp hi
    lift i to ℕ using hi.1
    obtain ⟨p, hp, hend⟩ := getElem?_forall₂ hps (getElem?_map_upTo fx hi)
    obtain ⟨y, hy, hnear⟩ := hend.exists_passes (hlt p (List.mem_of_getElem? hp))
    rwa [Option.some.inj ((hcell i p hp).symm.trans hy)]
  have hmatched : matched (array h) (array gx) = .ok true ↔
      List.Forall₂ (fun z y => z.stored.same y.stored = .ok true) ((upTo gx.shape.size).map fx)
        ((upTo gx.shape.size).map f) := by
    rw [List.forall₂_map_left_iff, List.forall₂_map_right_iff, List.forall₂_same]
    simp only [mem_upTo]
    exact matched_iff_same hgx hh fun i hi =>
      hdiscrete _ (List.mem_map_of_mem (mem_upTo.mpr hi))
  refine ⟨w, h, _, hw, hr, hh.shape_eq, hys, hplaces, hnear, hmatched, fun hvector => ?_⟩
  refine hmatched.mpr (same_stored_of_near hdiscrete (fun y hy => ?_) hnear)
  obtain ⟨k, hk⟩ := List.mem_iff_getElem?.mp hy
  obtain ⟨p, -, hp⟩ := getElem?_forall₂ hplaces.flip hk
  exact hvector y (List.mem_of_getElem? hp)

/-- Two words of which one comes twice, and a number. -/
def words : Grid Item := ⟨[4], [characters "if", int 7, characters "or", characters "if"], none⟩

/-- Two of these items, one below the other. -/
def twoOfThem : Grid Item := ⟨[2, 1], [characters "if", int 7], none⟩

theorem isDiscrete_characters (u : String) : (characters u).IsDiscrete := by
  refine .array (by simp [String.length_toList]) fun y hy => ?_
  obtain ⟨c, -, rfl⟩ := List.mem_map.mp hy
  exact .character (by simp)

theorem isKept_characters (u : String) : (characters u).IsKept := rfl

open scoped Usual in
theorem twoOfThem_select_indexOf :
    ∃ w h, select (array words) [some (view (indexOf (array words) (array twoOfThem) (.int 1)
        (int 7)))] (.int 1) = .ok w ∧
      (view w).render = .ok (array h) ∧ h.shape = [2, 1] ∧
      matched (array h) (array twoOfThem) = .ok true := by
  have kept : (int 7).IsKept := rfl
  have vector : (array words).lift.ShownAs words :=
    View.shownAs_ofGrid (View.isReady_ofGrid ⟨rfl, by simp [words, isKept_characters, kept]⟩
      (by simp [words, Shape.IsProper]) (by simp [words])) (by simp [words, Shape.IsProper])
  have column : (array twoOfThem).lift.ShownAs twoOfThem :=
    View.shownAs_ofGrid (View.isReady_ofGrid ⟨rfl, by simp [twoOfThem, isKept_characters, kept]⟩
      (by simp [twoOfThem, Shape.IsProper]) (by simp [twoOfThem]))
      (by simp [twoOfThem, Shape.IsProper])
  have discrete : ∀ y ∈ words.items, y.IsDiscrete := by
    simp [words, isDiscrete_characters, IsDiscrete.number]
  have listed : ∀ z ∈ twoOfThem.items, z.IsDiscrete ∧ z ∈ words.items := by
    simp [twoOfThem, words, isDiscrete_characters, IsDiscrete.number]
  obtain ⟨ps, fill, -, -, hselect⟩ := select_indexOf (o := 1) vector rfl rfl column rfl
    (fun z hz => (listed z hz).1) (.inl discrete)
  obtain ⟨w, h, _, hw, hr, hs, -, -, -, -, hmatched⟩ := hselect fun z hz =>
    ⟨z, (listed z hz).2, ((listed z hz).1.tells_near _ (listed z hz).1).eq_true_iff.mpr rfl⟩
  exact ⟨w, h, hw, hr, hs, hmatched discrete⟩

def neighbourAndOne : Grid Item := ⟨[2], [real (Float.ofBits 0x3ff0000000000001), int 1], none⟩

open scoped Usual in
set_option maxRecDepth 4000 in
/-- The neighbour is equal to one within the usual tolerance, but it does not match it. -/
theorem neighbourAndOne_select_indexOf :
    int 1 ∈ neighbourAndOne.items ∧ ∃ w, select (array neighbourAndOne)
        [some (view (indexOf (array neighbourAndOne) (ints [1]) (.int 0) defaultTolerance))]
        (.int 0) = .ok w ∧
      (view w).render = .ok (array ⟨[1], [real (Float.ofBits 0x3ff0000000000001)], none⟩) ∧
      matched (array ⟨[1], [real (Float.ofBits 0x3ff0000000000001)], none⟩)
        (array (Grid.ofList [int 1])) = .ok false :=
  ⟨by simp [neighbourAndOne], _, rfl, rfl, rfl⟩

end

end Item
end LazyApl
