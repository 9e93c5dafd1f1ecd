import LazyApl.Proofs.Catenating
/-!
# Putting together what has been cut apart

Parts of an array that lie one after another along an axis make up the array when they are joined
along it. The cells that a take shows and those that a drop of the same count leaves are two such
parts, whichever of them comes first.
-/
namespace LazyApl

open Outcome

namespace Join

variable {t : Shape} {a : Nat} {n o : Int} {ns : List Int} {first : Bool} {origin : Origin}

theorem takesPart_full (t : Shape) (a : Nat) (n : Int) : TakesPart t a n (t.set a n) :=
  ⟨.full, by simp [extended, Extents.ofShape]⟩

theorem own_full (ht : t ≠ []) (c : List Int) : own t (t.set a n) a c = c := by
  have hne : t.set a n ≠ [] := by simpa using ht
  rw [own, if_neg hne, if_neg (by simp)]

theorem isBetween_int (h : ∃ x, Number.double n = .ok x) :
    isBetween (some (.int n)) = .ok false := by
  obtain ⟨x, hx⟩ := h
  simp [isBetween, hx, bind, Except.bind, pure, Except.pure]

theorem foldl_max_replicate (k r : Nat) : (List.replicate k r).foldl max r = r := by
  induction k with
  | zero => rfl
  | succ k ih => rw [List.replicate_succ, List.foldl_cons, max_self, ih]

theorem extents_full (all : List Extents) (ha : a < t.length) (m : Int) (ns : List Int) :
    extents all (.ofShape (t.set a m)) a ((ns.map fun n => t.set a n).map .ofShape) =
      .ok (ns.map .int) := by
  induction ns with
  | nil => rfl
  | cons n ns ih =>
      have hfull : extended (.ofShape (t.set a m)) a (.ofShape (t.set a n)) =
          .ok (.ofShape (t.set a n)) := by
        simp [extended]
      have hown : (Extents.ofShape (t.set a n)).getD a 0 = .int n := by
        simp [Extents.ofShape, ha]
      rw [List.map_cons, List.map_cons, extents, hfull]
      simp only [bind, Except.bind, Extents.without_ofShape, Int.toNat_natCast,
        List.eraseIdx_set_eq, Extents.eq_ofShape, beq_self_eq_true, if_true, ih, hown]
      rfl

/-- The layout of arrays that differ along the join axis only. -/
theorem layout_full (ho : origin.number = .ok (.int o)) (ha : a < t.length) (hns : ns ≠ [])
    (hb : isBetween (some (.int (o + a))) = .ok false) :
    layout ((ns.map fun n => t.set a n).map .ofShape) (some (.int (o + a))) first origin =
      .ok ⟨a, (starts ns).map .int, .ofShape (t.set a ns.sum)⟩ := by
  obtain ⟨m, rest, rfl⟩ := List.exists_cons_of_ne_nil hns
  have haxis : o + a - o = (a : Int) := by omega
  have hlocated : (AxisArgument.whole (o + a)).located t.length origin = .ok (.int a) := by
    rw [AxisArgument.located_eq ho (by omega), haxis]
  have hlengths : (((m :: rest).map fun n => t.set a n).map Extents.ofShape).map List.length =
      List.replicate (rest.length + 1) t.length := by
    simp [List.eq_replicate_iff]
  have hrank : max ((List.replicate (rest.length + 1) t.length).foldl max 0) 1 = t.length := by
    rw [List.replicate_succ, List.foldl_cons, Nat.zero_max, foldl_max_replicate]
    omega
  have href : reference (((m :: rest).map fun n => t.set a n).map .ofShape) t.length a =
      .ofShape (t.set a m) := by
    simp [reference]
  have hextents := extents_full (((m :: rest).map fun n => t.set a n).map .ofShape) ha m (m :: rest)
  have htotals := totals_zero (m :: rest)
  generalize ((m :: rest).map fun n => t.set a n).map Extents.ofShape = shapes at *
  simp only [layout, hb, aligned, hlengths, hrank, along, Scalar.number_int, hlocated, href,
    hextents, htotals, bind, Except.bind, pure, Except.pure]
  rw [List.dropLast_concat, List.getLastD_concat, Extents.replaced_ofShape, Int.toNat_natCast,
    List.set_set]

end Join

namespace Item

variable {t : Shape} {a : Nat} {o : Int} {ns : List Int} {origin : Origin} {front : Item}
  {rest : List Item} {F : List Int → Item}

/-- Arrays that offer the parts of some items, one after another along an axis, offer all of them
when they are joined along it. -/
theorem exists_catenate_offered (first : Bool) (ht : t.IsProper) (ha : a < t.length)
    (hns : ∀ n ∈ ns, 0 ≤ n) (hl : (front :: rest).length = ns.length)
    (hx : ∀ (k : Nat) (x : Item) (n : Int), (front :: rest)[k]? = some x → ns[k]? = some n →
      x.lift.OffersAt (t.set a n) fun c => F (c.set a (c.getD a 0 + (ns.take k).sum)))
    (hfront : front.lift.IsReady) (ho : origin.number = .ok (.int o))
    (hb : Join.isBetween (some (.int (o + a))) = .ok false) :
    ∃ w, catenate (front :: rest) (some (.int (o + a))) first origin = .ok w ∧ w.IsReady ∧
      w.prototype = front.lift.prototype ∧ w.OffersAt (t.set a ns.sum) F := by
  have hne : ns ≠ [] := List.ne_nil_of_length_pos (by rw [← hl]; exact Nat.succ_pos _)
  have hoffers : List.Forall₂ (fun x s => ∃ G, x.lift.OffersAt s G) (front :: rest)
      (ns.map fun n => t.set a n) := by
    rw [List.forall₂_map_right_iff, List.forall₂_iff_get]
    refine ⟨hl, fun k hk hk' => ⟨_, hx k _ _ (List.getElem?_eq_getElem hk) ?_⟩⟩
    exact List.getElem?_eq_getElem hk'
  have haligns : Join.Aligns (ns.map fun n => t.set a n)
      ⟨a, (Join.starts ns).map .int, .ofShape (t.set a ns.sum)⟩ t a ns := by
    refine ⟨ht, ha, hns, ?_, rfl⟩
    rw [List.forall₂_map_right_iff, List.forall₂_same]
    exact fun n _ => Join.takesPart_full t a n
  obtain ⟨w, G, hw, hready, hproto, hG, hcells⟩ :=
    exists_catenate_offers hoffers hfront hb (Join.layout_full ho ha hne hb) haligns
  refine ⟨w, hw, hready, hproto, hG.congr haligns.isProper_whole fun c hc => ?_⟩
  -- each cell of the join is one of a part, and stands where the part has it from
  obtain ⟨k, n, d, hn, hd, hdot⟩ := Join.exists_part ht ha hns hc.holds
  have hmoved := Join.within_part ha hns hn hd
  have hk : k < (front :: rest).length := by
    rw [hl]
    exact (List.getElem?_eq_some_iff.mp hn).1
  obtain rfl : d.set a (d.getD a 0 + (ns.take k).sum) = c := by
    rw [← Shape.coordinates_dot hmoved, hdot, Shape.coordinates_dot hc]
  have hpart := List.getElem?_eq_getElem hk
  rw [hcells k _ _ n _ hpart (by simp [hn]) hn (hx k _ n hpart hn) d hd,
    Join.own_full (List.ne_nil_of_length_pos (by omega))]

theorem exists_catenate_parts (first : Bool) (ht : t.IsProper) (ha : a < t.length)
    (hns : ∀ n ∈ ns, 0 ≤ n) (hl : (front :: rest).length = ns.length)
    (hx : ∀ (k : Nat) (x : Item) (n : Int), (front :: rest)[k]? = some x → ns[k]? = some n →
      x.lift.LaysOut (t.set a n) fun c => F (c.set a (c.getD a 0 + (ns.take k).sum)))
    (hfill : ∃ p, front.lift.prototype = .ok p) (ho : origin.number = .ok (.int o))
    (hb : Join.isBetween (some (.int (o + a))) = .ok false) :
    ∃ w, catenate (front :: rest) (some (.int (o + a))) first origin = .ok w ∧
      w.LaysOut (t.set a ns.sum) F := by
  have hpos : 0 < ns.length := by
    rw [← hl]
    exact Nat.succ_pos _
  have hfront := (hx 0 front ns[0] rfl (List.getElem?_eq_getElem hpos)).ready
  obtain ⟨w, hw, hready, hproto, hoffers⟩ := exists_catenate_offered first ht ha hns hl
    (fun k x n hk hn => (hx k x n hk hn).offersAt) hfront ho hb
  exact ⟨w, hw, hoffers, hready, fun _ => hproto ▸ hfill⟩

end Item

namespace View

variable {root : Root Item} {r t : Shape} {v : View Item} {F : List Int → Item} {a : Nat}
  {m n o k : Int} {first : Bool} {origin : Origin}

/-- Two sections that meet are joined to the array. -/
theorem LaysOut.catenate_cuts (h : v.LaysOut t F) (hs : StandsOn root r v t) (ha : t[a]? = some n)
    (hm : 0 ≤ m ∧ m ≤ n) {front back : View Item} {style style' : Cut} {drop drop' : Bool}
    {count count' : Int}
    (hfront : front = v.under (.cut style drop [count] (some [(a : Int)])))
    (hback : back = v.under (.cut style' drop' [count'] (some [(a : Int)])))
    (hspan : Span.cut drop count n = ⟨0, m, 0, 0⟩)
    (hspan' : Span.cut drop' count' n = ⟨m, n, 0, 0⟩) (hp : ∃ p, v.prototype = .ok p)
    (ho : origin.number = .ok (.int o)) (hb : Join.isBetween (some (.int (o + a))) = .ok false) :
    ∃ w, Item.catenate [.view front, .view back] (some (.int (o + a))) first origin = .ok w ∧
      w.LaysOut t F := by
  obtain ⟨hlt, hget⟩ := List.getElem?_eq_some_iff.mp ha
  have hlays := h.cut hs ha hspan rfl (fun _ => hp) style
  have hlays' := h.cut hs ha hspan' rfl (fun _ => hp) style'
  rw [Span.extent_cells, sub_zero, ← hfront] at hlays
  rw [Span.extent_cells, ← hback] at hlays'
  have hparts : ∀ (k : Nat) (x : Item) (l : Int), [Item.view front, .view back][k]? = some x →
      [m, n - m][k]? = some l → x.lift.LaysOut (t.set a l) fun c =>
        F (c.set a (c.getD a 0 + ([m, n - m].take k).sum))
    | 0, _, _, rfl, rfl => hlays
    | 1, _, _, rfl, rfl => by simpa [Item.lift] using hlays'
  have hfill : ∃ p, (Item.view front).lift.prototype = .ok p := by
    rw [hfront, Item.lift, prototype_under rfl]
    exact hp
  have hjoin := Item.exists_catenate_parts first (Yields.isProper h) hlt (by simp [hm]) rfl hparts
    hfill ho hb
  have hsum : [m, n - m].sum = n := by simp
  rwa [hsum, ← hget, List.set_getElem_self] at hjoin

/-- A take and a drop of the same count, of at most as many cells as there are along the axis, are
complementary: joined along the axis, the part first that comes first, they are alike to the array.
The number of the axis has to be one that a double can hold. -/
theorem ShownAs.catenate_take_drop {g : Grid Item} (h : v.ShownAs g) (ha : g.shape[a]? = some n)
    (hk : -n ≤ k ∧ k ≤ n) (ho : origin.number = .ok (.int o))
    (hb : ∃ x, Number.double (o + a) = .ok x) (first : Bool) :
    ∃ taken dropped w x,
      Item.take (.view v) (.int k) (some (.int (o + a))) origin = .ok taken ∧
      Item.drop (.view v) (.int k) (some (.int (o + a))) origin = .ok dropped ∧
      Item.catenate (if 0 ≤ k then [.view taken, .view dropped] else [.view dropped, .view taken])
        (some (.int (o + a))) first origin = .ok w ∧
      (Item.view w).render = .ok x ∧ Item.Alike x (.array g) := by
  obtain ⟨root, r, f, hs, hf, hg⟩ := h.exists_yields
  have hlt := (List.getElem?_eq_some_iff.mp ha).1
  have hbetween := Join.isBetween_int hb
  have htake : Item.take (.view v) (.int k) (some (.int (o + a))) origin = .ok _ :=
    cut_along hf.shape ho hlt
  have hdrop : Item.drop (.view v) (.int k) (some (.int (o + a))) origin = .ok _ :=
    cut_along hf.shape ho hlt
  generalize htaken : v.under (.cut .take false [k] (some [(a : Int)])) = taken at htake
  generalize hdropped : v.under (.cut .drop true [k] (some [(a : Int)])) = dropped at hdrop
  obtain ⟨w, hw, hlays⟩ : ∃ w, Item.catenate
      (if 0 ≤ k then [.view taken, .view dropped] else [.view dropped, .view taken])
        (some (.int (o + a))) first origin = .ok w ∧
      w.LaysOut g.shape fun c => f (Shape.dot c g.shape.strides) := by
    by_cases h0 : 0 ≤ k
    · obtain ⟨hfront, hback⟩ := Span.cut_of_nonneg h0 hk.2
      rw [if_pos h0]
      exact hf.laysOut.catenate_cuts hs ha ⟨h0, hk.2⟩ htaken.symm hdropped.symm hfront hback h.fill
        ho hbetween
    · obtain ⟨hfront, hback⟩ := Span.cut_of_neg (not_le.mp h0) hk.1
      rw [if_neg h0]
      exact hf.laysOut.catenate_cuts hs ha (by omega) hdropped.symm htaken.symm hfront hback h.fill
        ho hbetween
  obtain ⟨u, hu, hcollects⟩ := hlays.exists_render
  exact ⟨taken, dropped, w, _, htake, hdrop, hw, hu, hcollects.alike hg fun i hi =>
    congrArg f (Shape.dot_coordinates hf.isProper hi)⟩

/-- The numbers from one to six in three rows of two. -/
def threeRows : Grid Item := Grid.of [3, 2] ([1, 2, 3, 4, 5, 6].map Item.int) none

/-- The last row is taken, and put back behind the other two. -/
theorem threeRows_catenate_take_drop :
    ∃ taken dropped w x,
      Item.take (.view (ofGrid threeRows)) (.int (-1)) (some (.int 1)) (.int 1) = .ok taken ∧
      (Item.view taken).render = .ok (.array (Grid.of [1, 2] ([5, 6].map Item.int) none)) ∧
      Item.drop (.view (ofGrid threeRows)) (.int (-1)) (some (.int 1)) (.int 1) = .ok dropped ∧
      Item.catenate [.view dropped, .view taken] (some (.int 1)) false (.int 1) = .ok w ∧
      (Item.view w).render = .ok x ∧ Item.Alike x (.array threeRows) := by
  have ready : (ofGrid threeRows).IsReady := isReady_ofNumbers (by simp [Shape.IsProper]) rfl
  have shown := shownAs_ofGrid ready (by simp [threeRows, Grid.of, Shape.IsProper])
  have origin : Scalar.number (.int 1) = .ok (.int 1) := rfl
  obtain ⟨taken, dropped, w, x, htake, hdrop, hw, hx, halike⟩ :=
    shown.catenate_take_drop (a := 0) (n := 3) (k := -1) rfl (by omega) origin ⟨_, rfl⟩ false
  cases htake
  exact ⟨_, dropped, w, x, rfl, rfl, hdrop, hw, hx, halike⟩

end View
end LazyApl
