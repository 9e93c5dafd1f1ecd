import LazyApl.Proofs.Contents
import LazyApl.Proofs.Transposing
/-!
# The axes of mixed items

Items of different shapes are extended to the greatest rank, with ones in front, and held by the
least shape that is as long along each axis as any of them. A cell of the mix is a cell of the item
that the leading coordinates name, if the trailing ones lie within the extended shape of that item.
Elsewhere it is the fill of the item.
-/
namespace LazyApl

open Outcome

theorem EType.eq_nil_of_joinAll {ts : List EType} (h : joinAll ts = none) : ts = [] := by
  cases ts with
  | nil => rfl
  | cons t ts =>
      rw [joinAll_cons] at h
      cases h

namespace Shape

/-- A shape with ones in front, up to a rank. -/
def raised (r : Nat) (t : Shape) : Shape := List.replicate (r - t.length) 1 ++ t

theorem length_raised {r : Nat} {t : Shape} (h : t.length ≤ r) : (raised r t).length = r := by
  rw [raised, List.length_append, List.length_replicate]
  omega

theorem raised_self (t : Shape) : raised t.length t = t := by simp [raised]

theorem size_raised (r : Nat) (t : Shape) : (raised r t).size = t.size := by
  have hones := size_ones (List.replicate (r - t.length) ())
  rw [List.map_replicate] at hones
  rw [raised, size_append, hones, one_mul]

theorem Within.holds_raised {r : Nat} {t : Shape} {d : List Int} (h : (t.raised r).Within d) :
    t.Holds (dot d (t.raised r).strides) :=
  h.holds.of_size (size_raised r t).symm

theorem IsProper.raised {t : Shape} (h : t.IsProper) (r : Nat) : (raised r t).IsProper := by
  intro n hn
  rcases List.mem_append.mp hn with hn | hn
  · rw [List.eq_of_mem_replicate hn]
    exact Int.one_nonneg
  · exact h n hn

end Shape

namespace Mix

variable {ts : List Shape} {r : Nat} {m s t : Shape} {c d : List Int} {xs : List Item}

/-- The least shape that holds some shapes of one rank: the greatest extent along each axis. -/
structure IsHull (ts : List Shape) (m : Shape) : Prop where
  le : ∀ t ∈ ts, List.Forall₂ (· ≤ ·) t m
  attained : ∀ k < m.length, ∃ t ∈ ts, t[k]? = m[k]?

/-- The greatest rank of some shapes, and the least shape that holds them all when they are extended
to this rank. -/
structure Unites (ts : List Shape) (r : Nat) (m : Shape) : Prop where
  rank_le : ∀ t ∈ ts, t.length ≤ r
  rank_attained : r = 0 ∨ ∃ t ∈ ts, t.length = r
  hull : IsHull (ts.map (Shape.raised r)) m

theorem IsHull.singleton (t : Shape) : IsHull [t] t :=
  ⟨by simp [List.forall₂_same], fun k _ => ⟨t, List.mem_singleton_self t, rfl⟩⟩

/-- The least shape that holds some shapes grows to hold another one. -/
theorem IsHull.append (h : IsHull ts m) (hl : m.length = t.length) :
    IsHull (ts ++ [t]) (List.zipWith max m t) := by
  have hlen : (List.zipWith max m t).length = m.length := by simp [hl]
  have hget (k : Nat) (hk : k < m.length) (hk' : k < t.length) :
      (List.zipWith max m t)[k]? = some (max m[k] t[k]) := by
    simp [hk, hk']
  refine ⟨fun u hu => List.forall₂_iff_get.mpr ?_, fun k hk => ?_⟩
  · rcases List.mem_append.mp hu with hu | hu
    · obtain ⟨hul, hle⟩ := List.forall₂_iff_get.mp (h.le u hu)
      refine ⟨hul.trans hlen.symm, fun k hk hk' => ?_⟩
      have hle := hle k hk (hlen ▸ hk')
      simp only [List.get_eq_getElem, List.getElem_zipWith] at hle ⊢
      exact hle.trans (le_max_left _ _)
    · obtain rfl := List.mem_singleton.mp hu
      refine ⟨hl.symm.trans hlen.symm, fun k hk hk' => ?_⟩
      simp only [List.get_eq_getElem, List.getElem_zipWith]
      exact le_max_right _ _
  · have hk : k < m.length := hlen ▸ hk
    have hk' : k < t.length := hl ▸ hk
    rcases le_total t[k] m[k] with hle | hle
    · obtain ⟨u, hu, hattained⟩ := h.attained k hk
      refine ⟨u, List.mem_append_left _ hu, ?_⟩
      rw [hattained, hget k hk hk', max_eq_left hle, List.getElem?_eq_getElem hk]
    · refine ⟨t, List.mem_append_right _ (List.mem_singleton_self t), ?_⟩
      rw [hget k hk hk', max_eq_right hle, List.getElem?_eq_getElem hk']

theorem greater_ofShape (h : s.length = t.length) :
    greater (.ofShape s) (.ofShape t) = .ok (.ofShape (List.zipWith max s t)) := by
  induction s generalizing t with
  | nil =>
      obtain rfl := List.length_eq_zero_iff.mp h.symm
      rfl
  | cons n s ih =>
      cases t with
      | nil => cases h
      | cons p t =>
          have hcons (q : Int) (u : Shape) :
              Extents.ofShape (q :: u) = .int q :: Extents.ofShape u := rfl
          simp only [hcons, greater, Number.greater_int, ih (Nat.succ.inj h), bind, Except.bind]
          rfl

/-- The greatest extent along each axis, of shapes of one rank. -/
theorem exists_greatest (hl : ∀ t ∈ ts, t.length = r) :
    ∃ m, greatest (ts.map Extents.ofShape) = .ok (.ofShape m) ∧ IsHull ts m := by
  -- the shapes that have been looked at are held by the greatest extents so far
  have hfold : ∀ us m, m.length = r → IsHull us m → ∀ rest : List Shape,
      (∀ t ∈ rest, t.length = r) → ∃ m',
        (rest.map Extents.ofShape).foldlM greater (Extents.ofShape m) = .ok (.ofShape m') ∧
          IsHull (us ++ rest) m' := by
    intro us m hm hhull rest hrest
    induction rest generalizing us m with
    | nil => exact ⟨m, rfl, (List.append_nil us).symm ▸ hhull⟩
    | cons t rest ih =>
        obtain ⟨ht, hrest⟩ := List.forall_mem_cons.mp hrest
        obtain ⟨m', hm', hhull'⟩ := ih (us ++ [t]) (List.zipWith max m t) (by simp [hm, ht])
          (hhull.append (hm.trans ht.symm)) hrest
        refine ⟨m', ?_, by simpa using hhull'⟩
        rw [List.map_cons, List.foldlM_cons, greater_ofShape (hm.trans ht.symm)]
        exact hm'
  cases ts with
  | nil => exact ⟨[], rfl, nofun, nofun⟩
  | cons t ts =>
      obtain ⟨ht, hl⟩ := List.forall_mem_cons.mp hl
      exact hfold [t] t ht (.singleton t) ts hl

theorem extended_ofShape (r : Nat) (t : Shape) :
    extended r (.ofShape t) = .ofShape (t.raised r) := by
  simp [extended, Shape.raised, Extents.ofShape]

/-- What the items are extended to and held by. -/
theorem exists_inner (ts : List Shape) : ∃ r m, Unites ts r m ∧
    inner (ts.map Extents.ofShape) = .ok ((ts.map (Shape.raised r)).map .ofShape, .ofShape m) := by
  obtain ⟨r, hr⟩ : ∃ r, (ts.map List.length).foldl max 0 = r := ⟨_, rfl⟩
  have hrank : (∀ t ∈ ts, t.length ≤ r) ∧ (r = 0 ∨ ∃ t ∈ ts, t.length = r) := by
    rw [List.foldl_max, Nat.zero_max] at hr
    cases hmax : (ts.map List.length).max? with
    | none =>
        obtain rfl : ts = [] := by simpa using hmax
        rw [hmax] at hr
        exact ⟨nofun, .inl hr.symm⟩
    | some n =>
        rw [hmax, Option.getD_some] at hr
        obtain ⟨hn, hle⟩ := List.max?_eq_some_iff.mp hmax
        exact hr ▸ ⟨fun t ht => hle _ (List.mem_map_of_mem ht), .inr (List.mem_map.mp hn)⟩
  obtain ⟨hle, hattained⟩ := hrank
  have hraised : ∀ u ∈ ts.map (Shape.raised r), u.length = r := by
    intro u hu
    obtain ⟨t, ht, rfl⟩ := List.mem_map.mp hu
    exact Shape.length_raised (hle t ht)
  obtain ⟨m, hm, hhull⟩ := exists_greatest hraised
  have hlengths : (ts.map Extents.ofShape).map List.length = ts.map List.length := by simp
  have hextended : (ts.map Extents.ofShape).map (extended r) =
      (ts.map (Shape.raised r)).map .ofShape := by
    simp [extended_ofShape]
  refine ⟨r, m, ⟨hle, hattained, hhull⟩, ?_⟩
  simp only [inner, hlengths, hr, hextended, hm, bind, Except.bind]
  rfl

theorem isOutside_within (h : t.Within d) : isOutside (d.map .int) (.ofShape t) = .ok false := by
  induction h with
  | nil => rfl
  | @cons n x s c hx _ ih =>
      have hcons : Extents.ofShape (n :: s) = .int n :: Extents.ofShape s := rfl
      have hle : ¬ n ≤ x := by omega
      simp only [hcons, List.map_cons, isOutside, Number.le_int, hle, decide_false, bind,
        Except.bind, ih]
      rfl

theorem isOutside_of_not_within (hd : m.Within d) (hl : t.length = m.length)
    (h : ¬ t.Within d) : isOutside (d.map .int) (.ofShape t) = .ok true := by
  induction hd generalizing t with
  | nil =>
      obtain rfl := List.length_eq_zero_iff.mp hl
      exact absurd List.Forall₂.nil h
  | @cons n x s c hx _ ih =>
      cases t with
      | nil => cases hl
      | cons p t =>
          have hcons : Extents.ofShape (p :: t) = .int p :: Extents.ofShape t := rfl
          by_cases hp : p ≤ x
          · simp only [hcons, List.map_cons, isOutside, Number.le_int, hp, decide_true, bind,
              Except.bind]
            rfl
          · have hrest := ih (Nat.succ.inj hl) fun hc => h (.cons ⟨hx.1, not_le.mp hp⟩ hc)
            simp only [hcons, List.map_cons, isOutside, Number.le_int, hp, decide_false, bind,
              Except.bind, hrest]
            rfl

theorem Unites.length_eq (h : Unites ts r m) (hne : ts ≠ []) : m.length = r := by
  obtain ⟨t, rest, rfl⟩ := List.exists_cons_of_ne_nil hne
  have hle := (h.hull.le _ (List.mem_map_of_mem List.mem_cons_self)).length_eq
  rw [← hle, Shape.length_raised (h.rank_le t List.mem_cons_self)]

/-- What a mix shows of an item with axes at coordinates: the cell there, or the fill of the item if
there is none. Without coordinates, an item that is no array shows itself. -/
def shown (t : Shape) (x : Item) (d : List Int) : Except Fault Item :=
  if t.Within d then
    if d = [] then do if ← x.isArray then x.elementAt 0 else return x
    else x.elementAt (.int (Shape.dot d t.strides))
  else x.prototypeOf

theorem shown_within {x : Item} (hd : t.Within d) (ht : t ≠ []) :
    shown t x d = x.elementAt (.int (Shape.dot d t.strides)) := by
  have hne : d ≠ [] := by
    rintro rfl
    cases hd
    exact ht rfl
  rw [shown, if_pos hd, if_neg hne]

/-- How a cell is looked up: a single item is disclosed, and a fill stands outside of the shape. -/
theorem shown_eq {u : Shape} (hd : m.Within d) (hl : u.length = m.length) :
    (if d = [] then do if ← x.isArray then x.elementAt 0 else return x
      else do
        if ← isOutside (d.map .int) (.ofShape u) then x.prototypeOf
        else x.elementAt (← Extents.position (.ofShape u) (d.map .int))) = shown u x d := by
  have hplace : (Extents.ofShape u).position (d.map .int) = .ok (.int (Shape.dot d u.strides)) := by
    rw [Extents.position_ofShape, Shape.position_eq_dot (hd.length_eq.trans hl.symm)]
  have hout : isOutside (d.map .int) (.ofShape u) = .ok (!decide (u.Within d)) := by
    by_cases h : u.Within d
    · rw [isOutside_within h, decide_eq_true h, Bool.not_true]
    · rw [isOutside_of_not_within hd hl h, decide_eq_false h, Bool.not_false]
  have hnil : d = [] → u.Within d := by
    rintro rfl
    cases hd
    rw [List.length_eq_zero_iff.mp hl]
    exact .nil
  rw [hout, hplace, shown]
  by_cases h : d = []
  · rw [if_pos h, if_pos (hnil h), if_pos h]
  · rw [if_neg h, if_neg h]
    by_cases hw : u.Within d
    · rw [decide_eq_true hw, if_pos hw]
      rfl
    · rw [decide_eq_false hw, if_neg hw]
      rfl

/-- The leading coordinates name an item of the mix, and the trailing ones a place in it. -/
theorem exists_cell (hu : Unites ts r m) (hl : (xs.length : Int) = s.size)
    (hlt : ts.length = xs.length) (hc : s.Within c) (hd : m.Within d) :
    ∃ x t, xs[(Shape.dot c s.strides).toNat]? = some x ∧
      ts[(Shape.dot c s.strides).toNat]? = some t ∧
      cell (.ofShape s) ((ts.map (Shape.raised r)).map .ofShape) (.ofShape m) xs
          (.int (Shape.dot (c ++ d) (s ++ m).strides)) = shown (t.raised r) x d := by
  have hcd : (s ++ m).Within (c ++ d) := List.rel_append hc hd
  have hb := hc.holds
  have hk : (Shape.dot c s.strides).toNat < xs.length := by
    unfold Shape.Holds at hb
    omega
  have hkt : (Shape.dot c s.strides).toNat < ts.length := hlt ▸ hk
  -- without leading axes there is one item, and its position is not computed
  have hfirst (h : (Extents.ofShape s).isEmpty = true) :
      (0 : Number) = .int (Shape.dot c s.strides) := by
    obtain rfl : s = [] := by simpa [Extents.ofShape] using h
    cases hc
    rfl
  obtain ⟨x, hx⟩ : ∃ x, xs[(Shape.dot c s.strides).toNat]? = some x :=
    ⟨_, List.getElem?_eq_getElem hk⟩
  obtain ⟨t, ht⟩ : ∃ t, ts[(Shape.dot c s.strides).toNat]? = some t :=
    ⟨_, List.getElem?_eq_getElem hkt⟩
  have hitem : pickAt xs (Shape.dot c s.strides) = .ok x := (pickAt_ok hb.1).mpr hx
  have hpadded : pickAt ((ts.map (Shape.raised r)).map Extents.ofShape) (Shape.dot c s.strides) =
      .ok (.ofShape (t.raised r)) := by
    rw [pickAt_ok hb.1]
    simp [ht]
  have hraised : (t.raised r).length = m.length :=
    (hu.hull.le _ (List.mem_map_of_mem (List.mem_of_getElem? ht))).length_eq
  have happend : Extents.ofShape s ++ Extents.ofShape m = Extents.ofShape (s ++ m) := by
    simp [Extents.ofShape]
  have hleft : (c ++ d).take s.length = c := by rw [← hc.length_eq, List.take_left]
  have hright : (c ++ d).drop s.length = d := by rw [← hc.length_eq, List.drop_left]
  have hempty : (Extents.ofShape m).isEmpty = true ↔ d = [] := by
    simp [Extents.ofShape, ← List.length_eq_zero_iff, hd.length_eq]
  refine ⟨x, t, hx, ht, ?_⟩
  rw [← shown_eq hd hraised]
  simp only [cell, happend, Extents.coordinates_ofShape, Shape.coordinates_dot hcd,
    Extents.length_ofShape, ← List.map_take, ← List.map_drop, hleft, hright, bind, Except.bind,
    hempty]
  split
  · rename_i h
    simp only [pure, Except.pure, hfirst h, pickBy_int, hitem, hpadded]
  · simp only [Extents.position_ofShape, Shape.position_eq_dot hc.length_eq, pickBy_int, hitem,
      hpadded]

/-- Shapes that are all the same need no extension, and the shape holds them all. -/
theorem Unites.eq_of_replicate {n : Nat} (h : Unites (List.replicate (n + 1) t) r m) :
    r = t.length ∧ m = t := by
  have hall : ∀ u ∈ List.replicate (n + 1) t, u = t := fun _ => List.eq_of_mem_replicate
  have hmem : t ∈ List.replicate (n + 1) t := by simp
  obtain rfl : r = t.length := by
    have hle := h.rank_le t hmem
    rcases h.rank_attained with h0 | ⟨u, hu, rfl⟩
    · omega
    · rw [hall u hu]
  refine ⟨rfl, List.ext_getElem? fun k => ?_⟩
  have hraised : ∀ u ∈ (List.replicate (n + 1) t).map (Shape.raised t.length), u = t := by
    intro u hu
    obtain ⟨u', hu', rfl⟩ := List.mem_map.mp hu
    rw [hall u' hu', Shape.raised_self]
  have hlen := (h.hull.le _ (List.mem_map_of_mem hmem)).length_eq
  rw [Shape.raised_self] at hlen
  by_cases hk : k < m.length
  · obtain ⟨u, hu, hattained⟩ := h.hull.attained k hk
    rw [← hattained, hraised u hu]
  · rw [List.getElem?_eq_none (not_lt.mp hk), List.getElem?_eq_none (hlen ▸ not_lt.mp hk)]

end Mix

namespace View

variable {v : View Item} {s m : Shape} {xs : List Item} {ts : List Shape}

/-- An array of items that have whole extents, one for each cell. -/
structure Mixes (v : View Item) (s : Shape) (xs : List Item) (ts : List Shape) : Prop where
  shape : v.shape = .ok (.ofShape s)
  items : Item.unrendered v = .ok xs
  shapes : List.Forall₂ (fun x t => x.shapeOf = .ok (.ofShape t)) xs ts

theorem Mixes.length_eq (h : v.Mixes s xs ts) : xs.length = s.size.toNat := by
  obtain ⟨gen, hgen, hitems⟩ := bind_eq_ok.mp h.items
  simp only [count, h.shape, Extents.count_ofShape, bind, Except.bind] at hitems
  exact (mapM_upTo hitems).1

theorem Mixes.exists_item (h : v.Mixes s xs ts) {k : Int} (hk : s.Holds k) :
    ∃ x, xs[k.toNat]? = some x := by
  have hlt := (Int.toNat_lt_toNat hk.size_pos).mpr hk.2
  rw [← h.length_eq] at hlt
  exact ⟨_, List.getElem?_eq_getElem hlt⟩

theorem Mixes.length_eq_size (h : v.Mixes s xs ts) (hs : s.IsProper) :
    (xs.length : Int) = s.size := by
  rw [h.length_eq, Int.toNat_of_nonneg (Shape.size_nonneg hs)]

/-- A mix has the axes of the array and then those that the items are extended to. Its cells are
shown by the items. -/
theorem Mixes.mix_spec (h : v.Mixes s xs ts) (hs : s.IsProper) :
    ∃ r m, Mix.Unites ts r m ∧ (Item.mix (.view v)).shape = .ok (.ofShape (s ++ m)) ∧
      ∃ cells, (Item.mix (.view v)).generator = .ok cells ∧
        ∀ c d, s.Within c → m.Within d → ∃ x t,
          xs[(Shape.dot c s.strides).toNat]? = some x ∧
          ts[(Shape.dot c s.strides).toNat]? = some t ∧
          cells.cell (.int (Shape.dot (c ++ d) (s ++ m).strides)) =
            Mix.shown (t.raised r) x d := by
  obtain ⟨r, m, hunites, hinner⟩ := Mix.exists_inner ts
  have hbased : (Item.view v).based = v := rfl
  have hmembers : xs.mapM Item.shapeOf = .ok (ts.map Extents.ofShape) := by
    rw [mapM_eq_ok, List.forall₂_map_right_iff]
    exact h.shapes
  refine ⟨r, m, hunites, ?_, .indexed (Mix.cell (.ofShape s)
    ((ts.map (Shape.raised r)).map .ofShape) (.ofShape m) xs), ?_, fun c d hc hd => ?_⟩
  · simp only [Item.mix, shape_computed, Lazy.get_delay, Lazy.get_keep, hbased, h.shape, h.items,
      bind, Except.bind, hmembers, hinner]
    simp [Extents.ofShape, pure, Except.pure]
  · simp only [Item.mix, generator_computed, Lazy.get_keep, hbased, h.shape, h.items, bind,
      Except.bind, hmembers, hinner]
    rfl
  · rw [Gen.cell_indexed]
    exact Mix.exists_cell hunites (h.length_eq_size hs) h.shapes.length_eq.symm hc hd

theorem Mixes.prototype_mix {x : Item} (h : v.Mixes s (x :: xs) ts) :
    (Item.mix (.view v)).prototype = x.prototypeOf := by
  have hbased : (Item.view v).based = v := rfl
  simp only [Item.mix, prototype_computed, Lazy.get_keep, hbased, h.items, bind, Except.bind]

theorem Mixes.prototype_mix_nil (h : v.Mixes s [] ts) :
    (Item.mix (.view v)).prototype = v.prototype := by
  have hbased : (Item.view v).based = v := rfl
  simp only [Item.mix, prototype_computed, Lazy.get_keep, hbased, h.items, bind, Except.bind]

/-- A mix has the least type that covers the types of the items, or the type of the array if there
are none. -/
theorem Mixes.etype_mix (h : v.Mixes s xs ts) {es : List EType}
    (he : xs.mapM (fun x => do if ← x.isArray then x.etypeOf else return x.etype) = .ok es) :
    (Item.mix (.view v)).etype = match EType.joinAll es with
      | some e => .ok e
      | none => v.etype := by
  have hbased : (Item.view v).based = v := rfl
  simp only [Item.mix, etype_computed, Lazy.get_delay, Lazy.get_keep, hbased, h.items, bind,
    Except.bind] at he ⊢
  rw [he]
  rfl

theorem Mixes.exists_etype_mix (h : v.Mixes s xs ts)
    (he : ∀ x ∈ xs, ∃ e, (do if ← x.isArray then x.etypeOf else return x.etype) = .ok e)
    (hnil : xs = [] → ∃ e, v.etype = .ok e) : ∃ e, (Item.mix (.view v)).etype = .ok e := by
  obtain ⟨es, hes⟩ := exists_mapM he
  rw [h.etype_mix hes]
  cases hjoin : EType.joinAll es with
  | some e => exact ⟨e, rfl⟩
  | none =>
      obtain rfl := EType.eq_nil_of_joinAll hjoin
      exact hnil (List.length_eq_zero_iff.mp (mapM_eq_ok.mp hes).length_eq)

end View
end LazyApl
