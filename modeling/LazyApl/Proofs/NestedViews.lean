import LazyApl.Platform.Usual
import LazyApl.Proofs.WholeItems
/-!
# Nested views of an array and of what it renders to

Splitting, enclosing and partitioning hand out windows of an array, its cells, or the array as a
whole. The same is done with what the array renders to, and both results are rendered. Only windows
can tell the two apart: each has a fill of its own, made of its first cell, and shows it where the
array shows the fill that it has inherited.
-/
namespace LazyApl

open Outcome

namespace Shape

theorem along_upTo {xs : List Int} {n : Nat} (h : xs.length = n) : along xs (upTo n) = xs := by
  subst h
  refine List.ext_getElem (by simp [along]) fun k hk hk' => ?_
  simp [along, upTo, hk']

end Shape

namespace Enclose

theorem outerAxes_nil (n : Int) : outerAxes [] n = upTo n := by
  simp [outerAxes]

theorem offset_upTo {t : Shape} (ht : t.IsProper) {i : Int} (hi : t.Holds i) :
    offset t (upTo t.length) i = i := by
  unfold offset
  rw [Shape.along_upTo rfl, Shape.along_upTo (Shape.length_strides t)]
  exact Shape.dot_coordinates ht hi

end Enclose

/-- A way of making parts of an array its items. -/
inductive Framing
  | split (axis : Option Item)
  | enclose (axes : Option Item)
  | partition (style : Partition.Style) (keys : Item) (axis : Option Item)

namespace Framing

/-- An array with its parts as items. -/
def framed [Platform] (n : Framing) (x : Item) (origin : Origin) : Except Fault (View Item) :=
  match n with
  | split axis => x.split axis origin
  | enclose axes => x.enclose axes origin
  | partition style keys axis => x.partition style keys axis origin

/-- The items are windows, rather than the cells or the array as a whole. -/
def EnclosesAxes (n : Framing) (v : View Item) : Prop :=
  match n with
  | split _ => v.rank ≠ .ok 0
  | enclose none => False
  | enclose (some axes) => axes.asInts "axis" ≠ .ok []
  | partition .. => True

/-- The axes that are to be enclosed are axes of the array. All other arguments are accepted before
the shape of the result is known. -/
def HasAxes (n : Framing) (v : View Item) (origin : Origin) : Prop :=
  match n with
  | enclose (some axes) => ∃ as xs, axes.asInts "axis" = .ok as ∧
      Enclose.innerAxes as v.rank origin = .ok xs
  | _ => True

end Framing

namespace View

variable {root : Root Item} {r s t : Shape} {v w w' : View Item} {g : Grid Item}

/-- An array that hands out the cells of another one, one by one. -/
structure HoldsCells (w v : View Item) (t : Shape) : Prop where
  computed : w.IsComputed
  etype_eq : w.etype = v.etype
  prototype_eq : w.prototype = v.prototype
  shape : w.shape = .ok (.ofShape t)
  items : ∃ f, w.generator = .ok (.indexed f) ∧
    ∀ i, t.Holds i → f (.int i) = (do (← v.generator).cell (.int i))

theorem HoldsCells.render_alike {root' : Root Item} {r' : Shape} {v' : View Item}
    (h : StandsOn root r v t) (h' : StandsOn root' r' v' t) (hg : v.RendersTo t g)
    (hg' : v'.RendersTo t g) (hw : w.HoldsCells v t) (hw' : w'.HoldsCells v' t) :
    ∃ a b, (Item.view w).render = .ok a ∧ (Item.view w').render = .ok b ∧ Item.Alike a b := by
  obtain ⟨f, hgen, hitem⟩ := hw.items
  obtain ⟨f', hgen', hitem'⟩ := hw'.items
  obtain ⟨gen, hv, hcell⟩ := hg.cell_settled h
  obtain ⟨gen', hv', hcell'⟩ := hg'.cell_settled h'
  refine (hw.computed.render_alike_iff hw'.computed hw.shape hw'.shape hgen hgen').mpr
    ⟨⟨?_, fun h0 => ⟨g.prototype, ?_⟩⟩, ⟨?_, fun h0 => ⟨g.prototype, ?_⟩⟩, fun i hi => ?_⟩
  · obtain ⟨e, he⟩ := hg.etype
    exact ⟨e, (etype_settled w).trans (hw.etype_eq.trans he)⟩
  · exact (prototype_settled w).trans (hw.prototype_eq.trans (hg.prototype h0))
  · obtain ⟨e, he⟩ := hg'.etype
    exact ⟨e, (etype_settled w').trans (hw'.etype_eq.trans he)⟩
  · exact (prototype_settled w').trans (hw'.prototype_eq.trans (hg'.prototype h0))
  · obtain ⟨x, k, hx, hxi⟩ := hcell i hi
    obtain ⟨y, k', hy, hyi⟩ := hcell' i hi
    simp only [Gen.cell_indexed, hitem i hi, hitem' i hi, hv, hv']
    exact stored_alike ⟨x, k, hx, hxi⟩ ⟨y, k', hy, hyi⟩

/-- The array hands out an array as one of its items. -/
def HasItem (w u : View Item) : Prop :=
  ∃ (s : Shape) (i : Int), w.shape = .ok (.ofShape s) ∧ s.Holds i ∧ w.cell (.int i) = .ok (.view u)

theorem HoldsWindows.hasItem_iff {o : Int → Int} {d : Int → List (Int × Int)} {u : View Item}
    (hw : w.HoldsWindows v s o d) : w.HasItem u ↔ ∃ i, s.Holds i ∧ u = v.frame (o i) (d i) := by
  obtain ⟨f, hgen, hitem⟩ := hw.items
  constructor
  · rintro ⟨s', i, hs, hi, hu⟩
    rw [hw.shape] at hs
    obtain rfl := Extents.ofShape_inj (Except.ok.inj hs)
    simp only [cell, hgen, bind, Except.bind, Gen.cell_indexed, hitem i hi] at hu
    cases hu
    exact ⟨i, hi, rfl⟩
  · rintro ⟨i, hi, rfl⟩
    refine ⟨s, i, hw.shape, hi, ?_⟩
    simp only [cell, hgen, bind, Except.bind, Gen.cell_indexed, hitem i hi]

/-- An array of enclosed axes is one of windows. -/
theorem holdsWindows_encloseAxes (name : String) {as ns : List Int} {origin : Origin}
    (hv : v.shape = .ok (.ofShape t))
    (hn : Enclose.innerAxes as (.ok t.length) origin = .ok (ns.map .int)) (hne : ns ≠ []) :
    (Item.encloseAxes name v as origin).HoldsWindows v
      (Shape.along t (Enclose.outerAxes (ns.map .int) t.length))
      (Enclose.offset t (Enclose.outerAxes (ns.map .int) t.length))
      (fun _ => Enclose.dims t ns) := by
  have hetype := Item.etype_encloseAxes name hv hn
  rw [if_neg hne] at hetype
  obtain ⟨hshape, f, hgen, hf⟩ := Item.encloseAxes_eq name hv hn
  refine ⟨⟨_, rfl⟩, ⟨_, hetype⟩, hshape, f, hgen, fun i _ => ?_⟩
  rw [hf, if_neg hne]
  rfl

theorem holdsCells_encloseAxes (name : String) {as : List Int} {origin : Origin}
    (hv : v.shape = .ok (.ofShape t)) (ht : t.IsProper)
    (hn : Enclose.innerAxes as (.ok t.length) origin = .ok []) :
    (Item.encloseAxes name v as origin).HoldsCells v t := by
  have hn' : Enclose.innerAxes as (.ok t.length) origin = .ok (([] : List Int).map .int) := hn
  have hetype := Item.etype_encloseAxes name hv hn'
  obtain ⟨hshape, f, hgen, hf⟩ := Item.encloseAxes_eq name hv hn'
  rw [List.map_nil, Enclose.outerAxes_nil] at hshape
  rw [Shape.along_upTo rfl] at hshape
  refine ⟨⟨_, rfl⟩, hetype, Item.prototype_encloseAxes name hv hn, hshape, f, hgen, fun i hi => ?_⟩
  rw [hf, if_pos rfl, List.map_nil, Enclose.outerAxes_nil, Enclose.offset_upTo ht hi]

theorem holdsWindows_partition [Platform] {style : Partition.Style} {keys : Item}
    {axis : Option Item} {origin : Origin} {a : Nat} {n : Int} {l : List (Int × Int)}
    (ht : t.IsProper) (hp : Item.Parts style keys axis origin t a n l) :
    ∃ (o : Int → Int) (d : Int → List (Int × Int)),
      (∀ i, Shape.Holds (t.set a l.length) i → Link.Frames (o i) (d i) t ∧ d i ≠ []) ∧
        ∀ v : View Item, v.shape = .ok (.ofShape t) →
          ∃ w, Item.partition style (.view v) keys axis origin = .ok w ∧
            w.HoldsWindows v (t.set a l.length) o d := by
  have hitem := fun i (hi : Shape.Holds (t.set a l.length) i) => Partition.item_eq ht hp.extent hi
  choose! p hmem hitem using hitem
  refine ⟨fun i => Partition.offset t a (Shape.coordinates (t.set a l.length) i) (p i),
    fun i => Partition.dims t a (p i), fun i hi => ⟨?_, List.cons_ne_nil _ _⟩, fun v hv => ?_⟩
  · exact Partition.frames hp.extent
      (Shape.coordinates_within (ht.set (Int.natCast_nonneg _) a) hi) (hp.lies _ (hmem i hi))
  · obtain ⟨w, hw, hc, he, hs, hg⟩ := hp.partition_eq hv
    exact ⟨w, hw, hc, ⟨_, he⟩, hs, _, hg, fun i hi => hitem i hi v⟩

theorem HoldsWindows.items_alike {o : Int → Int} {d : Int → List (Int × Int)}
    (h : StandsOn root r v t) (hg : v.RendersTo t g) (hw : w.HoldsWindows v s o d)
    (hw' : w'.HoldsWindows (ofGrid g) s o d)
    (hf : ∀ i, s.Holds i → Link.Frames (o i) (d i) t ∧ d i ≠ []) :
    (∃ a b, (Item.view w).render = .ok a ∧ (Item.view w').render = .ok b ∧ Item.Alike a b) ↔
      (w.IsEmpty → (∃ p, w.prototype = .ok p) ∧ ∃ p, w'.prototype = .ok p) ∧
        ∀ u, w.HasItem u → u.IsEmpty ∨ u.ShowsFill →
          ∃ q p, u.prototype = .ok q ∧ v.prototype = .ok p ∧ Item.Alike q.stored p.stored := by
  rw [hw.render_alike h hg hw' hf]
  refine and_congr_right fun _ => ?_
  constructor
  · intro hall u hu
    obtain ⟨i, hi, rfl⟩ := hw.hasItem_iff.mp hu
    exact hall i hi
  · intro hall i hi
    exact hall _ (hw.hasItem_iff.mpr ⟨i, hi, rfl⟩)

variable {origin : Origin}

/-- Some axes of an array as items, and the same axes of what the array renders to. -/
theorem RendersTo.encloseAxes_alike (h : StandsOn root r v t) (hg : v.RendersTo t g)
    (ho : origin.IsWhole) {name : String} {as : List Int} {xs : List Number}
    (hx : Enclose.innerAxes as v.rank origin = .ok xs) :
    (∃ a b, (Item.view (Item.encloseAxes name v as origin)).render = .ok a ∧
        (Item.view (Item.encloseAxes name (ofGrid g) as origin)).render = .ok b ∧
        Item.Alike a b) ↔
      (as ≠ [] →
        ((Item.encloseAxes name v as origin).IsEmpty →
          (∃ p, (Item.encloseAxes name v as origin).prototype = .ok p) ∧
            ∃ p, (Item.encloseAxes name (ofGrid g) as origin).prototype = .ok p) ∧
          ∀ u, (Item.encloseAxes name v as origin).HasItem u → u.IsEmpty ∨ u.ShowsFill →
            ∃ q p, u.prototype = .ok q ∧ v.prototype = .ok p ∧
              Item.Alike q.stored p.stored) := by
  have ht := (h.stands.keeps Item.fillOf).proper
  have hv := h.shape_eq
  have hgrid := (hg.standsOn ht).shape_eq
  obtain ⟨o, ho⟩ := ho
  rw [rank_of_shape hv] at hx
  obtain ⟨ns, rfl, hlen, hn, hb⟩ := Enclose.innerAxes_spec ho hx
  by_cases hns : ns = []
  · subst hns
    have has : as = [] := List.length_eq_zero_iff.mp hlen.symm
    have hw := holdsCells_encloseAxes name hv ht hx
    have hw' := holdsCells_encloseAxes name hgrid ht hx
    have halike := hw.render_alike h (hg.standsOn ht) hg hg.rendersTo_self hw'
    exact iff_of_true halike fun hne => absurd has hne
  · have has : as ≠ [] := by
      rintro rfl
      exact hns (List.length_eq_zero_iff.mp hlen)
    have hw := holdsWindows_encloseAxes name hv hx hns
    have hw' := holdsWindows_encloseAxes name hgrid hx hns
    rw [hw.items_alike h hg hw' fun i hi => ⟨Enclose.frames ht hn hb hi, ?_⟩]
    · exact (imp_iff_right has).symm
    · intro hd
      have hdims := Enclose.map_fst_dims t ns
      rw [hd] at hdims
      exact hns (List.map_eq_nil_iff.mp hdims.symm)

/-- Enclosing, splitting and partitioning commute with rendering exactly where no window makes a
fill of its own that differs: each item that is empty or shows its fill has to have a fill alike to
that of the array. Where there are no items at all both sides need a fill. Where the one item is
the array itself, or the items are its cells, nothing is asked for. -/
theorem Grown.nested_alike [Platform] {n : Framing} {e : Extents}
    (h : Grown (fun v w => Raises v w ∨ HandsOut v w) root r v) (hm : root.IsMade)
    (hr : (Item.view v).render = .ok (.array g)) (ho : origin.IsWhole)
    (hw : n.framed (.view v) origin = .ok w) (hs : w.shape = .ok e) (hn : n.HasAxes v origin) :
    ∃ w', n.framed (.array g) origin = .ok w' ∧
      ((∃ x y, (Item.view w).render = .ok x ∧ (Item.view w').render = .ok y ∧ Item.Alike x y) ↔
        (n.EnclosesAxes v →
          (w.IsEmpty → (∃ p, w.prototype = .ok p) ∧ ∃ p, w'.prototype = .ok p) ∧
            ∀ u, w.HasItem u → u.IsEmpty ∨ u.ShowsFill →
              ∃ q p, u.prototype = .ok q ∧ v.prototype = .ok p ∧
                Item.Alike q.stored p.stored)) := by
  obtain ⟨t, ht⟩ := h.exists_standsOn
  have hg := ht.rendersTo hr (ht.isKept_of_render hm hr)
  have hv := ht.shape_eq
  have hproper := (ht.stands.keeps Item.fillOf).proper
  have hgrid := (hg.standsOn hproper).shape_eq
  have hrank : (ofGrid g).rank = v.rank := rank_eq_of_shape hgrid hv
  -- the items of each kind are windows of both arrays, at the same places
  cases n with
  | split axis =>
      by_cases h0 : v.rank = .ok 0
      · obtain ⟨rfl, hw'⟩ := Item.split_of_scalar h0 hw
        refine ⟨_, hw' (ofGrid g) (hrank.trans h0), ?_⟩
        exact iff_of_true (hg.encloseWhole_alike ht hm hr) fun hne => absurd h0 hne
      · obtain ⟨a, as, ha, rfl, hw'⟩ := Item.split_eq_ok h0 hw
        refine ⟨_, hw' (ofGrid g) hrank, ?_⟩
        have hne := Item.asInts_single_ne_nil ha
        obtain ⟨xs, hx⟩ := Item.innerAxes_of_shape h0 hs
        have haxes : Framing.EnclosesAxes (.split axis) v := h0
        rw [hg.encloseAxes_alike ht ho hx, imp_iff_right hne, imp_iff_right haxes]
  | enclose axes =>
      cases axes with
      | none =>
          cases hw
          exact ⟨_, rfl, iff_of_true (hg.encloseWhole_alike ht hm hr) fun hf => absurd hf id⟩
      | some axes =>
          obtain ⟨as, xs, ha, hx⟩ := hn
          obtain ⟨as', ha', hw⟩ := bind_eq_ok.mp hw
          obtain rfl : as = as' := Except.ok.inj (ha.symm.trans ha')
          cases hw
          refine ⟨_, bind_eq_ok.mpr ⟨as, ha, rfl⟩, ?_⟩
          have hiff : Framing.EnclosesAxes (.enclose (some axes)) v ↔ as ≠ [] := by
            simp [Framing.EnclosesAxes, ha]
          rw [hiff]
          exact hg.encloseAxes_alike ht ho hx
  | partition style keys axis =>
      obtain ⟨a, m, l, hp⟩ := Item.exists_parts hv hw hs
      obtain ⟨o, d, hf, hall⟩ := holdsWindows_partition hproper hp
      obtain ⟨w₁, hw₁, hwin⟩ := hall v hv
      obtain ⟨w', hw', hwin'⟩ := hall (ofGrid g) hgrid
      obtain rfl : w = w₁ := Except.ok.inj (hw.symm.trans hw₁)
      refine ⟨w', hw', ?_⟩
      rw [hwin.items_alike ht hg hwin' hf]
      have haxes : Framing.EnclosesAxes (.partition style keys axis) v := trivial
      rw [imp_iff_right haxes]

/-- Four items taken of a text and a number. -/
def overtaken : View Item :=
  (⟨.concrete (Grid.ofList [.text "a", .int 1]), []⟩ : View Item).under (.cut .take false [4] none)

open scoped Usual in
/-- The last three items as a partition: in the window the number comes first, so it fills up with
zeros where the array itself shows blanks. -/
theorem partition_overtaken_not_alike :
    ∃ w w', Item.partition .keys (.view overtaken) (Item.ints [0, 1, 1, 1]) none (.int 0) = .ok w ∧
      Item.partition .keys (.array (Grid.of [4] [.text "a", .int 1, Item.blank, Item.blank] none))
        (Item.ints [0, 1, 1, 1]) none (.int 0) = .ok w' ∧
      ¬ ∃ x y, (Item.view w).render = .ok x ∧ (Item.view w').render = .ok y ∧ Item.Alike x y := by
  have root : Grown (fun v w => Raises v w ∨ HandsOut v w)
      (.concrete (Grid.ofList [.text "a", .int 1])) [2] ⟨_, []⟩ :=
    .root rfl (by simp [Shape.IsProper])
  have whole : Scalar.IsWhole (.int 0) := ⟨0, rfl⟩
  have take : Item.take (.view ⟨.concrete (Grid.ofList [.text "a", .int 1]), []⟩) (.int 4) none
    (.int 0) = .ok overtaken := rfl
  have grown := root.next (.inl (.cut whole take)) rfl
  have made := Root.isMade_ofList (l := [.text "a", .int 1])
    (List.forall_mem_cons.mpr ⟨Item.isKept_char rfl, List.forall_mem_singleton.mpr rfl⟩)
    (List.cons_ne_nil _ _)
  have framed : Framing.framed (.partition .keys (Item.ints [0, 1, 1, 1]) none) (.view overtaken)
    (.int 0) = .ok _ := rfl
  obtain ⟨w', hw', halike⟩ := grown.nested_alike made rfl whole framed rfl trivial
  refine ⟨_, w', framed, hw', fun hx => ?_⟩
  obtain ⟨_, hfill⟩ := halike.mp hx trivial
  obtain ⟨q, p, hq, hp, ha⟩ := hfill (overtaken.frame 1 [(3, 1)])
    ⟨[1], 0, rfl, by decide, rfl⟩ (.inr ⟨[3], 1, _, _, rfl, by decide, rfl, rfl⟩)
  cases hq
  cases hp
  rcases Item.alike_scalar.mp ha with h0 | ⟨_, h0, heq⟩
  · cases h0
  · cases h0
    cases heq

end View
end LazyApl
