import LazyApl.Primitive.Amend
import LazyApl.Proofs.Joining
import LazyApl.Proofs.Typing
import LazyApl.Proofs.WholeItems
/-!
# Element types are sound

An array is typed if its fill is one and its element type covers all cells that render. A tower over
a typed root is typed if its transforms are legal. So are joins of typed arrays and typed arrays
amended by typed values: whatever a cell of them is, it is a cell of one of the parts, and the join
of the types covers it. Everything built in these ways from typed operands, to any depth, renders
to items that its element type covers.
-/
namespace LazyApl

open Outcome Link

/-- The answers of an array fit together: its extents are whole, its fill is one, and its element
type, which states whole bounds if any, covers every cell that renders. -/
structure Facts.IsTyped (f : Facts Item) : Prop where
  shape : ∀ e, f.shape.get = .ok e → ∃ s : Shape, e = .ofShape s ∧ s.IsProper
  fill : ∀ p, f.prototype .now = .ok p → p.IsFill
  bounds : ∀ t, f.etype.get = .ok t → t.HasWholeBounds
  covers : ∀ s t i y, f.shape.get = .ok (.ofShape s) → f.etype.get = .ok t → s.Holds i →
    f.Shows i y → t.covers y.stored = true

namespace Grid

variable {g : Grid Item}

/-- The type of an array at hand covers each of its cells. -/
theorem covers_of_mem (hk : ∀ x ∈ g.items, x.IsKept) {x : Item} (hx : x ∈ g.items) :
    g.etype.covers x = true := by
  unfold etype
  split
  · exact EType.covers_mixed rfl x
  · rename_i hn
    have hgrid : x.isGrid = false := by
      simp only [isNested, Bool.not_eq_true, List.any_eq_false] at hn
      simpa using hn x hx
    have hsettled : x.IsSettled := by
      have hkx := hk x hx
      cases x with
      | scalar s => exact .scalar hkx
      | list xs => exact .list xs
      | array g => cases hgrid
      | view v => cases hkx
    have hbounds : ∀ t ∈ g.items.map Item.etype, t.HasWholeBounds := by
      intro t ht
      obtain ⟨y, _, rfl⟩ := List.mem_map.mp ht
      exact y.hasWholeBounds_etype
    have hjoin := (EType.joinAll_spec hbounds).2 _ (List.mem_map_of_mem hx) x
    have hown := Item.covers_etype hsettled
    rw [(hk x hx).stored_eq] at hown
    split
    · rename_i hnil _
      rw [hnil] at hx
      cases hx
    · rw [EType.joinValues_none]
      exact hjoin hown

theorem hasWholeBounds_etype (g : Grid Item) : g.etype.HasWholeBounds := by
  unfold etype
  split
  · exact EType.hasWholeBounds_ofKind _
  · split
    · exact EType.hasWholeBounds_ofKind _
    · rw [EType.joinValues_none]
      refine (EType.joinAll_spec fun t ht => ?_).1
      obtain ⟨y, _, rfl⟩ := List.mem_map.mp ht
      exact y.hasWholeBounds_etype

theorem IsKept.isTyped (hk : g.IsKept) (hs : g.shape.IsProper)
    (hf : ∀ p ∈ g.fill, p.IsFill) : (Root.concrete g).facts.IsTyped := by
  refine ⟨fun e he => ?_, fun p hp => ?_, fun t ht => ?_, fun s t i y hs' ht hi hy => ?_⟩
  · exact ⟨g.shape, (Except.ok.inj he).symm, hs⟩
  · obtain rfl := Except.ok.inj hp
    unfold prototype
    split
    · cases hfill : g.fill with
      | none => exact Item.isFill_zero
      | some p => exact hf p hfill
    · exact Item.isFill_typify _
  · obtain rfl := Except.ok.inj ht
    exact g.hasWholeBounds_etype
  · obtain rfl := Except.ok.inj ht
    obtain ⟨gen, x, hgen, hx, hy⟩ := hy
    have hmem := Root.mem_of_cell hgen hx
    have hkx := hk.items x hmem
    rw [hkx.settle_eq] at hy
    obtain rfl := Except.ok.inj hy
    rw [hkx.stored_eq]
    exact covers_of_mem hk.items hmem

end Grid

variable {root : Facts Item}

theorem Facts.IsTyped.level (h : root.IsTyped) : (Level.ofFacts root).IsTyped root := by
  refine Level.isTyped_of_stage ⟨h.shape, h.fill, h.bounds, fun s ls hs hls => ?_,
    fun s ls t hs hls ht => ⟨fun {q r k y} hq hr hk hy => ?_, fun hm => ?_⟩⟩
  · obtain rfl := Except.ok.inj hls
    exact ⟨s, hs, .nil s⟩
  · obtain rfl := Except.ok.inj hls
    exact h.covers r t k y hr ht hk.holds hy
  · obtain rfl := Except.ok.inj hls
    obtain ⟨p, i, _, hp⟩ := hm
    cases hp

/-- What shows at the top of a tower is covered: it is a cell of the root that the chain leads to,
or the fill where it leads to none. -/
theorem Level.IsTyped.facts {steps : List Step} (hroot : root.IsTyped)
    (h : (Level.ofSteps Item.fillOf root steps).IsTyped root) :
    (Tower.facts Item.fillOf root steps).IsTyped := by
  cases steps with
  | nil => exact hroot
  | cons x rest =>
      refine ⟨h.stage.shape, h.stage.fill, h.stage.bounds, fun s t i y hs ht hi hy => ?_⟩
      obtain ⟨gen, z, hgen, hz, hy⟩ := hy
      obtain ⟨ls, hls, hgen⟩ := bind_eq_ok.mp hgen
      obtain ⟨cells, hcells, hgen⟩ := bind_eq_ok.mp hgen
      obtain rfl := Except.ok.inj hgen
      obtain ⟨r, hr, hland⟩ := h.stage.landing s ls hs hls
      have hcovers := h.stage.covers s ls t hs hls ht
      obtain ⟨c, hc, hz⟩ := bind_eq_ok.mp hz
      obtain ⟨j, hj, hc⟩ := bind_eq_ok.mp hc
      rcases hland.compose_answers hi hj with ⟨rfl, hm⟩ | ⟨q, k, rfl, hq, hk⟩
      · obtain rfl := Except.ok.inj hc
        have hfill := h.stage.fill z hz
        rw [hfill.settle_eq] at hy
        obtain rfl := Except.ok.inj hy
        exact (hcovers.pads hm).2 z hz
      · obtain ⟨c', hc', hc⟩ := bind_eq_ok.mp hc
        obtain rfl := Except.ok.inj hc
        obtain rfl := Except.ok.inj hz
        exact hcovers.cells hq hr hk ⟨cells, c', hcells, hc', hy⟩

namespace Join

theorem exists_shapes {views : List (View Item)} (hv : ∀ v ∈ views, v.facts.IsTyped)
    {es : List Extents} (h : views.mapM View.shape = .ok es) :
    ∃ ss : List Shape, es = ss.map Extents.ofShape ∧ ∀ s ∈ ss, s.IsProper := by
  refine Extents.exists_shapes fun e he => ?_
  obtain ⟨v, hm, hs⟩ := mem_of_mapM h he
  exact (hv v hm).shape e hs

/-- Each cell of a join is a cell of one of the arrays. -/
theorem exists_shown {views : List (View Item)} {ss : List Shape} {j : Joint} {between : Bool}
    {gens : List (Gen Item)} (hfinds : FindsAll j between ss) {u : Shape}
    (hu : j.shape = .ofShape u) (hs : views.mapM View.shape = .ok (ss.map Extents.ofShape))
    (hg : views.mapM View.generator = .ok gens) {i : Int} (hi : u.Holds i) {x y : Item}
    (hx : (cells j between (ss.map Extents.ofShape) gens).cell (.int i) = .ok x)
    (hy : x.settle = .ok y) :
    ∃ (k : Nat) (v : View Item) (s : Shape) (i' : Int), views[k]? = some v ∧
      v.shape = .ok (.ofShape s) ∧ s.Holds i' ∧ v.facts.Shows i' y := by
  obtain ⟨u', _, hu', hfind⟩ := hfinds
  obtain rfl := Extents.ofShape_inj (hu.symm.trans hu')
  obtain ⟨k, s, c, hk, hc, hlocate⟩ := hfind i hi
  obtain ⟨⟨which, c'⟩, hl, hx⟩ := bind_eq_ok.mp hx
  obtain ⟨rfl, rfl⟩ := Prod.mk.inj (Except.ok.inj (hlocate.symm.trans hl))
  have hks : (ss.map Extents.ofShape)[k]? = some (.ofShape s) := by simp [hk]
  have hlt : k < views.length := by
    have hlen := (mapM_eq_ok.mp hs).length_eq
    have hk' := (List.getElem?_eq_some_iff.mp hks).1
    omega
  have hv := List.getElem?_eq_getElem hlt
  obtain ⟨gen, hgk, hgen⟩ := getElem?_mapM hg hv
  obtain ⟨e, hek, hshape⟩ := getElem?_mapM hs hv
  obtain rfl := Option.some.inj (hks.symm.trans hek)
  obtain ⟨gen', hgen', hx⟩ := bind_eq_ok.mp hx
  obtain rfl := Except.ok.inj ((pickBy_of_getElem? hgk).symm.trans hgen')
  have hfound : ∃ i', s.Holds i' ∧ gen.cell (.int i') = .ok x := by
    cases gen with
    | single z =>
        rcases hc with rfl | hc
        · exact ⟨0, by simp [Shape.Holds], hx⟩
        · exact ⟨_, hc.holds, hx⟩
    | indexed f =>
        obtain ⟨_, he, hx⟩ := bind_eq_ok.mp hx
        obtain rfl := Except.ok.inj ((pickBy_of_getElem? hek).symm.trans he)
        rcases hc with rfl | hc
        · exact ⟨0, by simp [Shape.Holds], hx⟩
        · split at hx
          · rename_i hnil
            obtain rfl : s = [] := by simpa [Extents.ofShape] using hnil
            exact ⟨0, by simp [Shape.Holds], hx⟩
          · simp only [Extents.strides_ofShape, bind, Except.bind, Extents.dot_map] at hx
            exact ⟨_, hc.holds, hx⟩
  obtain ⟨i', hi', hx⟩ := hfound
  exact ⟨k, _, s, i', hv, hshape, hi', gen, x, hgen, hx, hy⟩

end Join

theorem Join.exists_isBetween {x : Except Fault (List Extents)} {axis : Option Item} {first : Bool}
    {origin : Origin} {j : Joint} (h : (do Join.layout (← x) axis first origin) = .ok j) :
    ∃ b, Join.isBetween axis = .ok b := by
  obtain ⟨_, _, h⟩ := bind_eq_ok.mp h
  obtain ⟨b, hb, _⟩ := bind_eq_ok.mp h
  exact ⟨b, hb⟩

/-- A join of typed arrays is typed. -/
theorem Item.catenate_isTyped {arrays : List (View Item)} (ha : ∀ v ∈ arrays, v.facts.IsTyped)
    {axis : Option Item} {first : Bool} {origin : Origin} {w : View Item}
    (h : catenate (arrays.map .view) axis first origin = .ok w) : w.facts.IsTyped := by
  have hviews : (arrays.map Item.view).map lift = arrays := by
    rw [List.map_map]
    exact List.map_id _
  cases arrays with
  | nil => cases h
  | cons front rest =>
      simp only [List.map_cons, catenate] at h hviews
      rw [hviews] at h
      obtain rfl := Except.ok.inj h
      -- the layout is that of the arrays, whatever is asked for
      have hlayout {j : Joint} (hj : (do
          let shapes ← (front :: rest).mapM View.shape
          Join.layout shapes axis first origin) = .ok j) : ∃ ss : List Shape,
          (front :: rest).mapM View.shape = .ok (ss.map Extents.ofShape) ∧
            ∀ b, Join.isBetween axis = .ok b → Join.FindsAll j b ss := by
        obtain ⟨es, hes, hj⟩ := bind_eq_ok.mp hj
        obtain ⟨ss, rfl, hp⟩ := Join.exists_shapes ha hes
        exact ⟨ss, hes, fun b hb => Join.findsAll_of_layout hp hj hb⟩
      refine ⟨fun e he => ?_, fun p hp => ?_, fun t ht => ?_, fun s t i y hs ht hi hy => ?_⟩
      · obtain ⟨j, hj, he⟩ := bind_eq_ok.mp he
        obtain rfl := Except.ok.inj he
        obtain ⟨ss, _, hfinds⟩ := hlayout hj
        obtain ⟨b, hb⟩ := Join.exists_isBetween hj
        obtain ⟨u, hp, hu, _⟩ := hfinds b hb
        exact ⟨u, hu, hp⟩
      · exact (ha front List.mem_cons_self).fill p hp
      · obtain ⟨types, htypes, ht⟩ := bind_eq_ok.mp ht
        obtain rfl := Except.ok.inj ht
        refine (EType.joinAll_spec fun t ht => ?_).1
        obtain ⟨v, hv, hvt⟩ := mem_of_mapM htypes ht
        exact (ha v hv).bounds t hvt
      · obtain ⟨types, htypes, ht⟩ := bind_eq_ok.mp ht
        obtain rfl := Except.ok.inj ht
        obtain ⟨j', hj', hs⟩ := bind_eq_ok.mp hs
        obtain ⟨gen, x, hgen, hx, hy⟩ := hy
        obtain ⟨j, hj, hgen⟩ := bind_eq_ok.mp hgen
        obtain rfl := Except.ok.inj (hj'.symm.trans hj)
        obtain ⟨gens, hgens, hgen⟩ := bind_eq_ok.mp hgen
        obtain ⟨es, hes, hgen⟩ := bind_eq_ok.mp hgen
        obtain ⟨b, hb, hgen⟩ := bind_eq_ok.mp hgen
        obtain rfl := Except.ok.inj hgen
        obtain ⟨ss, hss, hfinds⟩ := hlayout hj
        obtain rfl := Except.ok.inj (hss.symm.trans hes)
        obtain ⟨k, v, s', i', hv, hshape, hi', hshows⟩ :=
          Join.exists_shown (hfinds b hb) (Except.ok.inj hs) hss hgens hi hx hy
        obtain ⟨t, htk, ht⟩ := getElem?_mapM htypes hv
        have hm := List.mem_of_getElem? hv
        refine (EType.joinAll_spec fun t ht => ?_).2 t (List.mem_of_getElem? htk) _ ?_
        · obtain ⟨v, hv, hvt⟩ := mem_of_mapM htypes ht
          exact (ha v hv).bounds t hvt
        · exact (ha v hm).covers s' t i' y hshape ht hi' hshows

namespace Amend

variable {values : View Item} {s : Extents} {value : Int → Except Fault Item}

theorem size_of_isSingle {u : Shape} (hu : values.shape = .ok (.ofShape u))
    (h : isSingle values = .ok true) : u.size = 1 := by
  obtain ⟨n, hn, h⟩ := bind_eq_ok.mp h
  rw [View.size, hu] at hn
  obtain rfl := Except.ok.inj ((Extents.size_ofShape u).symm.trans hn)
  split at h
  · rename_i h1
    rwa [Number.isOne_int, beq_iff_eq] at h1
  · cases h

/-- The value for a cell of a selection is a cell of the values. -/
theorem exists_of_assignment
    (hv : ∀ e, values.shape = .ok e → ∃ u : Shape, e = .ofShape u ∧ u.IsProper)
    (h : assignment values s = .ok value) {j : Int} {x : Item} (hx : value j = .ok x) :
    ∃ (u : Shape) (i : Int) (gen : Gen Item), values.shape = .ok (.ofShape u) ∧ u.Holds i ∧
      values.generator = .ok gen ∧ gen.cell (.int i) = .ok x := by
  obtain ⟨single, hsingle, h⟩ := bind_eq_ok.mp h
  cases single with
  | true =>
      obtain ⟨only, honly, h⟩ := bind_eq_ok.mp h
      obtain rfl := Except.ok.inj h
      obtain rfl := Except.ok.inj hx
      obtain ⟨gen, hgen, hcell⟩ := bind_eq_ok.mp honly
      obtain ⟨n, hn, _⟩ := bind_eq_ok.mp hsingle
      obtain ⟨e, he, _⟩ := bind_eq_ok.mp hn
      obtain ⟨u, rfl, _⟩ := hv e he
      have hone := size_of_isSingle he hsingle
      exact ⟨u, 0, gen, he, ⟨le_refl 0, by omega⟩, hgen, hcell⟩
  | false =>
      obtain ⟨_, _, h⟩ := bind_eq_ok.mp h
      obtain ⟨m, hm, h⟩ := bind_eq_ok.mp h
      obtain ⟨e, he, hm'⟩ := bind_eq_ok.mp hm
      obtain ⟨u, rfl, rfl⟩ := Extents.count_eq_ok hm'
      split at h
      · obtain rfl := Except.ok.inj h
        cases pickBy_mem (i := .int j) hx
      · obtain ⟨cells, hcells, h⟩ := bind_eq_ok.mp h
        obtain rfl := Except.ok.inj h
        obtain ⟨gen, hgen, hcells⟩ := bind_eq_ok.mp hcells
        obtain ⟨m, hm', hcells⟩ := bind_eq_ok.mp hcells
        obtain rfl := Except.ok.inj (hm.symm.trans hm')
        obtain ⟨i, hi, hcell⟩ := mem_of_mapM hcells (pickBy_mem (i := .int j) hx)
        exact ⟨u, i, gen, he, mem_upTo.mp hi, hgen, hcell⟩

/-- A cell that is amended without a function is the old one or one of the values. -/
theorem cell_cases {old : Gen Item} {targets : List (Number × Int)} {i : Number} {x : Item}
    (h : cell old targets (some value) none i = .ok x) :
    old.cell i = .ok x ∨ ∃ j, value j = .ok x := by
  obtain ⟨before, hold, h⟩ := bind_eq_ok.mp h
  cases hf : Selection.find? i targets with
  | none =>
      rw [hf] at h
      obtain rfl := Except.ok.inj h
      exact .inl hold
  | some j =>
      rw [hf] at h
      exact .inr ⟨j, h⟩

end Amend

/-- An array that shows cells of a typed array and cells of typed values is typed by the join of
their types. -/
theorem Facts.IsTyped.amended {f base values : Facts Item} (hb : base.IsTyped)
    (hv : values.IsTyped) (hshape : ∀ e, f.shape.get = .ok e → base.shape.get = .ok e)
    (hfill : f.prototype .now = base.prototype .now)
    (hetype : ∀ t, f.etype.get = .ok t →
      ∃ a b, base.etype.get = .ok a ∧ values.etype.get = .ok b ∧ t = a.join b)
    (hcell : ∀ i y, f.Shows i y → base.Shows i y ∨
      ∃ (s : Shape) (k : Int), values.shape.get = .ok (.ofShape s) ∧ s.Holds k ∧
        values.Shows k y) : f.IsTyped := by
  refine ⟨fun e he => hb.shape e (hshape e he), fun p hp => hb.fill p (hfill ▸ hp), fun t ht => ?_,
    fun s t i y hs ht hi hy => ?_⟩
  · obtain ⟨a, b, ha, hb', rfl⟩ := hetype t ht
    exact (hb.bounds a ha).join (hv.bounds b hb')
  · obtain ⟨a, b, ha, hb', rfl⟩ := hetype t ht
    have hwa := hb.bounds a ha
    have hwb := hv.bounds b hb'
    rcases hcell i y hy with hold | ⟨s', k, hs', hk, hnew⟩
    · exact EType.covers_join hwa hwb (.inl (hb.covers s a i y (hshape _ hs) ha hi hold))
    · exact EType.covers_join hwa hwb (.inr (hv.covers s' b k y hs' hb' hk hnew))

/-- A typed array amended by typed values is typed. -/
theorem Item.amend_isTyped {v values w : View Item} (hv : v.facts.IsTyped)
    (hvalues : values.facts.IsTyped) {indices : List (Option Item)} {origin : Origin}
    (h : amend (.view v) indices ⟨some values, none⟩ origin = .ok w) : w.facts.IsTyped := by
  obtain ⟨arguments, _, h⟩ := bind_eq_ok.mp h
  obtain rfl := Except.ok.inj h
  refine hv.amended hvalues (fun e he => ?_) rfl (fun t ht => ?_) fun i y hy => ?_
  · obtain ⟨_, _, he⟩ := bind_eq_ok.mp he
    obtain ⟨_, _, he⟩ := bind_eq_ok.mp he
    exact he
  · obtain ⟨a, ha, ht⟩ := bind_eq_ok.mp ht
    obtain ⟨b, hb, ht⟩ := bind_eq_ok.mp ht
    exact ⟨a, b, ha, hb, (Except.ok.inj ht).symm⟩
  · obtain ⟨gen, x, hgen, hx, hy⟩ := hy
    obtain ⟨_, _, hgen⟩ := bind_eq_ok.mp hgen
    obtain ⟨value, hvalue, hgen⟩ := bind_eq_ok.mp hgen
    obtain ⟨cells, hcells, hgen⟩ := bind_eq_ok.mp hgen
    obtain ⟨_, _, hgen⟩ := bind_eq_ok.mp hgen
    obtain rfl := Except.ok.inj hgen
    obtain ⟨value, hvalue', rfl⟩ := map_eq_ok.mp hvalue
    rcases Amend.cell_cases hx with hold | ⟨j, hj⟩
    · exact .inl ⟨cells, x, hcells, hold, hy⟩
    · obtain ⟨u, k, vals, hu, hk, hvals, hx⟩ := Amend.exists_of_assignment hvalues.shape hvalue' hj
      exact .inr ⟨u, k, hu, hk, vals, x, hvals, hx, hy⟩

/-- A typed array amended by typed values under a mask is typed. -/
theorem Item.amendMasked_isTyped [Platform] {v values : View Item} (hv : v.facts.IsTyped)
    (hvalues : values.facts.IsTyped) (mask : Item) :
    (amendMasked (.view v) mask (.view values) none).facts.IsTyped := by
  refine hv.amended hvalues (fun e he => ?_) rfl (fun t ht => ?_) fun i y hy => ?_
  · obtain ⟨_, _, he⟩ := bind_eq_ok.mp he
    obtain ⟨s, hs, he⟩ := bind_eq_ok.mp he
    split at he
    · obtain rfl := Except.ok.inj he
      exact hs
    · cases he
  · obtain ⟨a, ha, ht⟩ := bind_eq_ok.mp ht
    obtain ⟨b, hb, ht⟩ := bind_eq_ok.mp ht
    exact ⟨a, b, ha, hb, (Except.ok.inj ht).symm⟩
  · obtain ⟨gen, x, hgen, hx, hy⟩ := hy
    obtain ⟨_, _, hgen⟩ := bind_eq_ok.mp hgen
    obtain ⟨_, _, hgen⟩ := bind_eq_ok.mp hgen
    obtain ⟨value, hvalue, hgen⟩ := bind_eq_ok.mp hgen
    obtain ⟨cells, hcells, hgen⟩ := bind_eq_ok.mp hgen
    obtain rfl := Except.ok.inj hgen
    rcases Amend.cell_cases hx with hold | ⟨j, hj⟩
    · exact .inl ⟨cells, x, hcells, hold, hy⟩
    · obtain ⟨u, k, vals, hu, hk, hvals, hx⟩ := Amend.exists_of_assignment hvalues.shape hvalue hj
      exact .inr ⟨u, k, hu, hk, vals, x, hvals, hx, hy⟩

end LazyApl
