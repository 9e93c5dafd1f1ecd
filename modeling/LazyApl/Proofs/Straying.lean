import LazyApl.Proofs.Assigning
import LazyApl.Proofs.Landing
import LazyApl.Proofs.Reading
/-!
# Indices that stray from their axis

The indices of a selection are checked when its plan is made, and the plan is made when the first
cell of the selection is located. An array that is selected from, or assigned to, is refused by then
if some index does not lie on its axis. Where the selection has no cell nothing is located and the
indices are never looked at, so any of them are accepted: what is selected is empty, and what has
been assigned to is the array as it was.
-/
namespace LazyApl

open Outcome

theorem exists_upTo_eq_cons {n : Int} (h : 0 < n) : ∃ rest, upTo n = 0 :: rest := by
  obtain ⟨m, hm⟩ := Nat.exists_eq_succ_of_ne_zero (by omega : n.toNat ≠ 0)
  exact ⟨_, by rw [upTo, hm, List.range_succ_eq_map, List.map_cons]; rfl⟩

namespace Selection

variable {origin : Origin} {o n axis : Int} {s : Shape} {indices : List (Option IntArgument)}
  {e : Fault}

/-- A number that is given as an index of an axis, and does not name a cell of it when it is counted
from the origin. -/
def Strays (o : Int) (s : Shape) (indices : List (Option IntArgument)) (k : Nat) (x : Int) : Prop :=
  ∃ n z vs, s[k]? = some n ∧ indices[k]? = some (some z) ∧ z.ints.get = .ok vs ∧ x ∈ vs ∧
    (x - o < 0 ∨ n ≤ x - o)

def straying (o : Int) (axis x : Int) : Fault := .index (.outOfRange (.int x) (.int (axis + o)))

/-- An index argument that can be read: an array of whole numbers. -/
def IsReadable (z : IntArgument) : Prop := IsArrayArgument z ∧ ∃ vs, z.ints.get = .ok vs

theorem checkAll_eq_error (ho : origin.number = .ok (.int o)) {vs : List Int}
    (h : checkAll (.int n) axis origin (vs.map fun v => .int (v - o)) = .error e) :
    ∃ x ∈ vs, (x - o < 0 ∨ n ≤ x - o) ∧ e = straying o axis x := by
  induction vs with
  | nil => cases h
  | cons v vs ih =>
      by_cases hv : 0 ≤ v - o ∧ v - o < n
      · simp only [List.map_cons, checkAll, isWithin_int, hv, and_self, decide_true, if_true, bind,
          Except.bind] at h
        obtain ⟨x, hx, hstrays⟩ := ih h
        exact ⟨x, List.mem_cons_of_mem _ hx, hstrays⟩
      · refine ⟨v, List.mem_cons_self, by omega, ?_⟩
        have hback : v - o + o = v := by omega
        simp only [List.map_cons, checkAll, isWithin_int, hv, decide_false, Bool.false_eq_true,
          if_false, ho, Scalar.count, Number.add_int, hback, bind, Except.bind, pure,
          Except.pure] at h
        exact (Except.error.inj h).symm

theorem axisPlan_eq_error (ho : origin.number = .ok (.int o)) {z : IntArgument}
    (hz : IsReadable z) (h : axisPlan (.int n) axis origin (some z) = .error e) :
    ∃ vs, z.ints.get = .ok vs ∧ ∃ x ∈ vs, (x - o < 0 ∨ n ≤ x - o) ∧ e = straying o axis x := by
  obtain ⟨⟨_, u, hu, _⟩, vs, hvs⟩ := hz
  have hstrip : vs.mapM origin.strip = .ok (vs.map fun v => .int (v - o)) :=
    mapM_ok fun v _ => by simp [Scalar.strip, ho, bind, Except.bind]
  refine ⟨vs, hvs, ?_⟩
  cases hc : checkAll (.int n) axis origin (vs.map fun v => .int (v - o)) with
  | error c =>
      simp only [axisPlan, hvs, checked, hstrip, hc, bind, Except.bind] at h
      obtain rfl := Except.error.inj h
      exact checkAll_eq_error ho hc
  | ok _ =>
      simp only [axisPlan, hvs, checked, hstrip, hc, hu, bind, Except.bind, pure,
        Except.pure] at h
      split at h <;> cases h

theorem Strays.cons {k : Nat} {x : Int} {y : Option IntArgument} (h : Strays o s indices k x) :
    Strays o (n :: s) (y :: indices) (k + 1) x := h

/-- The plan of a selection is refused for an index that strays. -/
theorem plan_eq_error (ho : origin.number = .ok (.int o)) (hl : indices.length = s.length)
    (hy : ∀ y ∈ indices, ∀ z ∈ y, IsReadable z)
    (h : plan origin axis (.ofShape s) indices = .error e) :
    ∃ k x, Strays o s indices k x ∧ e = straying o (axis + (k : Nat)) x := by
  induction indices generalizing s axis with
  | nil =>
      obtain rfl := List.length_eq_zero_iff.mp hl.symm
      cases h
  | cons y ys ih =>
      cases s with
      | nil => cases hl
      | cons n s =>
          obtain ⟨hy, hys⟩ := List.forall_mem_cons.mp hy
          change (axisPlan (.int n) axis origin y >>= fun own =>
            plan origin (axis + 1) (.ofShape s) ys >>= fun rest => .ok (own :: rest)) = _ at h
          cases hp : axisPlan (.int n) axis origin y with
          | error c =>
              rw [hp] at h
              obtain rfl := Except.error.inj h
              cases y with
              | none => cases hp
              | some z =>
                  obtain ⟨vs, hvs, x, hx, hstrays, he⟩ := axisPlan_eq_error ho (hy z rfl) hp
                  refine ⟨0, x, ⟨n, z, vs, rfl, rfl, hvs, hx, hstrays⟩, ?_⟩
                  simpa using he
          | ok p =>
              cases hps : plan origin (axis + 1) (.ofShape s) ys with
              | error c =>
                  rw [hp, hps] at h
                  obtain rfl := Except.error.inj h
                  obtain ⟨k, x, hstrays, he⟩ := ih (by simpa using hl) hys hps
                  refine ⟨k + 1, x, hstrays.cons, ?_⟩
                  rw [he, straying, straying, Int.natCast_succ]
                  congr 3
                  omega
              | ok ps =>
                  rw [hp, hps] at h
                  cases h

theorem InRange.not_strays (h : InRange o s indices) (k : Nat) (x : Int) :
    ¬ Strays o s indices k x := by
  rintro ⟨n, z, vs, hn, hz, hvs, hx, hstrays⟩
  obtain ⟨hk, rfl⟩ := List.getElem?_eq_some_iff.mp hn
  obtain ⟨hk', hz⟩ := List.getElem?_eq_some_iff.mp hz
  obtain ⟨u, vs', _, hvs', _, _, hb⟩ := h.get hk hk' z hz
  obtain rfl := Except.ok.inj (hvs.symm.trans hvs')
  have hb := hb x hx
  simp only [List.get_eq_getElem] at hb
  omega

theorem inRange_or_strays (ho : origin.number = .ok (.int o)) (hl : indices.length = s.length)
    (hy : ∀ y ∈ indices, ∀ z ∈ y, IsReadable z) :
    InRange o s indices ∨ ∃ k x, Strays o s indices k x ∧
      plan origin 0 (.ofShape s) indices = .error (straying o (k : Nat) x) := by
  cases hp : plan origin 0 (.ofShape s) indices with
  | ok plans => exact .inl (inRange_of_plan ho hl (fun y hm z hz => (hy y hm z hz).1) hp)
  | error e =>
      obtain ⟨k, x, hstrays, rfl⟩ := plan_eq_error ho hl hy hp
      exact .inr ⟨k, x, hstrays, by rw [Int.zero_add]⟩

theorem targets_of_empty {u : Shape} (hu : shape (.ofShape s) indices = .ok (.ofShape u))
    (h0 : u.size = 0) : targets (.ofShape s) indices origin = .ok [] := by
  simp only [targets, Extents.strides_ofShape, hu, Extents.count_ofShape, h0, bind, Except.bind]
  rfl

theorem targets_of_plan_error {u : Shape} (hu : shape (.ofShape s) indices = .ok (.ofShape u))
    (h0 : 0 < u.size) (hp : plan origin 0 (.ofShape s) indices = .error e) :
    targets (.ofShape s) indices origin = .error e := by
  obtain ⟨rest, hrest⟩ := exists_upTo_eq_cons h0
  simp only [targets, Extents.strides_ofShape, hu, Extents.count_ofShape, hrest, bind, Except.bind,
    List.foldlM_cons, Lazy.get_keep, hp]

end Selection

namespace View

variable {v values w : View Item} {t u : Shape} {f : Int → Item} {e : Fault} {origin : Origin}
  {o : Int} {args : List (Option IntArgument)}

theorem IsReady.render_eq_error (h : v.IsReady) (hs : v.shape = .ok (.ofShape t))
    (hne : ¬ ∃ g, v = ofGrid g) (hitems : (Item.view v).items = .error e) :
    (Item.view v).render = .error e := by
  rw [render_eq hne, Item.collect_settled h hs, hitems]
  rfl

theorem items_eq_error (hs : v.shape = .ok (.ofShape t)) (h0 : 0 < t.size) {gen : Gen Item}
    (hgen : v.generator = .ok gen) (hcell : ∀ i : Int, gen.cell (.int i) = .error e) :
    (Item.view v).items = .error e := by
  obtain ⟨rest, hrest⟩ := exists_upTo_eq_cons h0
  have hshape : (Item.view v).shapeOf = .ok (.ofShape t) := hs
  have hcells : (Item.view v).generatorOf = .ok gen := hgen
  simp only [Item.items, hcells, hshape, Extents.count_ofShape, hrest, bind, Except.bind,
    List.mapM_cons, hcell]

/-- The cells of a selection are asked for without a look at the indices. Each of them is refused as
the plan is. -/
theorem exists_generator_select (origin : Origin) (hv : v.shape = .ok (.ofShape t))
    (hu : Selection.shape (.ofShape t) args = .ok (.ofShape u)) {gen : Gen Item}
    (hgen : v.generator = .ok gen) :
    ∃ cells, (v.under (.select args origin)).generator = .ok cells ∧
      ∀ e, Selection.plan origin 0 (.ofShape t) args = .error e →
        ∀ i : Int, cells.cell (.int i) = .error e := by
  obtain ⟨ls, raw, hls, hraw⟩ := Tower.generator_ok hgen
  have hshape : (Level.ofSteps Item.fillOf v.root.facts v.steps).stage.shape.get =
      .ok (.ofShape t) := Tower.shape_facts.symm.trans hv
  have hchain : (Level.ofSteps Item.fillOf v.root.facts
      (.select args origin :: v.steps)).stage.chain.get =
        .ok (⟨.decoded fun c => do
          return some (← Selection.locate (← Selection.plan origin 0 (.ofShape t) args) c),
            .ofShape u, .ofShape t⟩ :: ls) := by
    simp only [Level.ofSteps, Level.above, Lazy.get_keep, Level.extend, hls, hshape, bind,
      Except.bind, Step.linkOver, Selection.link, hu, pure, Except.pure]
  refine ⟨_, bind_eq_ok.mpr ⟨_, hchain, bind_eq_ok.mpr ⟨raw, hraw, rfl⟩⟩, fun e he i => ?_⟩
  have hplace : (Place.linear (.int i)).toCoordinates (.ofShape u) =
      .ok ((u.coordinates i).map .int) := Extents.coordinates_ofShape u i
  simp only [Gen.cell_indexed, Level.source, Link.compose, Link.follow, Link.apply, hplace, he,
    bind, Except.bind]

theorem Yields.select_answers (origin : Origin) (hv : v.Yields t f)
    (hu : Selection.shape (.ofShape t) args = .ok (.ofShape u)) (hup : u.IsProper) :
    (v.under (.select args origin)).shape = .ok (.ofShape u) ∧
      (v.under (.select args origin)).IsReady := by
  have hbelow : (Level.ofSteps Item.fillOf v.root.facts v.steps).stage.shape.get =
      .ok (.ofShape t) := Tower.shape_facts.symm.trans hv.shape
  have hshape : (v.under (.select args origin)).shape = .ok (.ofShape u) := by
    refine Tower.shape_facts.trans ?_
    simp only [under, Level.ofSteps, Level.above, Lazy.get_keep, Step.fixedShape?, hbelow,
      Step.shapeOver, hu, bind, Except.bind]
  have hfill : (v.under (.select args origin)).prototype = v.prototype := prototype_under rfl
  refine ⟨hshape, fun e he => ⟨u, Except.ok.inj (he.symm.trans hshape), hup⟩, ?_, hv.ready.kept⟩
  rw [hfill]
  exact hv.ready.fill

/-- What becomes of an array that is made through indices: it is refused for an index that strays,
but only if the selection has some cell, and for nothing else. -/
structure RefusesStraying (o : Int) (t : Shape) (args : List (Option IntArgument)) (u : Shape)
    (w : View Item) : Prop where
  iff : (∃ c, (Item.view w).render = .error (.index c)) ↔
    0 < u.size ∧ ∃ k x, Selection.Strays o t args k x
  cause : ∀ e, (Item.view w).render = .error e →
    ∃ k x, Selection.Strays o t args k x ∧ e = Selection.straying o (k : Nat) x

theorem RefusesStraying.of_render {y : Item} (hr : (Item.view w).render = .ok y)
    (h : u.size = 0 ∨ Selection.InRange o t args) : RefusesStraying o t args u w := by
  refine ⟨⟨?_, ?_⟩, fun e he => ?_⟩
  · rintro ⟨c, hc⟩
    cases hr.symm.trans hc
  · rintro ⟨h0, k, x, hstrays⟩
    rcases h with h | h
    · omega
    · exact absurd hstrays (h.not_strays k x)
  · cases hr.symm.trans he

theorem RefusesStraying.of_error {k : Nat} {x : Int} (h0 : 0 < u.size)
    (h : Selection.Strays o t args k x)
    (hr : (Item.view w).render = .error (Selection.straying o k x)) :
    RefusesStraying o t args u w := by
  refine ⟨⟨fun _ => ⟨h0, k, x, h⟩, fun _ => ⟨_, hr⟩⟩, fun e he => ⟨k, x, h, ?_⟩⟩
  exact Except.error.inj (he.symm.trans hr)

/-- An array that is made through indices is rendered if none strays or there is no cell. -/
theorem RefusesStraying.exists_render (h : RefusesStraying o t args u w)
    (h' : u.size = 0 ∨ ∀ k x, ¬ Selection.Strays o t args k x) :
    ∃ y, (Item.view w).render = .ok y := by
  cases hr : (Item.view w).render with
  | ok y => exact ⟨y, rfl⟩
  | error e =>
      obtain ⟨k, x, hstrays, rfl⟩ := h.cause e hr
      obtain ⟨h0, _⟩ := h.iff.mp ⟨_, hr⟩
      rcases h' with h' | h'
      · omega
      · exact absurd hstrays (h' k x)

theorem Yields.exists_render_select (hv : v.Yields t f) (hp : ∃ p, v.prototype = .ok p)
    (hu : Selection.shape (.ofShape t) args = .ok (.ofShape u)) (hup : u.IsProper)
    {f' : Int → Item} (h : (v.under (.select args origin)).Offers u f') :
    ∃ y, (Item.view (v.under (.select args origin))).render = .ok y := by
  obtain ⟨_, hready⟩ := hv.select_answers origin hu hup
  have hfill : (v.under (.select args origin)).prototype = v.prototype := prototype_under rfl
  have hyields : (v.under (.select args origin)).Yields u f' := ⟨h, hready, fun _ => hfill ▸ hp⟩
  obtain ⟨g, hg, _⟩ := hyields.exists_render
  exact ⟨_, hg⟩

theorem Yields.exists_render_select_of_empty (origin : Origin) (hv : v.Yields t f)
    (hp : ∃ p, v.prototype = .ok p)
    (hu : Selection.shape (.ofShape t) args = .ok (.ofShape u)) (hup : u.IsProper)
    (h0 : u.size = 0) :
    ∃ y, (Item.view (v.under (.select args origin))).render = .ok y := by
  obtain ⟨gen, hgen, _⟩ := hv.cells
  obtain ⟨cells, hcells, _⟩ := exists_generator_select origin hv.shape hu hgen
  obtain ⟨hshape, _⟩ := hv.select_answers origin hu hup
  have hetype : (v.under (.select args origin)).etype = v.etype := etype_under_of_keepsType rfl
  have hoffers : (v.under (.select args origin)).Offers u fun _ => .nothing := by
    refine ⟨hshape, hetype ▸ hv.etype, cells, hcells, fun i hi => ?_⟩
    unfold Shape.Holds at hi
    omega
  exact hv.exists_render_select hp hu hup hoffers

theorem Yields.render_select_eq_error (hv : v.Yields t f)
    (hu : Selection.shape (.ofShape t) args = .ok (.ofShape u)) (hup : u.IsProper)
    (h0 : 0 < u.size) (he : Selection.plan origin 0 (.ofShape t) args = .error e) :
    (Item.view (v.under (.select args origin))).render = .error e := by
  obtain ⟨gen, hgen, _⟩ := hv.cells
  obtain ⟨cells, hcells, hrefused⟩ := exists_generator_select origin hv.shape hu hgen
  obtain ⟨hshape, hready⟩ := hv.select_answers origin hu hup
  exact hready.render_eq_error hshape (under_ne_ofGrid _ _)
    (items_eq_error hshape h0 hcells (hrefused e he))

end View

namespace Item

variable {v values : View Item} {t u s : Shape} {f fv : Int → Item} {e : Fault} {origin : Origin}
  {o : Int} {indices : List (Option Item)}

theorem indexes_of_inRange (h : Selection.InRange o t (arguments indices)) :
    List.Forall₂ (fun n y => ∀ z ∈ y, Indexes o n z) t indices := by
  rw [Selection.InRange, arguments, List.forall₂_map_right_iff] at h
  refine h.imp fun n y hy z hz => ?_
  obtain ⟨u, vs, hu, hvs, hup, _, hb⟩ := hy _ (Option.mem_map_of_mem _ hz)
  exact ⟨u, vs, hu, hvs, hup, hb⟩

theorem render_amend_eq_error (hl : indices.length = t.length)
    (hu : Selection.shape (.ofShape t) (arguments indices) = .ok (.ofShape u)) (hv : v.Yields t f)
    (hvalues : values.Offers s fv) (hs : s.IsSingle ∨ s = u) (h0 : 0 < u.size)
    (he : Selection.plan origin 0 (.ofShape t) (arguments indices) = .error e) :
    ∃ w, amend (.view v) indices ⟨some values, none⟩ origin = .ok w ∧
      (view w).render = .error e := by
  obtain ⟨w, gen, value, hw, hcomputed, hready, _, hshape, _, hgen, _, _⟩ :=
    exists_amend origin hl hu hv hvalues hs
  rw [Selection.targets_of_plan_error hu h0 he] at hgen
  have hcells : (view w).generatorOf = .error e := hgen
  have hitems : (view w).items = .error e := by
    simp only [items, hcells, bind, Except.bind]
  refine ⟨w, hw, hready.render_eq_error hshape ?_ hitems⟩
  obtain ⟨facts, rfl⟩ := hcomputed
  rintro ⟨g, ⟨⟩⟩

end Item

namespace View

variable {v : View Item} {g : Grid Item} {origin : Origin} {o : Int} {indices : List (Option Item)}

/-- Indices are arrays of whole numbers, one for each axis or omitted. An array that is selected
through them, and one that fitting values are assigned to through them, is refused exactly if the
selection has some cell and some index does not lie on its axis, less the origin. It is refused for
such an index, and rendered otherwise. -/
theorem ShownAs.refuses_straying (hv : v.ShownAs g) (ho : origin.number = .ok (.int o))
    (hl : indices.length = g.shape.length)
    (hi : ∀ y ∈ indices, ∀ z ∈ y, Selection.IsReadable (z.asArgument "index")) :
    ∃ u, Selection.shape (.ofShape g.shape) (Item.arguments indices) = .ok (.ofShape u) ∧
      (∃ w, Item.select (.view v) indices origin = .ok w ∧
        RefusesStraying o g.shape (Item.arguments indices) u w) ∧
      ∀ values gv, values.ShownAs gv → gv.shape.IsSingle ∨ gv.shape = u →
        ∃ w, Item.amend (.view v) indices ⟨some values, none⟩ origin = .ok w ∧
          RefusesStraying o g.shape (Item.arguments indices) u w := by
  obtain ⟨root, r, f, hstands, hf, _⟩ := hv.exists_yields
  have hreadable : ∀ y ∈ Item.arguments indices, ∀ z ∈ y, Selection.IsReadable z := by
    intro y hy z hz
    obtain ⟨x, hx, rfl⟩ := List.mem_map.mp hy
    obtain ⟨item, hitem, rfl⟩ := Option.map_eq_some_iff.mp hz
    exact hi x hx item hitem
  have hl' : (Item.arguments indices).length = g.shape.length := by
    rw [Item.arguments, List.length_map, hl]
  obtain ⟨u, hu, hup⟩ := Selection.exists_shape hf.isProper fun y hy z hz => (hreadable y hy z hz).1
  have hselect := Item.select_eq origin hl hf.shape
  refine ⟨u, hu, ⟨_, hselect, ?_⟩, fun values gv hvalues hfit => ?_⟩
  -- all indices are in range, or one strays; then the plans fail, unless none is ever made
  · rcases Selection.inRange_or_strays ho hl' hreadable with hin | ⟨k, x, hstrays, hplan⟩
    · obtain ⟨w, f', hw, _, _, hoffers, _⟩ := hstands.select_spec
        ⟨ho, hf.isProper, Item.indexes_of_inRange hin, hu⟩ hf.toOffers
      obtain rfl := Except.ok.inj (hselect.symm.trans hw)
      obtain ⟨y, hy⟩ := hf.exists_render_select hv.fill hu hup hoffers
      exact .of_render hy (.inr hin)
    · rcases Int.lt_or_eq_of_le (Shape.size_nonneg hup) with h0 | h0
      · exact .of_error h0 hstrays (hf.render_select_eq_error hu hup h0 hplan)
      · obtain ⟨y, hy⟩ := hf.exists_render_select_of_empty origin hv.fill hu hup h0.symm
        exact .of_render hy (.inl h0.symm)
  · obtain ⟨_, _, fv, _, hfv, _⟩ := hvalues.exists_yields
    rcases Selection.inRange_or_strays ho hl' hreadable with hin | ⟨k, x, hstrays, hplan⟩
    · obtain ⟨w, f', hw, _, _, hyields, _⟩ := Item.Selects.amend_spec
        ⟨ho, hf.isProper, Item.indexes_of_inRange hin, hu⟩ hf hfv.toOffers hfit
      obtain ⟨h, hr, _⟩ := hyields.exists_render
      exact ⟨w, hw, .of_render hr (.inr hin)⟩
    · rcases Int.lt_or_eq_of_le (Shape.size_nonneg hup) with h0 | h0
      · obtain ⟨w, hw, hr⟩ := Item.render_amend_eq_error hl hu hf hfv.toOffers hfit h0 hplan
        exact ⟨w, hw, .of_error h0 hstrays hr⟩
      · obtain ⟨w, hw, _, _, hyields⟩ := Item.exists_amend_of_table hl hu hf hfv.toOffers hfit
          (Selection.targets_of_empty hu h0.symm) (by intro i j _ hj; cases hj)
        obtain ⟨h, hr, _⟩ := hyields.exists_render
        exact ⟨w, hw, .of_render hr (.inl h0.symm)⟩

/-- The numbers from one to four in two rows of two. -/
def square : View Item := ofGrid (Grid.of [2, 2] ([1, 2, 3, 4].map .int) none)

/-- There is no column 5. It is refused if some row is selected, but accepted if none is, where an
assignment leaves the array as it was. -/
theorem square_refuses_straying :
    (∃ w c, Item.select (.view square) [some (.ints [0]), some (.ints [5])] (.int 0) = .ok w ∧
      (Item.view w).render = .error (.index c)) ∧
    (∃ w y, Item.select (.view square) [some (.ints []), some (.ints [5])] (.int 0) = .ok w ∧
      (Item.view w).render = .ok y) ∧
    ∃ w y, Item.amend (.view square) [some (.ints []), some (.ints [5])]
        ⟨some (ofGrid (Grid.of [] ([0].map .int) none)), none⟩ (.int 0) = .ok w ∧
      (Item.view w).render = .ok y := by
  have square_proper : Shape.IsProper [2, 2] := by simp [Shape.IsProper]
  have shown : square.ShownAs (Grid.of [2, 2] ([1, 2, 3, 4].map .int) none) :=
    shownAs_ofGrid (isReady_ofNumbers square_proper rfl) square_proper
  have zero : (ofGrid (Grid.of [] ([0].map .int) none)).ShownAs (Grid.of [] ([0].map .int) none) :=
    shownAs_ofGrid (isReady_ofNumbers Shape.isProper_nil rfl) Shape.isProper_nil
  have origin : Scalar.number (.int 0) = .ok (.int 0) := rfl
  have none_listed : Selection.IsReadable ((Item.ints []).asArgument "index") :=
    ⟨⟨Item.isCounted_asArgument _ _, [0], rfl, by simp [Shape.IsProper]⟩, [], rfl⟩
  have first : Selection.IsReadable ((Item.ints [0]).asArgument "index") :=
    ⟨⟨Item.isCounted_asArgument _ _, [1], rfl, by simp [Shape.IsProper]⟩, [0], rfl⟩
  have sixth : Selection.IsReadable ((Item.ints [5]).asArgument "index") :=
    ⟨⟨Item.isCounted_asArgument _ _, [1], rfl, by simp [Shape.IsProper]⟩, [5], rfl⟩
  have in_first : ∀ y ∈ [some (Item.ints [0]), some (.ints [5])], ∀ z ∈ y,
      Selection.IsReadable (z.asArgument "index") := by simpa using ⟨first, sixth⟩
  have in_none : ∀ y ∈ [some (Item.ints []), some (.ints [5])], ∀ z ∈ y,
      Selection.IsReadable (z.asArgument "index") := by simpa using ⟨none_listed, sixth⟩
  obtain ⟨u, hu, ⟨w, hw, refused⟩, _⟩ := shown.refuses_straying origin (by rfl) in_first
  obtain ⟨u', hu', ⟨w', hw', accepted⟩, hassign⟩ :=
    shown.refuses_straying origin (by rfl) in_none
  obtain rfl : [1, 1] = u := Extents.ofShape_inj (Except.ok.inj hu)
  obtain rfl : [0, 1] = u' := Extents.ofShape_inj (Except.ok.inj hu')
  obtain ⟨w'', hw'', assigned⟩ := hassign _ _ zero (.inl ⟨rfl, by decide⟩)
  obtain ⟨c, hc⟩ := refused.iff.mpr ⟨by decide, 1, 5, 2, _, [5], rfl, rfl, rfl, by simp⟩
  obtain ⟨y, hy⟩ := accepted.exists_render (.inl rfl)
  obtain ⟨y', hy'⟩ := assigned.exists_render (.inl rfl)
  exact ⟨⟨w, c, hw, hc⟩, ⟨w', y, hw', hy⟩, w'', y', hw'', hy'⟩

end View
end LazyApl
