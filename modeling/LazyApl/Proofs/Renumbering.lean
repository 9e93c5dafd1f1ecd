import LazyApl.Proofs.Landing
import LazyApl.Proofs.Masking
import LazyApl.Proofs.Overtaking
/-!
# Transforms that renumber cells

A transform renumbers the cells of an array if each cell that it shows is one of the array: it shows
no fill. Where a tower of such transforms leads depends on the shape of the array below only, so it
takes the same positions from any two arrays of one shape.
-/
namespace LazyApl

open Outcome

theorem Section.isPadded_all (t : Shape) : (Layout.all (.ofShape t)).isPadded = false := by
  rw [Layout.isPadded, List.any_eq_false]
  intro s hs
  obtain ⟨e, he, rfl⟩ := List.mem_map.mp hs
  obtain ⟨n, _, rfl⟩ := List.mem_map.mp he
  exact Bool.false_ne_true

theorem Section.exists_reach {l : List Span} {t : Shape} (hf : Span.FitAll l t)
    (hl : (Layout.ofSpans l).isPadded = false) {i : Int} (hi : Shape.Holds (Span.shape l) i) :
    ∃ j, (Section.linkOf l t).reach i = some j := by
  cases hj : (Section.linkOf l t).reach i with
  | some j => exact ⟨j, rfl⟩
  | none =>
      have hpadded := ((Section.exists_reach_none hf).mp ⟨i, hi, hj⟩).1
      rw [hl] at hpadded
      cases hpadded

/-- A drop pads no axis. -/
theorem Section.isPadded_drop {t : Shape} {axes counts : List Int} {l m : Layout}
    (h : spans true (.ofShape t) axes counts l = .ok m) (hl : l.isPadded = false) :
    m.isPadded = false := by
  induction axes generalizing counts l with
  | nil =>
      cases h
      exact hl
  | cons a axes ih =>
      cases counts with
      | nil =>
          cases h
          exact hl
      | cons count counts =>
          have hn : (Extents.ofShape t).getD a.toNat 0 = .int (t.getD a.toNat 0) := by
            simp only [Extents.ofShape, List.getD_eq_getElem?_getD, List.getElem?_map]
            cases t[a.toNat]? <;> rfl
          simp only [spans, hn, AxisSpan.drop_int, ite_true, bind, Except.bind] at h
          refine ih h ?_
          rw [Layout.isPadded, List.any_eq_false] at hl ⊢
          intro s hs
          rcases List.mem_or_eq_of_mem_set hs with hs | rfl
          · exact hl s hs
          · simp [AxisSpan.isPadded]

namespace Replicate

variable {room : Room}

theorem expand_isSome {length : Nat} {i : Int} {ds : List Int} {ps : List (Option Int)}
    (hl : length ≤ room.limit) (h : expand room length i ds = .ok ps) (hd : ∀ d ∈ ds, 0 ≤ d) :
    none ∉ ps := by
  obtain rfl := expand_eq_ok hl h
  intro hmem
  obtain ⟨k, d, hk, hx⟩ := mem_blocks hmem
  rw [if_pos (hd d (List.mem_of_getElem? hk))] at hx
  cases hx

theorem contains_none {degrees : List Int} {isScalar : Bool} {n : Number} {ps : List (Option Int)}
    (h : positions room degrees isScalar n = .ok ps) (hd : ∀ d ∈ degrees, 0 ≤ d) :
    ps.contains none = false := by
  have hcounts : ∃ counts : List Int, (∀ d ∈ counts, d ∈ degrees) ∧ (do
      if ← n.lt counts.length then
        .error (.length .countsBeyondCells [[counts.length], [n]])
      else expand (room.beside counts.length) 0 0 counts) = Except.ok ps := by
    simp only [positions] at h
    split at h
    · obtain ⟨m, _, h⟩ := bind_eq_ok.mp h
      obtain ⟨counts, hcounts, h⟩ := bind_eq_ok.mp h
      exact ⟨counts, fun d hmem => Room.mem_of_repeated hcounts hmem, h⟩
    · exact ⟨degrees, fun d hmem => hmem, h⟩
  obtain ⟨counts, hmem, hcounts⟩ := hcounts
  obtain ⟨b, _, hcounts⟩ := bind_eq_ok.mp hcounts
  cases b with
  | true => cases hcounts
  | false => simpa using expand_isSome (Nat.zero_le _) hcounts fun d hd' => hd d (hmem d hd')

end Replicate

namespace Link

theorem Carries.exists_reach {l : Link} {u t : Shape} (h : l.Carries u t) (hf : l.IsFull) {i : Int}
    (hi : u.Holds i) : ∃ j, l.reach i = some j := by
  obtain ⟨r, hr, ha⟩ := h.apply_names (.linear hi)
  cases hj : l.reach i with
  | some j => exact ⟨j, rfl⟩
  | none =>
      rw [hj] at ha
      cases r with
      | none => exact absurd hr (hf _)
      | some q => exact ha.elim

end Link

namespace Step

/-- Over a source of the given shape the transform shows cells of the source only. -/
def ShowsCells (t : Shape) : Step → Prop
  | reshape _ _ => t.size ≠ 0
  | cut _ drop counts axes =>
    ∀ l, Section.layout drop counts axes (.ofShape t) = .ok l → l.isPadded = false
  | compress degrees _ _ _ _ _ => ∀ d ∈ degrees, 0 ≤ d
  | window _ _ => False
  | _ => True

variable {x : Step} {t u : Shape} {l : Link}

theorem ShowsCells.isWindow (h : x.ShowsCells t) : x.isWindow = false := by
  cases x with
  | window offset dims => exact h.elim
  | _ => rfl

/-- A transform that shows cells only leads each of its cells to a cell of its source. -/
theorem ShowsCells.exists_reach (h : x.ShowsCells t) (hx : x.IsSound t) (ht : t.IsProper)
    (hu : x.shapeOver (.ofShape t) = .ok (.ofShape u)) (hl : x.linkOver (.ofShape t) = .ok l)
    {i : Int} (hi : u.Holds i) : ∃ j, t.Holds j ∧ l.reach i = some j := by
  obtain ⟨u', hu', _, hc⟩ := hx.leads ht hu
  obtain rfl := Extents.ofShape_inj hu'
  have hcarries := hc l hl
  have hreach : ∃ j, l.reach i = some j := by
    cases x with
    | reshape style dims => exact hcarries.exists_reach (Reshape.isFull_link h hl) hi
    | permute axes =>
        obtain ⟨_, _, hl⟩ := bind_eq_ok.mp hl
        exact hcarries.exists_reach (Transpose.isFull_link hl) hi
    | rotate amount given first origin =>
        obtain ⟨_, _, hl⟩ := bind_eq_ok.mp hl
        exact hcarries.exists_reach (Rotation.isFull_linkWith hl) hi
    | select indices origin => exact hcarries.exists_reach (Selection.isFull_link hl) hi
    | window offset dims => exact h.elim
    | compress degrees isScalar given first origin room =>
        obtain ⟨a, _, hl⟩ := bind_eq_ok.mp hl
        obtain ⟨n, _, hl⟩ := bind_eq_ok.mp hl
        obtain ⟨ps, hps, hl⟩ := bind_eq_ok.mp hl
        cases hl
        have hnone := Replicate.contains_none hps h
        exact hcarries.exists_reach (Replicate.isFull_link hnone a (.ofShape t)) hi
    | cut style drop counts axes =>
        obtain ⟨o, ho, hf⟩ := Section.layout_ofShape drop counts axes ht
        have hpadded := h _ ho
        simp only [shapeOver, ho, Layout.extents_ofSpans, bind, Except.bind] at hu
        simp only [linkOver, ho, Section.link_ofSpans, bind, Except.bind] at hl
        obtain rfl := Extents.ofShape_inj (Except.ok.inj hu)
        cases hl
        exact Section.exists_reach hf hpadded hi
  obtain ⟨j, hj⟩ := hreach
  exact ⟨j, hcarries.holds hi hj, hj⟩

end Step

namespace Tower

/-- Transforms, the outermost first, that renumber the cells of an array of shape `t` to an array of
shape `u`: each one shows only cells of the array below it. -/
inductive Renumbers (t : Shape) : List Step → Shape → Prop
  | nil : Renumbers t [] t
  | cons {steps : List Step} {x : Step} {s u : Shape} {l : Link} (below : Renumbers t steps s)
      (sound : x.IsSound s) (cells : x.ShowsCells s)
      (shape : x.shapeOver (.ofShape s) = .ok (.ofShape u))
      (link : x.linkOver (.ofShape s) = .ok l) : Renumbers t (x :: steps) u

end Tower

namespace View

variable {root : Root Item} {r t u : Shape} {v w : View Item} {x : Step} {steps : List Step}

/-- An array under some more transforms, the outermost first. -/
def through (v : View Item) (steps : List Step) : View Item := ⟨v.root, steps ++ v.steps⟩

theorem through_cons (v : View Item) (x : Step) (steps : List Step) :
    v.through (x :: steps) = (v.through steps).under x := rfl

theorem exists_etype_cut (h : StandsOn root r v t) (he : ∃ e, v.etype = .ok e) (style : Cut)
    {drop : Bool} {counts : List Int} {axes : Option (List Int)}
    (hcells : (Step.cut style drop counts axes).ShowsCells t) :
    ∃ e, (v.under (.cut style drop counts axes)).etype = .ok e := by
  obtain ⟨o, ho, hf⟩ := Section.layout_ofShape drop counts axes (h.stands.keeps Item.fillOf).proper
  refine (h.exists_etype_cut he style ho hf).mpr fun hpadded => ?_
  rw [hcells _ ho] at hpadded
  cases hpadded

/-- A transform that shows cells only leaves the element type as it is. A section that looks through
other sections below it may not: it goes back to the type that there is below these. -/
theorem etype_under (hv : v.shape = .ok (.ofShape t)) (hx : x.ShowsCells t) {l : Link}
    (hl : x.linkOver (.ofShape t) = .ok l)
    (hcut : (∃ style drop counts axes, x = .cut style drop counts axes) →
      (Level.ofSteps Item.fillOf v.root.facts v.steps).spans? = none) :
    (v.under x).etype = v.etype := by
  have hbase : v.etype = (Level.ofSteps Item.fillOf v.root.facts v.steps).stage.etype.get :=
    Tower.etype_facts
  have hown : (v.under x).etype =
      (Level.ofSteps Item.fillOf v.root.facts (x :: v.steps)).stage.etype.get := Tower.etype_facts
  have hshape : (Level.ofSteps Item.fillOf v.root.facts v.steps).stage.shape.get =
      .ok (.ofShape t) := Tower.shape_facts.symm.trans hv
  rw [hown, hbase]
  cases x with
  | window offset dims => exact hx.elim
  | reshape style dims =>
      have h0 : t.size ≠ 0 := hx
      simp [Level.ofSteps, Level.above, hshape, h0, bind, Except.bind]
  | cut style drop counts axes =>
      obtain ⟨o, ho, _⟩ := bind_eq_ok.mp hl
      have hmerged : Level.mergedLayout (Level.ofSteps Item.fillOf v.root.facts v.steps) drop counts
          axes = .ok ((Level.ofSteps Item.fillOf v.root.facts v.steps).stage, o) := by
        simp [Level.mergedLayout, hcut ⟨_, _, _, _, rfl⟩, hshape, ho, bind, Except.bind, pure,
          Except.pure]
      have htype : (Level.ofSteps Item.fillOf v.root.facts
          (.cut style drop counts axes :: v.steps)).stage.etype.get = _ := Level.etype_cut hmerged
      rw [htype, hx o ho, if_neg Bool.false_ne_true]
  | compress degrees isScalar given first origin room =>
      obtain ⟨a, ha, hl⟩ := bind_eq_ok.mp hl
      obtain ⟨n, hn, hl⟩ := bind_eq_ok.mp hl
      obtain ⟨ps, hps, _⟩ := bind_eq_ok.mp hl
      have hnone : none ∉ ps := by simpa using Replicate.contains_none hps hx
      simp [Level.ofSteps, Level.above, hshape, ha, hn, hps, hnone, bind, Except.bind]
  | _ => rfl

theorem exists_etype_under (h : StandsOn root r v t) (he : ∃ e, v.etype = .ok e)
    (hx : x.ShowsCells t) {l : Link} (hl : x.linkOver (.ofShape t) = .ok l) :
    ∃ e, (v.under x).etype = .ok e := by
  by_cases hcut : ∃ style drop counts axes, x = .cut style drop counts axes
  · obtain ⟨style, drop, counts, axes, rfl⟩ := hcut
    exact exists_etype_cut h he style hx
  · rw [etype_under h.shape_eq hx hl fun h => absurd h hcut]
    exact he

/-- The one array shows the cells of the other at some positions, and has its fill. -/
structure Renumbered (w v : View Item) (u : Shape) (p : Int → Int) : Prop where
  cells : ∀ gen, v.generator = .ok gen → ∃ cells, w.generator = .ok cells ∧
    ∀ i, u.Holds i → cells.cell (.int i) = gen.cell (.int (p i))
  etype : (∃ e, v.etype = .ok e) → ∃ e, w.etype = .ok e
  prototype : w.prototype = v.prototype

/-- A tower of transforms that show cells only takes the same positions from every array of one
shape. -/
theorem exists_positions (h : Tower.Renumbers t steps u) (ht : t.IsProper) :
    u.IsProper ∧ ∃ p : Int → Int, (∀ i, u.Holds i → t.Holds (p i)) ∧
      ∀ {root : Root Item} {r : Shape} {v : View Item}, StandsOn root r v t →
        StandsOn root r (v.through steps) u ∧ (v.through steps).Renumbered v u p := by
  -- from the innermost transform outwards: each one takes positions of what is below it
  induction h with
  | nil =>
      refine ⟨ht, id, fun i hi => hi, fun hv => ⟨hv, fun gen hgen => ?_, id, rfl⟩⟩
      exact ⟨gen, hgen, fun i _ => rfl⟩
  | @cons steps x s u l _ sound cells shape link ih =>
      obtain ⟨hs, p, hp, hbelow⟩ := ih
      obtain ⟨u', hu', hproper, _⟩ := sound.leads hs shape
      obtain rfl := Extents.ofShape_inj hu'
      have hreach (i : Int) (hi : u.Holds i) : ∃ j, s.Holds j ∧ l.reach i = some j :=
        cells.exists_reach sound hs shape link hi
      choose! q hq hl using hreach
      refine ⟨hproper, fun i => p (q i), fun i hi => hp _ (hq i hi), fun {_ _ v} hv => ?_⟩
      obtain ⟨hstands, hrenumbered⟩ := hbelow hv
      rw [through_cons]
      refine ⟨hstands.above sound shape, fun gen hgen => ?_, fun he => ?_, ?_⟩
      · obtain ⟨mid, hmid, heach⟩ := hrenumbered.cells gen hgen
        obtain ⟨top, htop, hunder⟩ := hstands.generator_under sound shape link cells.isWindow hmid
        refine ⟨top, htop, fun i hi => ?_⟩
        rw [hunder i hi, hl i hi]
        exact heach _ (hq i hi)
      · exact exists_etype_under hstands (hrenumbered.etype he) cells link
      · exact (prototype_under cells.isWindow).trans hrenumbered.prototype

/-- A transform that is sound and shows cells only has a shape and a link over an array if the
result has a shape and hands out cells. -/
theorem StandsOn.exists_link (h : StandsOn root r v t) (hx : x.IsSound t) {e : Extents}
    (hs : (v.under x).shape = .ok e) {gen : Gen Item} (hgen : (v.under x).generator = .ok gen) :
    ∃ u l, x.shapeOver (.ofShape t) = .ok (.ofShape u) ∧ x.linkOver (.ofShape t) = .ok l := by
  have hk := h.stands.keeps Item.fillOf
  obtain ⟨rfl, _⟩ := h
  obtain ⟨e', he'⟩ := Level.shapeOver_of_above hk hs
  obtain ⟨u, rfl, _⟩ := hx.leads hk.proper he'
  obtain ⟨ms, _, hms, _⟩ := Tower.generator_ok hgen
  have hfollows := (Level.advances_of_isSound Item.fillOf v.root.facts hk hx he').follows
  cases hl : x.linkOver (.ofShape t) with
  | ok l => exact ⟨u, l, he', rfl⟩
  | error f =>
      rw [hl] at hfollows
      exact absurd hms (hfollows ms)

end View

/-- An index transform with its arguments. -/
inductive Renumbering
  | reshape (shape : Item)
  | ravel
  | permute (axes : Option Item) (origin : Origin)
  | rotate (amount : Option Item) (axis : Option AxisArgument) (first : Bool) (origin : Origin)
  | drop (counts : Item) (axis : Option Item) (origin : Origin)
  | take (counts : Item) (axis : Option Item) (origin : Origin)
  | replicate (degrees : Item) (axis : Option AxisArgument) (first : Bool) (origin : Origin)
  | select (indices : List (Option Item)) (origin : Origin)

namespace Renumbering

/-- The transform of an array. -/
def apply [Platform] (T : Renumbering) (base : Item) : Except Fault (View Item) :=
  match T with
  | reshape shape => Item.reshape base shape
  | ravel => Item.ravel base
  | permute axes origin => Item.permute base axes origin
  | rotate amount axis first origin => .ok (Item.rotate base amount axis first origin)
  | drop counts axis origin => Item.drop base counts axis origin
  | take counts axis origin => Item.take base counts axis origin
  | replicate degrees axis first origin => Item.replicate base degrees axis first origin
  | select indices origin => Item.select base indices origin

/-- The transform shows only cells of an array of the given shape. There is a cell to be reshaped,
no more is taken than there is, no count is negative, and the indices lie on their axes. -/
def CreatesNoPad (t : Shape) : Renumbering → Prop
  | reshape _ => t.size ≠ 0
  | ravel => t.size ≠ 0
  | permute _ _ => True
  | rotate _ _ _ origin => origin.IsWhole
  | drop _ _ origin => origin.IsWhole
  | take counts axis origin => origin.IsWhole ∧ ∀ v w : View Item, v.shape = .ok (.ofShape t) →
      Item.take (.view v) counts axis origin = .ok w → ¬ w.Overtakes
  | replicate degrees _ _ _ => ∀ arg counts, Item.flat degrees .leftScalarOrVector = .ok arg →
      arg.asInts "left argument" = .ok counts → ∀ d ∈ counts, 0 ≤ d
  | select indices origin => ∃ o, origin.number = .ok (.int o) ∧
      List.Forall₂ (fun n y => ∀ z ∈ y, Item.Indexes o n z) t indices

variable {T : Renumbering} {v w : View Item} {t : Shape}

/-- The steps that a transform puts on an array: a sound one that shows cells only, below which a
scalar may be given axes. -/
inductive Puts (t : Shape) : List Step → Prop
  | single {x : Step} (sound : x.IsSound t) (cells : x.ShowsCells t) : Puts t [x]
  | raised {x : Step} {dims : Shape} (scalar : t = []) (proper : dims.IsProper)
      (sound : x.IsSound dims) (cells : x.ShowsCells dims) : Puts t [x, .reshape .reshape dims]

theorem exists_puts_of_cut {style : Cut} {drop : Bool} {counts : Item} {axis : Option Item}
    {origin : Origin} (hv : v.shape = .ok (.ofShape t)) (ho : origin.IsWhole)
    (h : Item.cut style drop (.view v) counts axis origin = .ok w)
    (hcells : ∀ (u : View Item) (s : Shape) (ks : List Int) (axes : Option (List Int)),
      u.shape = .ok (.ofShape s) → w = u.under (.cut style drop ks axes) →
        (Step.cut style drop ks axes).ShowsCells s) :
    ∃ steps, w = v.through steps ∧ Puts t steps ∧ ∀ v' : View Item,
      v'.shape = .ok (.ofShape t) →
        Item.cut style drop (.view v') counts axis origin = .ok (v'.through steps) := by
  have hrank {v' : View Item} (hv' : v'.shape = .ok (.ofShape t)) : v'.rank = v.rank :=
    View.rank_eq_of_shape hv' hv
  rcases Item.cut_eq_ok ho h with ⟨ks, axes, rfl, hall⟩ | ⟨h0, ks, rfl, hall⟩
  · exact ⟨[.cut style drop ks axes], rfl, .single trivial (hcells v t ks axes hv rfl),
      fun v' hv' => hall v' (hrank hv')⟩
  · have ht : t = [] := by
      rw [View.rank_of_shape hv] at h0
      simpa using h0
    refine ⟨[.cut style drop ks none, .reshape .reshape (ks.map fun _ => 1)], rfl,
      .raised ht (Shape.isProper_ones ks) trivial ?_, fun v' hv' => hall v' (hrank hv')⟩
    exact hcells _ _ ks none rfl rfl

theorem exists_puts_of_replicate [Platform] {degrees : Item} {axis : Option AxisArgument}
    {first : Bool} {origin : Origin} (hv : v.shape = .ok (.ofShape t))
    (hcells : ∀ arg counts, Item.flat degrees .leftScalarOrVector = .ok arg →
      arg.asInts "left argument" = .ok counts → ∀ d ∈ counts, 0 ≤ d)
    (h : Item.replicate (.view v) degrees axis first origin = .ok w) :
    ∃ steps, w = v.through steps ∧ Puts t steps ∧ ∀ v' : View Item,
      v'.shape = .ok (.ofShape t) →
        Item.replicate (.view v') degrees axis first origin = .ok (v'.through steps) := by
  obtain ⟨arg, harg, h⟩ := bind_eq_ok.mp h
  obtain ⟨ks, hks, h⟩ := bind_eq_ok.mp h
  obtain ⟨n, hn, h⟩ := bind_eq_ok.mp h
  obtain ⟨rank, hrank, h⟩ := bind_eq_ok.mp h
  cases h
  have hall (v' : View Item) (hv' : v'.shape = .ok (.ofShape t)) :
      Item.replicate (.view v') degrees axis first origin = .ok
        ((if rank = 0 then v'.under (.reshape .reshape [(ks.length : Int)]) else v').under
          (.compress ks (n = 0) axis first origin Platform.room)) := by
    have hrank' : v'.rank = .ok rank := (View.rank_eq_of_shape hv' hv).trans hrank
    exact bind_eq_ok.mpr ⟨arg, harg, bind_eq_ok.mpr ⟨ks, hks, bind_eq_ok.mpr ⟨n, hn,
      bind_eq_ok.mpr ⟨rank, hrank', rfl⟩⟩⟩⟩
  -- the cells of a scalar are put in a row before they are repeated
  by_cases h0 : rank = 0
  · simp only [if_pos h0] at hall ⊢
    have ht : t = [] := by
      have hr := (View.rank_of_shape hv).symm.trans hrank
      simpa [h0] using hr
    have hproper : Shape.IsProper [(ks.length : Int)] := by simp [Shape.IsProper]
    exact ⟨[.compress ks (n = 0) axis first origin Platform.room,
      .reshape .reshape [(ks.length : Int)]], rfl,
      .raised ht hproper trivial (hcells arg ks harg hks), hall⟩
  · simp only [if_neg h0] at hall ⊢
    exact ⟨[.compress ks (n = 0) axis first origin Platform.room], rfl,
      .single trivial (hcells arg ks harg hks), hall⟩

theorem exists_puts_of_select {indices : List (Option Item)} {origin : Origin} {o : Int}
    (hv : v.shape = .ok (.ofShape t)) (ho : origin.number = .ok (.int o))
    (hi : List.Forall₂ (fun n y => ∀ z ∈ y, Item.Indexes o n z) t indices)
    (h : Item.select (.view v) indices origin = .ok w) :
    ∃ steps, w = v.through steps ∧ Puts t steps ∧ ∀ v' : View Item,
      v'.shape = .ok (.ofShape t) →
        Item.select (.view v') indices origin = .ok (v'.through steps) := by
  obtain rfl := Item.select_eq_ok h
  refine ⟨[.select (indices.map fun y => y.map fun y : Item => y.asArgument "index") origin],
    rfl, .single ⟨o, ho, Item.inRange_asArguments hi⟩ trivial, fun v' hv' => ?_⟩
  obtain ⟨ys, hy, h⟩ := bind_eq_ok.mp h
  obtain ⟨rank, hr, hy⟩ := bind_eq_ok.mp hy
  have hr' : v'.rank = .ok rank := (View.rank_eq_of_shape hv' hv).trans hr
  split at hy
  · cases hy
  · rename_i hlen
    cases hy
    refine bind_eq_ok.mpr ⟨_, bind_eq_ok.mpr ⟨rank, hr', ?_⟩, rfl⟩
    rw [if_neg hlen]
    rfl

/-- What a transform puts on an array depends on the array by its shape only. -/
theorem exists_puts [Platform] (hv : v.shape = .ok (.ofShape t)) (hT : T.CreatesNoPad t)
    (h : T.apply (.view v) = .ok w) :
    ∃ steps, w = v.through steps ∧ Puts t steps ∧ ∀ v' : View Item,
      v'.shape = .ok (.ofShape t) → T.apply (.view v') = .ok (v'.through steps) := by
  -- one case for each transform: the arguments are read off the array at hand, and stay what they
  -- are for every other array of the shape
  cases T with
  | reshape shape =>
      obtain ⟨arg, harg, h⟩ := bind_eq_ok.mp h
      obtain ⟨xs, hxs, h⟩ := bind_eq_ok.mp h
      obtain ⟨dims, hd, h⟩ := bind_eq_ok.mp h
      cases h
      refine ⟨[.reshape .reshape dims], rfl, .single (Item.newShape_isProper hd) hT,
        fun v' _ => ?_⟩
      exact bind_eq_ok.mpr ⟨arg, harg, bind_eq_ok.mpr ⟨xs, hxs, bind_eq_ok.mpr ⟨dims, hd, rfl⟩⟩⟩
  | ravel =>
      obtain ⟨n, hn, h⟩ := bind_eq_ok.mp h
      obtain ⟨dims, hd, h⟩ := bind_eq_ok.mp h
      cases h
      refine ⟨[.reshape .ravel dims], rfl, .single (Item.newShape_isProper hd) hT,
        fun v' hv' => ?_⟩
      have hn' : v'.size = .ok n := by
        rw [View.size, hv', ← hv]
        exact hn
      exact bind_eq_ok.mpr ⟨n, hn', bind_eq_ok.mpr ⟨dims, hd, rfl⟩⟩
  | permute axes origin =>
      cases axes with
      | none =>
          cases h
          exact ⟨[.permute none], rfl, .single trivial trivial, fun v' _ => rfl⟩
      | some axes =>
          obtain ⟨arg, harg, h⟩ := bind_eq_ok.mp h
          obtain ⟨given, hgiven, h⟩ := bind_eq_ok.mp h
          obtain ⟨xs, hxs, h⟩ := bind_eq_ok.mp h
          cases h
          refine ⟨[.permute (some xs)], rfl, .single trivial trivial, fun v' _ => ?_⟩
          exact bind_eq_ok.mpr ⟨arg, harg,
            bind_eq_ok.mpr ⟨given, hgiven, bind_eq_ok.mpr ⟨xs, hxs, rfl⟩⟩⟩
  | rotate amount axis first origin =>
      cases h
      have hcounted : ∀ y ∈ amount.map fun k => k.asArgument "rotation", y.IsCounted := by
        intro y hy
        obtain ⟨x, _, rfl⟩ := Option.map_eq_some_iff.mp hy
        exact Item.isCounted_asArgument x "rotation"
      exact ⟨[.rotate (amount.map fun k => k.asArgument "rotation") axis first origin], rfl,
        .single ⟨hcounted, hT⟩ trivial, fun v' _ => rfl⟩
  | drop counts axis origin =>
      refine exists_puts_of_cut hv hT h fun u s ks axes _ _ l hl => ?_
      exact Section.isPadded_drop hl (Section.isPadded_all s)
  | take counts axis origin =>
      obtain ⟨ho, hT⟩ := hT
      refine exists_puts_of_cut hv ho h fun u s ks axes hu hw l hl => ?_
      have hnot := hT v w hv h
      rw [hw, View.overtakes_iff hu hl] at hnot
      simpa using hnot
  | replicate degrees axis first origin => exact exists_puts_of_replicate hv hT h
  | select indices origin =>
      obtain ⟨o, ho, hi⟩ := hT
      exact exists_puts_of_select hv ho hi h

/-- A transform that can be applied to an array, and then shows cells only, leads to its cells. -/
theorem exists_renumbers [Platform] {root : Root Item} {r : Shape} (hv : View.StandsOn root r v t)
    (hT : T.CreatesNoPad t) (h : T.apply (.view v) = .ok w) {e : Extents} (hs : w.shape = .ok e)
    {gen : Gen Item} (hgen : w.generator = .ok gen) :
    ∃ steps u, Puts t steps ∧ Tower.Renumbers t steps u ∧ ∀ v' : View Item,
      v'.shape = .ok (.ofShape t) → T.apply (.view v') = .ok (v'.through steps) := by
  obtain ⟨steps, rfl, hputs, hall⟩ := exists_puts hv.shape_eq hT h
  refine ⟨steps, ?_⟩
  cases hputs with
  | @single x sound cells =>
      obtain ⟨u, l, hu, hl⟩ := hv.exists_link sound hs hgen
      exact ⟨u, .single sound cells, .cons .nil sound cells hu hl, hall⟩
  | @raised x dims scalar proper sound cells =>
      subst scalar
      have hreshaped : View.StandsOn root r (v.under (.reshape .reshape dims)) dims :=
        hv.reshape proper
      obtain ⟨u, l, hu, hl⟩ := hreshaped.exists_link sound hs hgen
      have hlink : ∃ l, (Step.reshape .reshape dims).linkOver (.ofShape []) = .ok l := by
        simp only [Step.linkOver, Reshape.link, Extents.size_ofShape, Number.le_int, bind,
          Except.bind]
        split_ifs <;> exact ⟨_, rfl⟩
      obtain ⟨_, hlink⟩ := hlink
      have hone : Shape.size [] ≠ 0 := Int.one_ne_zero
      exact ⟨u, .raised rfl proper sound cells,
        .cons (.cons .nil proper hone rfl hlink) sound cells hu hl, hall⟩

/-- Under a transform that shows cells only an array at hand is of its own element type. -/
theorem Puts.etype_ofGrid {g : Grid Item} {steps : List Step} {u : Shape}
    (h : Puts g.shape steps) (hu : Tower.Renumbers g.shape steps u) :
    ((View.ofGrid g).through steps).etype = .ok g.etype := by
  cases h with
  | @single x sound cells =>
      cases hu with
      | cons below _ _ _ link =>
          cases below with
          | nil =>
              have hown : ((View.ofGrid g).under x).etype = (View.ofGrid g).etype :=
                View.etype_under rfl cells link fun _ => rfl
              exact hown
  | @raised x dims _ _ _ cells =>
      cases hu with
      | cons below _ _ _ link =>
          cases below with
          | cons below _ hone hdims hlink =>
              cases below with
              | nil =>
                  obtain rfl := Extents.ofShape_inj (Except.ok.inj hdims)
                  have hbelow : ((View.ofGrid g).under (.reshape .reshape dims)).etype =
                      (View.ofGrid g).etype := View.etype_under rfl hone hlink fun _ => rfl
                  have hown : (((View.ofGrid g).under (.reshape .reshape dims)).under x).etype =
                      ((View.ofGrid g).under (.reshape .reshape dims)).etype :=
                    View.etype_under rfl cells link fun _ => rfl
                  exact hown.trans hbelow

end Renumbering
end LazyApl
