import LazyApl.Primitive.Restructure
import LazyApl.Proofs.Folding
/-!
# Arrays raised from a root

Which arrays an index transform can make of an array: those that its constructor accepts and that
have a shape. The origin is a whole number, and the indices of a selection lie on their axes. An
array that has been raised from a root by such transforms, one after the other, is a tower that
stands on the root.
-/
namespace LazyApl

open Outcome

def Scalar.IsWhole (origin : Origin) : Prop := ∃ o : Int, origin.number = .ok (.int o)

namespace Item

/-- The cells of an item are whole numbers that name cells of an axis, counted from an origin. -/
def Indexes (o n : Int) (y : Item) : Prop :=
  ∃ (u : Shape) (vs : List Int), (view y.lift).shapeOf = .ok (.ofShape u) ∧
    y.asInts "index" = .ok vs ∧ u.IsProper ∧ ∀ v ∈ vs, o ≤ v ∧ v < o + n

theorem length_asInts {x : Item} {role : String} {e : Extents} {vs : List Int}
    (he : (view x.lift).shapeOf = .ok e) (h : x.asInts role = .ok vs) :
    ∃ u : Shape, e = .ofShape u ∧ vs.length = u.size.toNat := by
  obtain ⟨ys, hy, h⟩ := bind_eq_ok.mp h
  unfold items at hy
  obtain ⟨cells, _, hy⟩ := bind_eq_ok.mp hy
  obtain ⟨s, hs, hy⟩ := bind_eq_ok.mp hy
  obtain ⟨m, hm, hy⟩ := bind_eq_ok.mp hy
  obtain rfl : s = e := by
    cases x <;> exact Except.ok.inj (hs.symm.trans he)
  obtain ⟨u, rfl, rfl⟩ := Extents.count_eq_ok hm
  refine ⟨u, rfl, ?_⟩
  rw [← (mapM_eq_ok.mp h).length_eq, ← (mapM_eq_ok.mp hy).length_eq, length_upTo]

theorem length_asInts_single {x : Item} {role : String} {vs : List Int}
    (h : (list [x]).asInts role = .ok vs) : vs.length = 1 := by
  obtain ⟨m, hm, hl⟩ := length_asInts (e := .ofShape [1]) rfl h
  obtain rfl := Extents.ofShape_inj hm
  exact hl

theorem asInts_single_ne_nil {x : Item} {role : String} {vs : List Int}
    (h : (list [x]).asInts role = .ok vs) : vs ≠ [] := by
  rintro rfl
  cases length_asInts_single h

theorem isCounted_asArgument (x : Item) (role : String) : (x.asArgument role).IsCounted :=
  fun _ _ he hv => length_asInts he hv

theorem newShape_isProper {xs : List Item} {dims : Shape} (h : newShape xs = .ok dims) :
    dims.IsProper := by
  obtain ⟨ns, _, h⟩ := bind_eq_ok.mp h
  split at h
  · cases h
  · rename_i hn
    obtain rfl := Except.ok.inj h
    intro n hm
    simp only [List.any_eq_true, decide_eq_true_eq, not_exists, not_and, not_lt] at hn
    exact hn n hm

variable {v w : View Item}

theorem table_eq_ok (h : table (.view v) = .ok w) :
    ∃ dims, Shape.IsProper dims ∧ w = v.under (.reshape .table dims) := by
  simp only [table, lift] at h
  obtain ⟨s, _, h⟩ := bind_eq_ok.mp h
  have hd : ∃ xs, (do
      let dims ← newShape xs
      return v.under (.reshape .table dims)) = Except.ok w := by
    cases s with
    | nil => exact ⟨[int 1, int 1], h⟩
    | cons n rest =>
        obtain ⟨m, _, h⟩ := bind_eq_ok.mp h
        exact ⟨[ofNumber n, ofNumber m], h⟩
  obtain ⟨xs, h⟩ := hd
  obtain ⟨dims, hd, h⟩ := bind_eq_ok.mp h
  cases h
  exact ⟨dims, newShape_isProper hd, rfl⟩

theorem index_located {origin : Origin} {rank : Int} {axes : List Int} {xs : List Number}
    (ho : origin.IsWhole)
    (h : axes.mapM (fun a => (AxisArgument.whole a).located rank origin) = .ok xs) :
    ∃ whole, xs.mapM Number.index = .ok whole := by
  obtain ⟨o, ho⟩ := ho
  have hx : ∀ x ∈ xs, ∃ k, x = .int k := by
    intro x hx
    obtain ⟨a, _, ha⟩ := mem_of_mapM h hx
    exact AxisArgument.located_whole ho ha
  clear h
  induction xs with
  | nil => exact ⟨[], rfl⟩
  | cons x xs ih =>
      obtain ⟨hx, hr⟩ := List.forall_mem_cons.mp hx
      obtain ⟨k, rfl⟩ := hx
      obtain ⟨ks, hk⟩ := ih hr
      exact ⟨k :: ks, by simp [List.mapM_cons, hk, bind, Except.bind, pure, Except.pure]⟩

/-- A section is a cut of the array, or of the array with one cell along new axes if it has none.
Which cut it is depends on the array only by its rank. -/
theorem cut_eq_ok {style : Cut} {drop : Bool} {counts : Item} {axis : Option Item}
    {origin : Origin} (ho : origin.IsWhole)
    (h : cut style drop (.view v) counts axis origin = .ok w) :
    (∃ ks axes, w = v.under (.cut style drop ks axes) ∧ ∀ v' : View Item, v'.rank = v.rank →
        cut style drop (.view v') counts axis origin = .ok (v'.under (.cut style drop ks axes))) ∨
      v.rank = .ok 0 ∧ ∃ ks, w = (v.under (.reshape .reshape (ks.map fun _ => 1))).under
          (.cut style drop ks none) ∧ ∀ v' : View Item, v'.rank = v.rank →
        cut style drop (.view v') counts axis origin =
          .ok ((v'.under (.reshape .reshape (ks.map fun _ => 1))).under
            (.cut style drop ks none)) := by
  obtain ⟨flat, hflat, h⟩ := bind_eq_ok.mp h
  obtain ⟨ks, hks, h⟩ := bind_eq_ok.mp h
  cases axis with
  | some axis =>
      obtain ⟨as, has, h⟩ := bind_eq_ok.mp h
      split at h
      · cases h
      · rename_i hlen
        obtain ⟨rank, hr, h⟩ := bind_eq_ok.mp h
        obtain ⟨xs, hx, h⟩ := bind_eq_ok.mp h
        obtain ⟨whole, hw⟩ := index_located ho hx
        rw [hw] at h
        cases h
        refine .inl ⟨ks, some whole, rfl, fun v' hv => ?_⟩
        have hr' : (view v').based.rank = .ok rank := hv.trans hr
        simp only [cut, hflat, hks, has, hr', hx, hw, bind, Except.bind, if_neg hlen]
        rfl
  | none =>
      obtain ⟨rank, hr, h⟩ := bind_eq_ok.mp h
      split at h
      · rename_i h0
        cases h
        subst h0
        refine .inr ⟨hr, ks, rfl, fun v' hv => ?_⟩
        have hr' : (view v').based.rank = .ok 0 := hv.trans hr
        simp only [cut, hflat, hks, hr', bind, Except.bind, if_pos]
        rfl
      · rename_i h0
        split at h
        · cases h
        · rename_i h1
          cases h
          refine .inl ⟨ks, none, rfl, fun v' hv => ?_⟩
          have hr' : (view v').based.rank = .ok rank := hv.trans hr
          simp only [cut, hflat, hks, hr', bind, Except.bind, if_neg h0, if_neg h1]
          rfl

theorem permute_eq_ok {axes : Option Item} {origin : Origin}
    (h : permute (.view v) axes origin = .ok w) : ∃ xs, w = v.under (.permute xs) := by
  cases axes with
  | none =>
      cases h
      exact ⟨none, rfl⟩
  | some axes =>
      obtain ⟨_, _, h⟩ := bind_eq_ok.mp h
      obtain ⟨_, _, h⟩ := bind_eq_ok.mp h
      obtain ⟨xs, _, h⟩ := bind_eq_ok.mp h
      cases h
      exact ⟨some xs, rfl⟩

theorem replicate_eq_ok [Platform] {degrees : Item} {axis : Option AxisArgument} {first : Bool}
    {origin : Origin} (h : replicate (.view v) degrees axis first origin = .ok w) :
    ∃ ks isScalar, w = v.under (.compress ks isScalar axis first origin Platform.room) ∨
      ∃ dims, Shape.IsProper dims ∧ w = (v.under (.reshape .reshape dims)).under
        (.compress ks isScalar axis first origin Platform.room) := by
  obtain ⟨_, _, h⟩ := bind_eq_ok.mp h
  obtain ⟨ks, _, h⟩ := bind_eq_ok.mp h
  obtain ⟨n, _, h⟩ := bind_eq_ok.mp h
  obtain ⟨rank, _, h⟩ := bind_eq_ok.mp h
  cases h
  refine ⟨ks, n = 0, ?_⟩
  split
  · refine .inr ⟨_, ?_, rfl⟩
    simp [Shape.IsProper]
  · exact .inl rfl

theorem select_eq_ok {indices : List (Option Item)} {origin : Origin}
    (h : select (.view v) indices origin = .ok w) :
    w = v.under (.select (indices.map fun y => y.map fun y => y.asArgument "index") origin) := by
  obtain ⟨ys, hy, h⟩ := bind_eq_ok.mp h
  obtain ⟨rank, _, hy⟩ := bind_eq_ok.mp hy
  split at hy
  · cases hy
  · cases hy
    cases h
    rfl

theorem inRange_asArguments {o : Int} {t : Shape} {indices : List (Option Item)}
    (h : List.Forall₂ (fun n y => ∀ z ∈ y, Indexes o n z) t indices) :
    Selection.InRange o t (indices.map fun y => y.map fun y => y.asArgument "index") := by
  rw [Selection.InRange, List.forall₂_map_right_iff]
  refine h.imp fun n y hy z hz => ?_
  obtain ⟨x, hx, rfl⟩ := Option.map_eq_some_iff.mp hz
  obtain ⟨u, vs, hu, hv, hp, hr⟩ := hy x hx
  obtain ⟨u', hu', hl⟩ := length_asInts hu hv
  obtain rfl := Extents.ofShape_inj hu'
  exact ⟨u, vs, hu, hv, hp, hl, hr⟩

end Item

namespace View

/-- One index transform on top of an array. -/
inductive Raises (v : View Item) : View Item → Prop
  | reshape {shape : Item} {w : View Item} (h : Item.reshape (.view v) shape = .ok w) : Raises v w
  | ravel {w : View Item} (h : Item.ravel (.view v) = .ok w) : Raises v w
  | table {w : View Item} (h : Item.table (.view v) = .ok w) : Raises v w
  /-- A section of any kind: a take or a drop. -/
  | cut {style : Cut} {drop : Bool} {counts : Item} {axis : Option Item} {origin : Origin}
      {w : View Item} (ho : origin.IsWhole)
      (h : Item.cut style drop (.view v) counts axis origin = .ok w) : Raises v w
  | permute {axes : Option Item} {origin : Origin} {w : View Item}
      (h : Item.permute (.view v) axes origin = .ok w) : Raises v w
  | rotate {amount : Option Item} {axis : Option AxisArgument} {first : Bool} {origin : Origin}
      (ho : origin.IsWhole) : Raises v (Item.rotate (.view v) amount axis first origin)
  | replicate [Platform] {degrees : Item} {axis : Option AxisArgument} {first : Bool}
      {origin : Origin} {w : View Item}
      (h : Item.replicate (.view v) degrees axis first origin = .ok w) : Raises v w
  | select {indices : List (Option Item)} {origin : Origin} {o : Int} {t : Shape} {w : View Item}
      (ho : origin.number = .ok (.int o)) (hv : v.shape = .ok (.ofShape t))
      (hi : List.Forall₂ (fun n y => ∀ z ∈ y, Item.Indexes o n z) t indices)
      (h : Item.select (.view v) indices origin = .ok w) : Raises v w

/-- An array that has come about from a root by going on by a rule; each array on the way has a
shape. -/
inductive Grown (rule : View Item → View Item → Prop) (root : Root Item) (r : Shape) :
    View Item → Prop
  | root (h : root.facts.shape.get = .ok (.ofShape r)) (hr : r.IsProper) :
      Grown rule root r ⟨root, []⟩
  | next {v w : View Item} {e : Extents} (h : Grown rule root r v) (hw : rule v w)
      (hs : w.shape = .ok e) : Grown rule root r w

/-- The array is a tower that stands on a root of shape `r`. -/
structure StandsOn (root : Root Item) (r : Shape) (v : View Item) (s : Shape) : Prop where
  root_eq : v.root = root
  stands : Tower.Stands root.facts r v.steps s

variable {root : Root Item} {r t : Shape} {v w : View Item}

theorem StandsOn.shape_eq (h : StandsOn root r v t) : v.shape = .ok (.ofShape t) := by
  obtain ⟨_, steps⟩ := v
  obtain ⟨rfl, h⟩ := h
  cases h with
  | root h _ => exact h
  | above h hs hu => exact ((Tower.Stands.above h hs hu).keeps Item.fillOf).shape_eq

theorem StandsOn.exists_shapeOver (h : StandsOn root r v t) {s : Step} {e : Extents}
    (he : (v.under s).shape = .ok e) : ∃ x, s.shapeOver (.ofShape t) = .ok x := by
  obtain ⟨_, steps⟩ := v
  obtain ⟨rfl, h⟩ := h
  exact Level.shapeOver_of_above (s := s) (h.keeps Item.fillOf) he

theorem StandsOn.under (h : StandsOn root r v t) {s : Step} {e : Extents} (hs : s.IsSound t)
    (he : (v.under s).shape = .ok e) : ∃ u, StandsOn root r (v.under s) u := by
  obtain ⟨x, hx⟩ := h.exists_shapeOver he
  obtain ⟨rfl, h⟩ := h
  obtain ⟨u, rfl, _⟩ := hs.leads (h.keeps Item.fillOf).proper hx
  exact ⟨u, rfl, .above h hs hx⟩

theorem StandsOn.reshape (h : StandsOn root r v t) {style : Recast} {dims : Shape}
    (hd : dims.IsProper) : StandsOn root r (v.under (.reshape style dims)) dims := by
  obtain ⟨rfl, h⟩ := h
  exact ⟨rfl, .above h hd rfl⟩

/-- What a transform puts on top of an array: one sound step, below which there may be a reshape
that gives axes to a scalar. None of the steps is a window. -/
theorem Raises.under (h : Raises v w) (hv : v.shape = .ok (.ofShape t)) :
    (∃ s, w = v.under s ∧ s.IsSound t ∧ s.isWindow = false) ∨
      ∃ dims s, Shape.IsProper dims ∧ w = (v.under (.reshape .reshape dims)).under s ∧
        s.IsSound dims ∧ s.isWindow = false := by
  cases h with
  | reshape hw =>
      obtain ⟨_, _, hw⟩ := bind_eq_ok.mp hw
      obtain ⟨_, _, hw⟩ := bind_eq_ok.mp hw
      obtain ⟨dims, hd, hw⟩ := bind_eq_ok.mp hw
      cases hw
      exact .inl ⟨_, rfl, Item.newShape_isProper hd, rfl⟩
  | ravel hw =>
      obtain ⟨_, _, hw⟩ := bind_eq_ok.mp hw
      obtain ⟨dims, hd, hw⟩ := bind_eq_ok.mp hw
      cases hw
      exact .inl ⟨_, rfl, Item.newShape_isProper hd, rfl⟩
  | table hw =>
      obtain ⟨dims, hd, rfl⟩ := Item.table_eq_ok hw
      exact .inl ⟨_, rfl, hd, rfl⟩
  | cut ho hw =>
      rcases Item.cut_eq_ok ho hw with ⟨counts, axes, rfl, _⟩ | ⟨_, counts, rfl, _⟩
      · exact .inl ⟨_, rfl, trivial, rfl⟩
      · exact .inr ⟨_, _, Shape.isProper_ones counts, rfl, trivial, rfl⟩
  | permute hw =>
      obtain ⟨axes, rfl⟩ := Item.permute_eq_ok hw
      exact .inl ⟨_, rfl, trivial, rfl⟩
  | @rotate amount axis first origin ho =>
      refine .inl ⟨_, rfl, ⟨?_, ho⟩, rfl⟩
      rintro y hy
      obtain ⟨x, _, rfl⟩ := Option.map_eq_some_iff.mp hy
      exact Item.isCounted_asArgument x "rotation"
  | replicate hw =>
      obtain ⟨counts, isScalar, rfl | ⟨dims, hd, rfl⟩⟩ := Item.replicate_eq_ok hw
      · exact .inl ⟨_, rfl, trivial, rfl⟩
      · exact .inr ⟨dims, _, hd, rfl, trivial, rfl⟩
  | select ho hv' hi hw =>
      obtain rfl := Item.select_eq_ok hw
      rw [hv] at hv'
      obtain rfl := Extents.ofShape_inj (Except.ok.inj hv')
      exact .inl ⟨_, rfl, ⟨_, ho, Item.inRange_asArguments hi⟩, rfl⟩

theorem StandsOn.raised (h : StandsOn root r v t) (hw : Raises v w) {e : Extents}
    (he : w.shape = .ok e) : ∃ u, StandsOn root r w u := by
  rcases hw.under h.shape_eq with ⟨s, rfl, hs, _⟩ | ⟨dims, s, hd, rfl, hs, _⟩
  · exact h.under hs he
  · exact (h.reshape hd).under hs he

end View
end LazyApl
