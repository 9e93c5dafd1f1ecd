import LazyApl.Proofs.Raising
/-!
# Where links answer

A selection checks its indices when a cell is located, so a tower may hold a selection whose link
answers nowhere, and still show cells that have nothing to do with it. What is said of links here
is therefore about their answers only: a link lands in a shape if every answer that it gives names
a cell of that shape or is none. The links of all transforms land in the shape of their source, and
so does a chain of them.
-/
namespace LazyApl

open Outcome

namespace Link

/-- What the link answers for a cell of the one shape is a cell of the other one, or none. -/
structure Lands (l : Link) (s t : Shape) : Prop where
  in_eq : l.output = .decoded → l.inShape = .ofShape t
  answers : ∀ {p : Place} {i : Int} {r : Option Place}, p.Names s i → l.apply p = .ok r →
    ∃ k, Answers t l.output r k

theorem Carries.lands {l : Link} {s t : Shape} (h : Carries l s t) : Lands l s t := by
  refine ⟨h.in_eq, fun {p i r} hp hr => ?_⟩
  obtain ⟨r', hr', ha⟩ := h.apply_names hp
  rw [hr] at hr'
  cases hr'
  exact ⟨_, ha⟩

/-- Links of which each lands in the shape that the next one starts from. -/
inductive Landing : List Link → Shape → Shape → Prop
  | nil (s : Shape) : Landing [] s s
  | cons {l : Link} {ls : List Link} {s t u : Shape} : Lands l s t → Landing ls t u →
      Landing (l :: ls) s u

/-- A chain leads from a cell of an array of the shape to a place, or to none. -/
def Meets (ls : List Link) (s : Shape) (r : Option Place) : Prop :=
  ∃ p i, p.Names s i ∧ follow ls p = .ok r

theorem Meets.cons {l : Link} {ls : List Link} {s t : Shape} {q : Place} (hl : Lands l s t)
    (h : Meets (l :: ls) s (some q)) : Meets ls t (some q) := by
  obtain ⟨p, i, hp, h⟩ := h
  obtain ⟨r, hr, h⟩ := bind_eq_ok.mp h
  obtain ⟨k, ha⟩ := hl.answers hp hr
  cases r with
  | none => cases h
  | some p' =>
      cases k with
      | none => exact ha.elim
      | some j => exact ⟨p', j, ha.1, h⟩

theorem Meets.cons_none {l : Link} {ls : List Link} {s t : Shape} (hl : Lands l s t)
    (h : Meets (l :: ls) s none) :
    (∃ p i, p.Names s i ∧ l.apply p = .ok none) ∨ Meets ls t none := by
  obtain ⟨p, i, hp, h⟩ := h
  obtain ⟨r, hr, h⟩ := bind_eq_ok.mp h
  obtain ⟨k, ha⟩ := hl.answers hp hr
  cases r with
  | none => exact .inl ⟨p, i, hp, hr⟩
  | some p' =>
      cases k with
      | none => exact ha.elim
      | some j => exact .inr ⟨p', j, ha.1, h⟩

theorem Landing.follow_answers {ls : List Link} {s u : Shape} (h : Landing ls s u) {p : Place}
    {i : Int} {r : Option Place} (hp : p.Names s i) (hr : follow ls p = .ok r) :
    ∃ k, Answers u (outputAll p.encoding ls) r k := by
  induction h generalizing p i with
  | nil s =>
      cases hr
      exact ⟨some i, hp, rfl⟩
  | cons hl _ ih =>
      obtain ⟨q, hq, hr⟩ := bind_eq_ok.mp hr
      obtain ⟨k, ha⟩ := hl.answers hp hq
      cases q with
      | none =>
          cases hr
          exact ⟨none, trivial⟩
      | some p' =>
          cases k with
          | none => exact ha.elim
          | some j =>
              have hr := ih ha.1 hr
              rw [ha.2] at hr
              exact hr

theorem Landing.innerShape_eq {ls : List Link} {s u : Shape} (h : Landing ls s u) {e : Encoding}
    (hn : ls ≠ []) (hd : outputAll e ls = .decoded) : innerShape ls = .ofShape u := by
  induction h generalizing e with
  | nil s => exact absurd rfl hn
  | @cons l ls s t u hl ht ih =>
      cases ht with
      | nil _ => exact hl.in_eq hd
      | @cons m ms _ _ _ hm ht =>
          have h := ih (e := l.output) (List.cons_ne_nil m ms) hd
          simpa only [innerShape, List.getLast?_cons_cons] using h

/-- A composed chain that answers gives a position of the innermost source, whose place the chain
meets, or none, which it meets then. -/
theorem Landing.compose_answers {ls : List Link} {s u : Shape} (h : Landing ls s u) {i : Int}
    (hi : s.Holds i) {r : Option Number} (hr : compose ls (.int i) = .ok r) :
    (r = none ∧ Meets ls s none) ∨
      ∃ q k, r = some (.int k) ∧ Meets ls s (some q) ∧ q.Names u k := by
  have hp : (Place.linear (.int i)).Names s i := .linear hi
  obtain ⟨q, hq, hr⟩ := bind_eq_ok.mp hr
  obtain ⟨k, ha⟩ := h.follow_answers hp hq
  cases q with
  | none =>
      cases hr
      exact .inl ⟨rfl, _, _, hp, hq⟩
  | some q =>
      have hs : outputAll .linear ls = .decoded → innerShape ls = .ofShape u := by
        intro he
        cases ls with
        | nil => simp [outputAll] at he
        | cons l ls => exact h.innerShape_eq (List.cons_ne_nil l ls) he
      obtain ⟨j, rfl, hj⟩ := ha.toLinear _ hs
      obtain ⟨j', hj', hr⟩ := bind_eq_ok.mp hr
      rw [hj] at hj'
      cases hj'
      cases hr
      exact .inr ⟨q, j, rfl, ⟨_, _, hp, hq⟩, ha.1⟩

end Link

namespace Selection

variable {origin : Origin} {o n axis : Int} {s : Shape} {indices : List (Option IntArgument)}

theorem isWithin_int (n v : Int) : isWithin (.int n) (.int v) = .ok (decide (0 ≤ v ∧ v < n)) := by
  by_cases h : 0 ≤ v <;> simp [isWithin, h, bind, Except.bind, pure, Except.pure]

theorem checkAll_eq_ok {vs : List Int} (h : checkAll (.int n) axis origin (vs.map .int) = .ok ()) :
    ∀ v ∈ vs, 0 ≤ v ∧ v < n := by
  induction vs with
  | nil => simp
  | cons v vs ih =>
      obtain ⟨b, hb, h⟩ := bind_eq_ok.mp h
      rw [isWithin_int] at hb
      obtain rfl := Except.ok.inj hb
      split at h
      · rename_i hd
        exact List.forall_mem_cons.mpr ⟨of_decide_eq_true hd, ih h⟩
      · obtain ⟨_, _, h⟩ := bind_eq_ok.mp h
        obtain ⟨_, _, h⟩ := bind_eq_ok.mp h
        obtain ⟨_, _, h⟩ := bind_eq_ok.mp h
        cases h

theorem checked_eq_ok (ho : origin.number = .ok (.int o)) {vs : List Int} {xs : List Number}
    (h : checked (.int n) axis origin vs = .ok xs) : ∀ v ∈ vs, o ≤ v ∧ v < o + n := by
  obtain ⟨ys, hy, h⟩ := bind_eq_ok.mp h
  have hv : vs.mapM origin.strip = .ok ((vs.map (· - o)).map .int) := by
    rw [List.map_map]
    exact mapM_ok fun v _ => by simp [Scalar.strip, ho, bind, Except.bind]
  rw [hv] at hy
  obtain rfl := Except.ok.inj hy
  obtain ⟨_, hc, _⟩ := bind_eq_ok.mp h
  intro v hm
  have hb := checkAll_eq_ok hc (v - o) (List.mem_map_of_mem hm)
  omega

/-- An index argument that is an array: its extents are whole and its values are as many. -/
def IsArrayArgument (z : IntArgument) : Prop :=
  z.IsCounted ∧ ∃ u : Shape, z.shape.get = .ok (.ofShape u) ∧ u.IsProper

/-- Index arguments that have a plan are in range. -/
theorem inRange_of_plan (ho : origin.number = .ok (.int o)) (hl : indices.length = s.length)
    (hy : ∀ y ∈ indices, ∀ z ∈ y, IsArrayArgument z) {plans : List AxisPlan}
    (h : plan origin axis (.ofShape s) indices = .ok plans) : InRange o s indices := by
  induction indices generalizing s axis plans with
  | nil =>
      obtain rfl := List.length_eq_zero_iff.mp hl.symm
      exact .nil
  | cons y ys ih =>
      cases s with
      | nil => cases hl
      | cons n s =>
          obtain ⟨hy, hys⟩ := List.forall_mem_cons.mp hy
          obtain ⟨p, hp, h⟩ := bind_eq_ok.mp h
          obtain ⟨ps, hps, _⟩ := bind_eq_ok.mp h
          refine .cons (fun z hz => ?_) (ih (by simpa using hl) hys hps)
          obtain rfl := Option.mem_def.mp hz
          obtain ⟨hcount, u, hu, hproper⟩ := hy z rfl
          obtain ⟨vs, hv, hp⟩ := bind_eq_ok.mp hp
          obtain ⟨xs, hx, _⟩ := bind_eq_ok.mp hp
          obtain ⟨u', hu', hlen⟩ := hcount _ _ hu hv
          obtain rfl := Extents.ofShape_inj hu'
          exact ⟨u, vs, hu, hv, hproper, hlen, checked_eq_ok ho hx⟩

theorem exists_shape (hs : s.IsProper) (hy : ∀ y ∈ indices, ∀ z ∈ y, IsArrayArgument z) :
    ∃ u : Shape, shape (.ofShape s) indices = .ok (.ofShape u) ∧ u.IsProper := by
  induction indices generalizing s with
  | nil => exact ⟨[], by cases s <;> rfl, Shape.isProper_nil⟩
  | cons y ys ih =>
      cases s with
      | nil => exact ⟨[], rfl, Shape.isProper_nil⟩
      | cons n s =>
          rw [Shape.isProper_cons] at hs
          obtain ⟨hy, hys⟩ := List.forall_mem_cons.mp hy
          obtain ⟨u, hu, hup⟩ := ih hs.2 hys
          have hown : ∃ v : Shape, ownExtents (.int n) y = .ok (.ofShape v) ∧ v.IsProper := by
            cases y with
            | none => exact ⟨[n], rfl, by simpa [Shape.IsProper] using hs.1⟩
            | some z => exact (hy z rfl).2
          obtain ⟨v, hv, hvp⟩ := hown
          refine ⟨v ++ u, ?_, hvp.append hup⟩
          rw [show Extents.ofShape (n :: s) = .int n :: Extents.ofShape s from rfl, shape_cons, hv,
            hu]
          simp [bind, Except.bind, Extents.ofShape]

theorem lands_link (hs : s.IsProper) (ho : origin.number = .ok (.int o))
    (hl : indices.length = s.length) (hy : ∀ y ∈ indices, ∀ z ∈ y, IsArrayArgument z) {u : Shape}
    (hu : shape (.ofShape s) indices = .ok (.ofShape u)) {l : Link}
    (h : link indices origin (.ofShape s) = .ok l) : l.Lands u s := by
  simp only [link, hu, bind, Except.bind] at h
  cases h
  refine ⟨fun _ => rfl, fun {p i r} hp hr => ?_⟩
  have hplan : ∃ plans, plan origin 0 (.ofShape s) indices = .ok plans := by
    obtain ⟨c, _, hr⟩ := bind_eq_ok.mp hr
    obtain ⟨d, hd, _⟩ := bind_eq_ok.mp hr
    obtain ⟨plans, hplans, _⟩ := bind_eq_ok.mp hd
    exact ⟨plans, hplans⟩
  obtain ⟨plans, hplans⟩ := hplan
  obtain ⟨u', l', hu', _, hl', hc⟩ := carries_link hs ho (inRange_of_plan ho hl hy hplans)
  rw [hu] at hu'
  obtain rfl := Extents.ofShape_inj (Except.ok.inj hu')
  simp only [link, hu, bind, Except.bind] at hl'
  cases hl'
  exact hc.lands.answers hp hr

end Selection

namespace Step

/-- What the constructor of a transform makes sure of, over an array of which the extents may be
known. A window lies within its source; the indices of a selection are not looked at. -/
def IsLegal (source : Except Fault Extents) : Step → Prop
  | reshape _ dims => Shape.IsProper dims
  | rotate amount _ _ origin =>
    (∀ y ∈ amount, y.IsCounted) ∧ ∃ o, origin.number = .ok (.int o)
  | select indices origin => (∃ o, origin.number = .ok (.int o)) ∧
    (∀ t : Shape, source = .ok (.ofShape t) → indices.length = t.length) ∧
      ∀ y ∈ indices, ∀ z ∈ y, Selection.IsArrayArgument z
  | window offset dims => ∃ (t : Shape) (o : Int) (ds : List (Int × Int)),
    source = .ok (.ofShape t) ∧ offset.number = .ok (.int o) ∧ dims = Link.ofDims ds ∧
      Link.Frames o ds t
  | _ => True

variable {s : Step} {t : Shape} {e : Extents}

theorem IsLegal.isSound (h : s.IsLegal (.ok (.ofShape t)))
    (hs : ∀ indices origin, s ≠ select indices origin) : s.IsSound t := by
  cases s with
  | select indices origin => exact absurd rfl (hs indices origin)
  | window offset dims =>
      obtain ⟨t', o, ds, ht, ho, hd, hf⟩ := h
      obtain rfl := Extents.ofShape_inj (Except.ok.inj ht)
      exact ⟨o, ds, ho, hd, hf⟩
  | _ => exact h

theorem IsLegal.lands (h : s.IsLegal (.ok (.ofShape t))) (ht : t.IsProper)
    (he : s.shapeOver (.ofShape t) = .ok e) :
    ∃ u : Shape, e = .ofShape u ∧ u.IsProper ∧
      ∀ l, s.linkOver (.ofShape t) = .ok l → l.Lands u t := by
  by_cases hs : ∃ indices origin, s = select indices origin
  · obtain ⟨indices, origin, rfl⟩ := hs
    obtain ⟨⟨o, ho⟩, hl, hy⟩ := h
    obtain ⟨u, hu, hup⟩ := Selection.exists_shape ht hy
    rw [shapeOver, hu] at he
    obtain rfl := Except.ok.inj he
    exact ⟨u, rfl, hup, fun l h => Selection.lands_link ht ho (hl t rfl) hy hu h⟩
  · have hsound := h.isSound fun indices origin heq => hs ⟨indices, origin, heq⟩
    obtain ⟨u, hu, hp, hc⟩ := hsound.leads ht he
    exact ⟨u, hu, hp, fun l h => (hc l h).lands⟩

end Step

namespace Link

/-- The link never answers with none: it shows cells only. -/
def IsFull (l : Link) : Prop := ∀ p, l.apply p ≠ .ok none

variable {s t : Extents}

theorem isFull_linear {f : Number → Except Fault (Option Number)} (h : ∀ i, f i ≠ .ok none) :
    IsFull ⟨.linear f, s, t⟩ := by
  intro p hp
  obtain ⟨i, _, hp⟩ := bind_eq_ok.mp hp
  obtain ⟨r, hr, hp⟩ := bind_eq_ok.mp hp
  obtain rfl := Option.map_eq_none_iff.mp (Except.ok.inj hp)
  exact h i hr

theorem isFull_decoded {f : List Number → Except Fault (Option (List Number))}
    (h : ∀ c, f c ≠ .ok none) : IsFull ⟨.decoded f, s, t⟩ := by
  intro p hp
  obtain ⟨c, _, hp⟩ := bind_eq_ok.mp hp
  obtain ⟨r, hr, hp⟩ := bind_eq_ok.mp hp
  obtain rfl := Option.map_eq_none_iff.mp (Except.ok.inj hp)
  exact h c hr

theorem isFull_flatten {f : List Number → Except Fault (Option Number)} (h : ∀ c, f c ≠ .ok none) :
    IsFull ⟨.flatten f, s, t⟩ := by
  intro p hp
  obtain ⟨c, _, hp⟩ := bind_eq_ok.mp hp
  obtain ⟨r, hr, hp⟩ := bind_eq_ok.mp hp
  obtain rfl := Option.map_eq_none_iff.mp (Except.ok.inj hp)
  exact h c hr

theorem some_ne_none {α : Type} {x : Except Fault α} :
    (do return some (← x) : Except Fault (Option α)) ≠ .ok none := by
  intro h
  obtain ⟨_, _, h⟩ := bind_eq_ok.mp h
  cases h

theorem isFull_affine {offset : Scalar} {dims : List (Number × Number)} {source : Extents} :
    IsFull (affine offset dims source) := by
  unfold affine
  split
  · refine isFull_linear fun i h => ?_
    obtain ⟨_, _, h⟩ := bind_eq_ok.mp h
    obtain ⟨_, _, h⟩ := bind_eq_ok.mp h
    exact some_ne_none h
  · refine isFull_flatten fun c h => ?_
    obtain ⟨_, _, h⟩ := bind_eq_ok.mp h
    obtain ⟨_, _, h⟩ := bind_eq_ok.mp h
    exact some_ne_none h

end Link

theorem Transpose.isFull_link {targets : List Int} {source : Extents} {l : Link}
    (h : Transpose.link targets source = .ok l) : l.IsFull := by
  obtain ⟨_, _, h⟩ := bind_eq_ok.mp h
  obtain rfl := Except.ok.inj h
  exact Link.isFull_decoded fun c => Link.some_ne_none

theorem Selection.isFull_link {indices : List (Option IntArgument)} {origin : Origin}
    {source : Extents} {l : Link} (h : Selection.link indices origin source = .ok l) :
    l.IsFull := by
  obtain ⟨_, _, h⟩ := bind_eq_ok.mp h
  obtain rfl := Except.ok.inj h
  refine Link.isFull_decoded fun c h => ?_
  obtain ⟨_, _, h⟩ := bind_eq_ok.mp h
  exact Link.some_ne_none h

theorem Turning.isFull_link (t : Turning) (s : Extents) (a : Int) : (t.link s a).IsFull := by
  refine Link.isFull_decoded fun c h => ?_
  obtain ⟨_, _, h⟩ := bind_eq_ok.mp h
  cases h

theorem Rotation.isFull_linkWith {amount : Option IntArgument} {given : Option AxisArgument}
    {first : Bool} {origin : Origin} {source : Extents} {total : Option Int} {l : Link}
    (h : Rotation.linkWith amount given first origin source total = .ok l) : l.IsFull := by
  obtain ⟨s, _, h⟩ := bind_eq_ok.mp h
  split at h
  · obtain rfl := Except.ok.inj h
    exact Link.isFull_decoded fun c h => by cases h
  · obtain ⟨a, _, h⟩ := bind_eq_ok.mp h
    split at h
    · obtain rfl := Except.ok.inj h
      exact Turning.isFull_link _ _ _
    · obtain rfl := Except.ok.inj h
      exact Turning.isFull_link _ _ _
    · obtain ⟨ks, _, h⟩ := bind_eq_ok.mp h
      obtain rfl := Except.ok.inj h
      exact Turning.isFull_link _ _ _

/-- A replication shows fills only where it counts them. -/
theorem Replicate.isFull_link {positions : List (Option Int)} (h : positions.contains none = false)
    (axis : Int) (source : Extents) : (Replicate.link positions axis source).IsFull := by
  refine Link.isFull_decoded fun c hc => ?_
  obtain ⟨i, _, hc⟩ := bind_eq_ok.mp hc
  obtain ⟨p, hp, hc⟩ := bind_eq_ok.mp hc
  cases p with
  | some p => cases hc
  | none =>
      obtain ⟨k, _, hp⟩ := bind_eq_ok.mp hp
      split at hp
      · cases hp
      · split at hp
        · rename_i hx
          obtain rfl := Except.ok.inj hp
          have hmem := Array.mem_of_getElem? hx
          simp_all
        · cases hp

theorem Reshape.isFull_link {dims s : Shape} (h : s.size ≠ 0) {l : Link}
    (hl : Reshape.link dims (.ofShape s) = .ok l) : l.IsFull := by
  simp only [Reshape.link, Extents.size_ofShape, bind, Except.bind, Number.isZero_int,
    beq_iff_eq, h, if_false, Number.le_int] at hl
  split at hl
  · obtain rfl := Except.ok.inj hl
    exact Link.isFull_linear fun i hi => by cases hi
  · obtain rfl := Except.ok.inj hl
    exact Link.isFull_linear fun i => Link.some_ne_none

theorem Section.isPadded_of_apply {l : List Span} {s : Shape} (h : Span.FitAll l s) {p : Place}
    {i : Int} (hp : p.Names (Span.shape l) i) (hn : (Section.linkOf l s).apply p = .ok none) :
    (Layout.ofSpans l).isPadded = true := by
  have hm := Section.maps_linkOf h
  obtain ⟨r, hr, ha⟩ := hm.apply_names hp
  rw [hn] at hr
  obtain rfl := Except.ok.inj hr
  refine ((Section.exists_reach_none h).mp ⟨i, hp.holds, ?_⟩).1
  rw [hm.reach_eq hp.holds]
  cases hk : (Span.locateAll l ((Span.shape l).coordinates i)).map
      fun d => Shape.dot d s.strides with
  | none => rfl
  | some j =>
      rw [hk] at ha
      exact ha.elim

end LazyApl
