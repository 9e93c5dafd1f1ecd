import LazyApl.Index.Link
import LazyApl.Proofs.Positions
/-!
# What a chain of links does to positions

A link takes a place in the form that suits it, so the same cell may come to it as a position or as
coordinates. A link that maps a shape into another gives the same answer for both names of a cell,
and its answer names a cell of the other shape. A chain of such links is then the composition of
its maps on positions, whichever forms the places take on the way.
-/
namespace LazyApl

/-- The place is one of the two names of the cell at a position. -/
inductive Place.Names (s : Shape) : Place → Int → Prop
  | linear {i : Int} : s.Holds i → Names s (.linear (.int i)) i
  | decoded {c : List Int} : s.Within c →
      Names s (.decoded (c.map .int)) (Shape.dot c s.strides)

namespace Place

def encoding : Place → Encoding
  | linear _ => .linear
  | decoded _ => .decoded

theorem Names.holds {s : Shape} {p : Place} {i : Int} (h : p.Names s i) : s.Holds i := by
  cases h with
  | linear h => exact h
  | decoded h => exact h.holds

theorem Names.toLinear {s : Shape} {p : Place} {i : Int} (h : p.Names s i) :
    p.toLinear (.ofShape s) = .ok (.int i) := by
  cases h with
  | linear h => rfl
  | decoded h => simp [Place.toLinear, bind, Except.bind]

theorem Names.toCoordinates {s : Shape} {p : Place} {i : Int} (h : p.Names s i) :
    p.toCoordinates (.ofShape s) = .ok ((s.coordinates i).map .int) := by
  cases h with
  | linear h => simp [Place.toCoordinates]
  | decoded h => simp [Place.toCoordinates, Shape.coordinates_dot h]

end Place

namespace Link

/-- The answer of a link names the cell at a position, in the given form; none stands for none. -/
def Answers (t : Shape) (e : Encoding) : Option Place → Option Int → Prop
  | some q, some j => q.Names t j ∧ q.encoding = e
  | none, none => True
  | _, _ => False

/-- On the cells of a shape the link is the given map into the positions of another shape. -/
structure Maps (l : Link) (s t : Shape) (f : Int → Option Int) : Prop where
  proper : s.IsProper
  out_eq : l.outShape = .ofShape s
  in_eq : l.output = .decoded → l.inShape = .ofShape t
  apply_names : ∀ {p : Place} {i : Int}, p.Names s i →
    ∃ r, l.apply p = .ok r ∧ Answers t l.output r (f i)

theorem maps_linear {g : Number → Except Fault (Option Number)} {f : Int → Option Int}
    {s t : Shape} {source : Extents} (hs : s.IsProper)
    (h : ∀ i, s.Holds i → g (.int i) = .ok ((f i).map .int) ∧ ∀ j ∈ f i, t.Holds j) :
    Maps ⟨.linear g, .ofShape s, source⟩ s t f := by
  refine ⟨hs, rfl, by simp [output], fun {p i} hp => ?_⟩
  obtain ⟨hg, hf⟩ := h i hp.holds
  refine ⟨((f i).map .int).map .linear, ?_, ?_⟩
  · simp [apply, hp.toLinear, hg, bind, Except.bind, pure, Except.pure]
  · cases hj : f i with
    | none => trivial
    | some j => exact ⟨.linear (hf j hj), rfl⟩

theorem maps_decoded {g : List Number → Except Fault (Option (List Number))}
    {f : List Int → Option (List Int)} {s t : Shape} (hs : s.IsProper)
    (h : ∀ c, s.Within c →
      g (c.map .int) = .ok ((f c).map (·.map .int)) ∧ ∀ d ∈ f c, t.Within d) :
    Maps ⟨.decoded g, .ofShape s, .ofShape t⟩ s t
      fun i => (f (s.coordinates i)).map fun d => Shape.dot d t.strides := by
  refine ⟨hs, rfl, fun _ => rfl, fun {p i} hp => ?_⟩
  obtain ⟨hg, hf⟩ := h _ (Shape.coordinates_within hs hp.holds)
  refine ⟨((f (s.coordinates i)).map (·.map .int)).map .decoded, ?_, ?_⟩
  · simp [apply, hp.toCoordinates, hg, bind, Except.bind, pure, Except.pure]
  · cases hd : f (s.coordinates i) with
    | none => trivial
    | some d => exact ⟨.decoded (hf d hd), rfl⟩

theorem maps_flatten {g : List Number → Except Fault (Option Number)}
    {f : List Int → Option Int} {s t : Shape} {source : Extents} (hs : s.IsProper)
    (h : ∀ c, s.Within c → g (c.map .int) = .ok ((f c).map .int) ∧ ∀ j ∈ f c, t.Holds j) :
    Maps ⟨.flatten g, .ofShape s, source⟩ s t fun i => f (s.coordinates i) := by
  refine ⟨hs, rfl, by simp [output], fun {p i} hp => ?_⟩
  obtain ⟨hg, hf⟩ := h _ (Shape.coordinates_within hs hp.holds)
  refine ⟨((f (s.coordinates i)).map .int).map .linear, ?_, ?_⟩
  · simp [apply, hp.toCoordinates, hg, bind, Except.bind, pure, Except.pure]
  · cases hj : f (s.coordinates i) with
    | none => trivial
    | some j => exact ⟨.linear (hf j hj), rfl⟩

/-- The position that the link on its own sends a position to. -/
def reach (l : Link) (i : Int) : Option Int :=
  match compose [l] (.int i) with
  | .ok (some (.int j)) => some j
  | _ => none

theorem Answers.toLinear {t : Shape} {e : Encoding} {q : Place} {k : Option Int}
    (h : Answers t e (some q) k) (source : Extents) (hs : e = .decoded → source = .ofShape t) :
    ∃ j, k = some j ∧ q.toLinear source = .ok (.int j) := by
  cases k with
  | none => exact h.elim
  | some j =>
      refine ⟨j, rfl, ?_⟩
      obtain ⟨hq, he⟩ := h
      cases hq with
      | linear _ => rfl
      | decoded hd =>
          rw [hs he.symm]
          exact (Place.Names.decoded hd).toLinear

theorem Maps.compose_singleton {l : Link} {s t : Shape} {f : Int → Option Int}
    (h : Maps l s t f) {i : Int} (hi : s.Holds i) :
    compose [l] (.int i) = .ok ((f i).map .int) := by
  obtain ⟨r, hr, ha⟩ := h.apply_names (.linear hi)
  simp only [compose, follow_singleton, hr, bind, Except.bind]
  cases r with
  | none =>
      cases hf : f i with
      | none => rfl
      | some j => simp [hf, Answers] at ha
  | some q =>
      obtain ⟨j, hj, hq⟩ := ha.toLinear (innerShape [l]) h.in_eq
      simp [hj, hq, pure, Except.pure]

theorem Maps.reach_eq {l : Link} {s t : Shape} {f : Int → Option Int} (h : Maps l s t f)
    {i : Int} (hi : s.Holds i) : l.reach i = f i := by
  rw [reach, h.compose_singleton hi]
  cases f i <;> rfl

/-- On the cells of a shape the link sends every cell to a cell of another shape, or to none. -/
def Carries (l : Link) (s t : Shape) : Prop := Maps l s t l.reach

theorem Maps.carries {l : Link} {s t : Shape} {f : Int → Option Int} (h : Maps l s t f) :
    Carries l s t := by
  refine ⟨h.proper, h.out_eq, h.in_eq, fun {p i} hp => ?_⟩
  rw [h.reach_eq hp.holds]
  exact h.apply_names hp

theorem carries_decoded {g : List Number → Except Fault (Option (List Number))} {s t : Shape}
    (hs : s.IsProper)
    (h : ∀ c, s.Within c →
      ∃ r : Option (List Int), g (c.map .int) = .ok (r.map (·.map .int)) ∧ ∀ d ∈ r, t.Within d) :
    Carries ⟨.decoded g, .ofShape s, .ofShape t⟩ s t := by
  choose! f hf hd using h
  exact (maps_decoded hs fun c hc => ⟨hf c hc, hd c hc⟩).carries

theorem Answers.holds {t : Shape} {e : Encoding} {r : Option Place} {j : Int}
    (h : Answers t e r (some j)) : t.Holds j := by
  cases r with
  | none => exact h.elim
  | some q => exact h.1.holds

theorem Carries.holds {l : Link} {s t : Shape} (h : Carries l s t) {i j : Int} (hi : s.Holds i)
    (hj : l.reach i = some j) : t.Holds j := by
  obtain ⟨r, _, ha⟩ := h.apply_names (.linear hi)
  rw [hj] at ha
  exact ha.holds

/-- Links of which each takes the cells that the one before it gives. -/
inductive Chained : List Link → Shape → Shape → Prop
  | nil (s : Shape) : Chained [] s s
  | cons {l : Link} {ls : List Link} {s t u : Shape} : Carries l s t → Chained ls t u →
      Chained (l :: ls) s u

/-- The maps of some links on positions, one after the other; none stays none. -/
def reachAll : List Link → Int → Option Int
  | [], i => some i
  | l :: ls, i => (l.reach i).bind (reachAll ls)

theorem Chained.reachAll_holds {ls : List Link} {s u : Shape} (h : Chained ls s u) {i j : Int}
    (hi : s.Holds i) (hj : reachAll ls i = some j) : u.Holds j := by
  induction h generalizing i with
  | nil s =>
      obtain rfl := Option.some.inj hj
      exact hi
  | cons hl _ ih =>
      obtain ⟨k, hk, hj⟩ := Option.bind_eq_some_iff.mp hj
      exact ih (hl.holds hi hk) hj

/-- The encoding in which places leave a chain that they enter in the given one. -/
def outputAll : Encoding → List Link → Encoding
  | e, [] => e
  | _, l :: ls => outputAll l.output ls

theorem Chained.innerShape_eq {ls : List Link} {s u : Shape} (h : Chained ls s u) {e : Encoding}
    (hn : ls ≠ []) (hd : outputAll e ls = .decoded) : innerShape ls = .ofShape u := by
  induction h generalizing e with
  | nil s => exact absurd rfl hn
  | @cons l ls s t u hl ht ih =>
      cases ht with
      | nil _ => exact hl.in_eq hd
      | @cons m ms _ _ _ hm ht =>
          simpa only [innerShape, List.getLast?_cons_cons] using
            ih (e := l.output) (List.cons_ne_nil m ms) hd

theorem Chained.follow_names {ls : List Link} {s u : Shape} (h : Chained ls s u) {p : Place}
    {i : Int} (hp : p.Names s i) :
    ∃ r, follow ls p = .ok r ∧ Answers u (outputAll p.encoding ls) r (reachAll ls i) := by
  induction h generalizing p i with
  | nil s => exact ⟨some p, rfl, hp, rfl⟩
  | @cons l ls s t u hl _ ih =>
      obtain ⟨r, hr, ha⟩ := hl.apply_names hp
      simp only [follow, hr, bind, Except.bind, reachAll]
      cases r with
      | none =>
          cases hf : l.reach i with
          | none => exact ⟨none, rfl, trivial⟩
          | some j => simp [hf, Answers] at ha
      | some q =>
          cases hf : l.reach i with
          | none => simp [hf, Answers] at ha
          | some j =>
              rw [hf] at ha
              obtain ⟨r, hr, hu⟩ := ih ha.1
              rw [ha.2] at hu
              exact ⟨r, hr, hu⟩

/-- A composed chain is the composition of the maps of its links on positions. -/
theorem Chained.compose_eq {ls : List Link} {s u : Shape} (h : Chained ls s u) {i : Int}
    (hi : s.Holds i) : compose ls (.int i) = .ok ((reachAll ls i).map .int) := by
  obtain ⟨r, hr, ha⟩ := h.follow_names (.linear hi)
  simp only [compose, hr, bind, Except.bind]
  cases r with
  | none =>
      cases hf : reachAll ls i with
      | none => rfl
      | some j => simp [hf, Answers] at ha
  | some q =>
      have hs : outputAll .linear ls = .decoded → innerShape ls = .ofShape u := by
        intro he
        cases ls with
        | nil => simp [outputAll] at he
        | cons l ls => exact h.innerShape_eq (List.cons_ne_nil l ls) he
      obtain ⟨j, hj, hq⟩ := ha.toLinear _ hs
      simp [hj, hq, pure, Except.pure]

end Link
end LazyApl
