import LazyApl.Proofs.Gathers
import Mathlib.Tactic.IntervalCases
/-!
# The encoding of a link is invisible

A link may take positions or coordinates, and a link on coordinates may give either. Whatever it
takes, it can be read on positions: coordinates are the digits of a position in the radix system of
the extents, and every list of digits has a position. A composed chain converts between the two
names only where neighbours differ, with the extents of one of the neighbours. It gives the same
cell as reading one link after the other on positions, and therefore two chains that read alike,
link by link, are the same function.
-/
namespace LazyApl

open Outcome

/-- Cells within one shape go to no cell or to cells within another, under the names of the map. -/
def LinkMap.StaysWithin (s t : Shape) : LinkMap → Prop
  | .linear f => ∀ i, s.Holds i →
      ∃ r : Option Int, f (.int i) = .ok (r.map .int) ∧ ∀ j ∈ r, t.Holds j
  | .decoded f => ∀ c, s.Within c →
      ∃ r : Option (List Int), f (c.map .int) = .ok (r.map (·.map .int)) ∧ ∀ d ∈ r, t.Within d
  | .flatten f => ∀ c, s.Within c →
      ∃ r : Option Int, f (c.map .int) = .ok (r.map .int) ∧ ∀ j ∈ r, t.Holds j

namespace Link

/-- The link indexes from an array of one shape into an array of another and stays within it. -/
structure Sends (l : Link) (s t : Shape) : Prop where
  proper : s.IsProper
  out_eq : l.outShape = .ofShape s
  in_eq : l.inShape = .ofShape t
  stays : l.map.StaysWithin s t

/-- Links of which each indexes into the shape that the next one is made for. -/
inductive Threads : List Link → Shape → Shape → Prop
  | nil (s : Shape) : Threads [] s s
  | cons {l : Link} {ls : List Link} {s t u : Shape} : Sends l s t → Threads ls t u →
      Threads (l :: ls) s u

/-- The map of a link read on positions: a position is taken apart by the extents of the result,
and coordinates in the source are put together by the extents of the source. -/
def onPositions (l : Link) (i : Number) : Except Fault (Option Number) :=
  match l.map with
  | .linear f => f i
  | .decoded f => do
    match ← f (← l.outShape.coordinates i) with
    | none => return none
    | some c => return some (← l.inShape.position c)
  | .flatten f => do f (← l.outShape.coordinates i)

/-- The maps of links read on positions, from left to right; none stays none. -/
def inTurn : List Link → Number → Except Fault (Option Number)
  | [], i => .ok (some i)
  | l :: ls, i => do
    match ← l.onPositions i with
    | none => return none
    | some j => inTurn ls j

/-- The links read alike on every position that both have. -/
def ReadsAs (l m : Link) : Prop :=
  ∀ (s t : Shape) (i : Int), l.outShape = .ofShape s → m.outShape = .ofShape t →
    s.Holds i → t.Holds i → l.onPositions (.int i) = m.onPositions (.int i)

theorem Sends.exists_maps {l : Link} {s t : Shape} (h : Sends l s t) :
    ∃ f, Maps l s t f ∧ ∀ i, s.Holds i → l.onPositions (.int i) = .ok ((f i).map .int) := by
  obtain ⟨map, _, _⟩ := l
  obtain ⟨hs, rfl, rfl, h⟩ := h
  cases map with
  | linear g =>
      choose! f hg hf using h
      exact ⟨f, maps_linear hs fun i hi => ⟨hg i hi, hf i hi⟩, hg⟩
  | decoded g =>
      choose! f hg hf using h
      refine ⟨_, maps_decoded hs fun c hc => ⟨hg c hc, hf c hc⟩, fun i hi => ?_⟩
      have hc := Shape.coordinates_within hs hi
      cases hd : f (s.coordinates i) with
      | none => simp [onPositions, hg _ hc, hd, bind, Except.bind, pure, Except.pure]
      | some d =>
          have hp := Shape.position_eq_dot (hf _ hc d hd).length_eq
          simp [onPositions, hg _ hc, hd, hp, bind, Except.bind, pure, Except.pure]
  | flatten g =>
      choose! f hg hf using h
      refine ⟨_, maps_flatten hs fun c hc => ⟨hg c hc, hf c hc⟩, fun i hi => ?_⟩
      simpa [onPositions, bind, Except.bind] using hg _ (Shape.coordinates_within hs hi)

theorem Answers.linear {t : Shape} {r : Option Number} {k : Option Int}
    (h : Answers t .linear (r.map .linear) k) : r = k.map .int ∧ ∀ j ∈ k, t.Holds j := by
  cases r with
  | none =>
      cases k with
      | none => simp
      | some j => exact h.elim
  | some x =>
      cases k with
      | none => exact h.elim
      | some j =>
          cases h.1 with
          | linear hj => simp [hj]

theorem Answers.decoded {t : Shape} {r : Option (List Number)} {k : Option Int}
    (h : Answers t .decoded (r.map .decoded) k) :
    ∃ d : Option (List Int), r = d.map (·.map .int) ∧ ∀ c ∈ d, t.Within c := by
  cases r with
  | none => exact ⟨none, rfl, by simp⟩
  | some x =>
      cases k with
      | none => exact h.elim
      | some j =>
          cases h.1 with
          | decoded hc => exact ⟨some _, rfl, by simpa using hc⟩

/-- Every link that is a map between the positions of its own shapes stays within them. -/
theorem Maps.sends {l : Link} {s t : Shape} {f : Int → Option Int} (h : Maps l s t f)
    (ht : l.inShape = .ofShape t) : Sends l s t := by
  refine ⟨h.proper, h.out_eq, ht, ?_⟩
  obtain ⟨map, _, _⟩ := l
  obtain ⟨_, rfl, _, h⟩ := h
  cases map with
  | linear g =>
      intro i hi
      obtain ⟨q, hq, ha⟩ := h (.linear hi)
      obtain ⟨_, hx, hq⟩ := bind_eq_ok.mp hq
      obtain rfl := Except.ok.inj hx
      obtain ⟨r, hr, hq⟩ := bind_eq_ok.mp hq
      obtain rfl := Except.ok.inj hq
      exact ⟨f i, ha.linear.1 ▸ hr, ha.linear.2⟩
  | decoded g =>
      intro c hc
      obtain ⟨q, hq, ha⟩ := h (.decoded hc)
      obtain ⟨_, hx, hq⟩ := bind_eq_ok.mp hq
      obtain rfl := Except.ok.inj hx
      obtain ⟨r, hr, hq⟩ := bind_eq_ok.mp hq
      obtain rfl := Except.ok.inj hq
      obtain ⟨d, rfl, hd⟩ := ha.decoded
      exact ⟨d, hr, hd⟩
  | flatten g =>
      intro c hc
      obtain ⟨q, hq, ha⟩ := h (.decoded hc)
      obtain ⟨_, hx, hq⟩ := bind_eq_ok.mp hq
      obtain rfl := Except.ok.inj hx
      obtain ⟨r, hr, hq⟩ := bind_eq_ok.mp hq
      obtain rfl := Except.ok.inj hq
      exact ⟨_, ha.linear.1 ▸ hr, ha.linear.2⟩

theorem Sends.carries {l : Link} {s t : Shape} (h : Sends l s t) : Carries l s t := by
  obtain ⟨f, hf, _⟩ := h.exists_maps
  exact hf.carries

theorem Sends.onPositions_eq {l : Link} {s t : Shape} (h : Sends l s t) {i : Int}
    (hi : s.Holds i) : l.onPositions (.int i) = .ok ((l.reach i).map .int) := by
  obtain ⟨f, hf, hp⟩ := h.exists_maps
  rw [hf.reach_eq hi]
  exact hp i hi

theorem Sends.reach_congr {l m : Link} {s t s' t' : Shape} (hl : Sends l s t)
    (hm : Sends m s' t') (h : ReadsAs l m) {i : Int} (hi : s.Holds i) (hi' : s'.Holds i) :
    l.reach i = m.reach i := by
  have hp := h s s' i hl.out_eq hm.out_eq hi hi'
  rw [hl.onPositions_eq hi, hm.onPositions_eq hi'] at hp
  exact Option.map_injective (fun _ _ => Number.int.inj) (Except.ok.inj hp)

theorem Threads.chained {ls : List Link} {s u : Shape} (h : Threads ls s u) : Chained ls s u := by
  induction h with
  | nil s => exact .nil s
  | cons hl _ ih => exact .cons hl.carries ih

theorem Threads.inTurn_eq {ls : List Link} {s u : Shape} (h : Threads ls s u) {i : Int}
    (hi : s.Holds i) : inTurn ls (.int i) = .ok ((reachAll ls i).map .int) := by
  induction h generalizing i with
  | nil s => rfl
  | @cons l _ _ _ _ hl _ ih =>
      have hp := hl.onPositions_eq hi
      cases hr : l.reach i with
      | none => simp [inTurn, reachAll, hp, hr, bind, Except.bind, pure, Except.pure]
      | some j =>
          have hj := ih (hl.carries.holds hi hr)
          simpa [inTurn, reachAll, hp, hr, bind, Except.bind] using hj

theorem Threads.reachAll_congr {ls ms : List Link} {s u s' u' : Shape} (hl : Threads ls s u)
    (hm : Threads ms s' u') (h : List.Forall₂ ReadsAs ls ms) {i : Int} (hi : s.Holds i)
    (hi' : s'.Holds i) : reachAll ls i = reachAll ms i := by
  induction h generalizing s u s' u' i with
  | nil => rfl
  | @cons l m ls ms ha _ ih =>
      cases hl with
      | cons hl hls =>
          cases hm with
          | cons hm hms =>
              have hr := hl.reach_congr hm ha hi hi'
              simp only [reachAll, ← hr]
              cases hj : l.reach i with
              | none => rfl
              | some j =>
                  have hk : m.reach i = some j := hr ▸ hj
                  exact ih hls hms (hl.carries.holds hi hj) (hm.carries.holds hi' hk)

/-- The choice of encodings is invisible. A composed chain gives, for every position of its result,
what its links give when they are read on positions in turn: a position of the innermost source, or
none. Another chain that reads alike, link by link, composes to the same function, whichever
encodings its links take and give. -/
theorem Threads.compose_eq_inTurn {ls : List Link} {s u : Shape} (h : Threads ls s u) :
    (∀ i, s.Holds i → compose ls (.int i) = inTurn ls (.int i) ∧
      ∃ r : Option Int, compose ls (.int i) = .ok (r.map .int) ∧ ∀ j ∈ r, u.Holds j) ∧
    ∀ (ms : List Link) (s' u' : Shape), Threads ms s' u' → List.Forall₂ ReadsAs ls ms →
      ∀ i, s.Holds i → s'.Holds i → compose ls (.int i) = compose ms (.int i) := by
  constructor
  · intro i hi
    have hc := h.chained.compose_eq hi
    refine ⟨by rw [hc, h.inTurn_eq hi], reachAll ls i, hc, fun j hj => ?_⟩
    exact h.chained.reachAll_holds hi hj
  · intro ms s' u' hm ha i hi hi'
    rw [h.chained.compose_eq hi, hm.chained.compose_eq hi', h.reachAll_congr hm ha hi hi']

theorem inShape_affine (offset : Scalar) (dims : List (Number × Number)) (source : Extents) :
    (affine offset dims source).inShape = source := by
  unfold affine
  split <;> rfl

/-- The cells of an array of six, backwards and with nothing in front. -/
def backwards (source : Shape) : Link :=
  ⟨.linear fun i => if i.isZero then .ok none else some <$> (Number.int 6).sub i, .ofShape [6],
    .ofShape source⟩

theorem sends_backwards {s : Shape} (h : s.size = 6) : Sends (backwards s) [6] s := by
  refine ⟨by simp [Shape.IsProper], rfl, rfl, fun i hi => ?_⟩
  have hb : 0 ≤ i ∧ i < 6 := by simpa [Shape.Holds] using hi
  by_cases hz : i = 0
  · exact ⟨none, by simp [hz, Number.isZero], by simp⟩
  · refine ⟨some (6 - i), by simp [hz, Number.isZero, Number.sub_int], ?_⟩
    simp only [Option.mem_some_iff, forall_eq', Shape.Holds, h]
    omega

/-- Every second cell of a vector of twelve as a matrix, its transpose, and the cells of that
backwards. The last link takes coordinates and gives a position, the one before it takes and gives
coordinates, and the first one takes and gives positions. -/
def mixedChain : List Link :=
  [backwards [2, 3], ⟨.decoded fun c => .ok (some c.reverse), .ofShape [2, 3], .ofShape [3, 2]⟩,
    affine (.int 0) (ofDims [(3, 4), (2, 2)]) (.ofShape [12])]

/-- The same cells by links on positions only. -/
def linearChain : List Link :=
  [backwards [6], ⟨.linear fun i => do some <$> (← (← i.mod 3).mul 2).add (← i.floorDiv 3),
      .ofShape [6], .ofShape [6]⟩,
    affine (.int 0) (ofDims [(6, 2)]) (.ofShape [12])]

theorem sends_transposed :
    Sends ⟨.decoded fun c => .ok (some c.reverse), .ofShape [2, 3], .ofShape [3, 2]⟩
      [2, 3] [3, 2] := by
  refine ⟨by simp [Shape.IsProper], rfl, rfl, fun c hc => ?_⟩
  refine ⟨some c.reverse, by simp, ?_⟩
  simpa [Shape.Within] using List.rel_reverse hc

theorem mixedChain_eq_linearChain :
    (∀ i, Shape.Holds [6] i → compose mixedChain (.int i) = inTurn mixedChain (.int i) ∧
      ∃ r : Option Int, compose mixedChain (.int i) = .ok (r.map .int) ∧
        ∀ j ∈ r, Shape.Holds [12] j) ∧
    ∀ i, Shape.Holds [6] i → compose mixedChain (.int i) = compose linearChain (.int i) := by
  have bounds {i : Int} (h : Shape.Holds [6] i) : 0 ≤ i ∧ i < 6 := by simpa [Shape.Holds] using h
  have strided {dims : List (Int × Int)} (h : Frames 0 dims [12]) :
      Sends (affine (.int 0) (ofDims dims) (.ofShape [12])) (dims.map Prod.fst) [12] :=
    (maps_affine rfl h).sends (inShape_affine _ _ _)
  have mixed : Threads mixedChain [6] [12] := by
    refine .cons (sends_backwards rfl) (.cons sends_transposed (.cons (strided ?_) (.nil _)))
    refine ⟨by simp [Shape.IsProper], fun c hc => ?_⟩
    obtain ⟨x, y, rfl⟩ := List.length_eq_two.mp hc.length_eq
    simp only [List.map_cons, List.map_nil, Shape.within_cons] at hc
    simp only [Shape.Holds, List.map_cons, Shape.dot, Shape.size_cons, Shape.size_nil]
    omega
  have linear : Threads linearChain [6] [12] := by
    refine .cons (sends_backwards rfl) (.cons (t := [6]) ?_ (.cons (strided ?_) (.nil _)))
    · refine ⟨by simp [Shape.IsProper], rfl, rfl, fun i hi => ?_⟩
      obtain ⟨h, h'⟩ := bounds hi
      interval_cases i <;> exact ⟨some _, rfl, by decide⟩
    · refine ⟨by simp [Shape.IsProper], fun c hc => ?_⟩
      obtain ⟨x, rfl⟩ := List.length_eq_one_iff.mp hc.length_eq
      simp only [List.map_cons, List.map_nil, Shape.within_cons] at hc
      simp only [Shape.Holds, List.map_cons, Shape.dot, Shape.size_cons, Shape.size_nil]
      omega
  obtain ⟨hread, hsame⟩ := mixed.compose_eq_inTurn
  refine ⟨hread, fun i hi => hsame _ [6] [12] linear ?_ i hi hi⟩
  -- Both read six positions; they are read one by one.
  have alike (l m : Link) (hm : m.outShape = .ofShape [6])
      (h : ∀ i, 0 ≤ i ∧ i < 6 → l.onPositions (.int i) = m.onPositions (.int i)) :
      ReadsAs l m := by
    intro s t i _ ht _ hi
    obtain rfl := Extents.ofShape_inj (hm.symm.trans ht)
    exact h i (bounds hi)
  refine .cons (alike _ _ rfl ?_) (.cons (alike _ _ rfl ?_) (.cons (alike _ _ rfl ?_) .nil)) <;>
    rintro i ⟨h, h'⟩ <;> interval_cases i <;> rfl

end Link
end LazyApl
