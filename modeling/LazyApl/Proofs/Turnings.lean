import LazyApl.Proofs.Outcome
import LazyApl.Proofs.Links
import LazyApl.Transform
import Mathlib.Data.List.InsertIdx
/-!
# Rotations lead cells to cells

A rotation turns the cells along one axis and leaves the other coordinates alone, so it has the
extents of its source and its link stays within them. Its amounts are as many as their shape says,
and they are read only where the source has axes.
-/
namespace LazyApl

open Outcome Link

namespace Turning

theorem getD_ofShape {s : Shape} {a : Nat} {n : Int} (ha : s[a]? = some n) :
    (Extents.ofShape s).getD a 0 = .int n := by
  simp [Extents.ofShape, List.getD_eq_getElem?_getD, ha]

theorem maps_reversal {s : Shape} {a : Nat} {n : Int} (hs : s.IsProper) (ha : s[a]? = some n) :
    (reversal.link (.ofShape s) a).Maps s s fun i =>
      (some ((s.coordinates i).set a (n - 1 - (s.coordinates i).getD a 0))).map
        fun d => Shape.dot d s.strides := by
  refine maps_decoded (f := fun c => some (c.set a (n - 1 - c.getD a 0))) hs fun c hc => ?_
  obtain ⟨x, hx, hp, h0, hn⟩ := pickAt_within hc ha
  have hd : c.getD a 0 = x := by simp [List.getD_eq_getElem?_getD, hx]
  have hturn : reversal.turn (.ofShape s) a (c.map .int) = .ok (.int (n - 1 - x)) := by
    simp only [turn, Int.toNat_natCast, getD_ofShape ha, hp, bind, Except.bind]
    rfl
  rw [hd]
  refine ⟨?_, ?_⟩
  · simp [hturn, replaced, List.map_set, bind, Except.bind, pure, Except.pure]
  · rintro d ⟨⟩
    exact hc.set_self ha (by omega)

theorem carries_reversal {s : Shape} {a : Nat} {n : Int} (hs : s.IsProper) (ha : s[a]? = some n) :
    (reversal.link (.ofShape s) a).Carries s s :=
  (maps_reversal hs ha).carries

theorem turn_cyclic {k x n : Int} (hn : 0 < n) :
    (do cyclic (← (Number.int x).add (.int k)) (.int n)) = .ok (.int ((x + k).fmod n)) := by
  have hz : n ≠ 0 := by omega
  simp [cyclic, Number.mod, Number.pair, hz, bind, Except.bind, pure, Except.pure]

theorem turn_uniform {s : Shape} {cs : List Int} (hc : s.Within cs) {a : Nat} {n : Int}
    (ha : s[a]? = some n) (k : Int) :
    ∃ x, cs[a]? = some x ∧ (0 ≤ x ∧ x < n) ∧
      (uniform k).turn (.ofShape s) a (cs.map .int) = .ok (.int ((x + k).fmod n)) := by
  obtain ⟨x, hx, hp, hb⟩ := pickAt_within hc ha
  refine ⟨x, hx, hb, ?_⟩
  have h := turn_cyclic (k := k) (x := x) (n := n) (by omega)
  simp only [turn, Int.toNat_natCast, getD_ofShape ha, hp]
  exact h

/-- The coordinates after a turn by one amount along an axis of `n` cells. -/
def turned (a : Nat) (n k : Int) (c : List Int) : List Int := c.set a ((c.getD a 0 + k).fmod n)

theorem turned_within {s : Shape} {c : List Int} (hc : s.Within c) {a : Nat} {n : Int}
    (ha : s[a]? = some n) (k : Int) : s.Within (turned a n k c) := by
  obtain ⟨x, hx, hb, _⟩ := turn_uniform hc ha k
  have hn : 0 < n := by omega
  exact hc.set_self ha ⟨Int.fmod_nonneg_of_pos _ hn, Int.fmod_lt_of_pos _ hn⟩

theorem turned_turned {s : Shape} {c : List Int} (hc : s.Within c) {a : Nat} {n : Int}
    (ha : s[a]? = some n) (k m : Int) : turned a n m (turned a n k c) = turned a n (m + k) c := by
  obtain ⟨x, hx, hb, _⟩ := turn_uniform hc ha k
  have hl := (List.getElem?_eq_some_iff.mp hx).1
  have hg : (c.set a ((x + k).fmod n)).getD a 0 = (x + k).fmod n := by
    simp [List.getD_eq_getElem?_getD, hl]
  have hm : ((x + k).fmod n + m).fmod n = (x + (m + k)).fmod n := by
    rw [Int.fmod_add_fmod, Int.add_assoc, Int.add_comm k m]
  simp only [turned, List.getD_eq_getElem?_getD, hx, Option.getD_some] at hg ⊢
  rw [hg, List.set_set, hm]

theorem maps_uniform {s : Shape} {a : Nat} {n : Int} (hs : s.IsProper) (ha : s[a]? = some n)
    (k : Int) : ((uniform k).link (.ofShape s) a).Maps s s fun i =>
      some (Shape.dot (turned a n k (s.coordinates i)) s.strides) := by
  refine maps_decoded (f := fun c => some (turned a n k c)) hs fun c hc => ⟨?_, ?_⟩
  · obtain ⟨x, hx, _, ht⟩ := turn_uniform hc ha k
    simp [ht, turned, replaced, List.getD_eq_getElem?_getD, hx, List.map_set, bind, Except.bind,
      pure, Except.pure]
  · rintro d ⟨⟩
    exact turned_within hc ha k

theorem reach_uniform_add {s : Shape} {a : Nat} {n : Int} (hs : s.IsProper) (ha : s[a]? = some n)
    (k m : Int) {i : Int} (hi : s.Holds i) :
    ((uniform (m + k)).link (.ofShape s) a).reach i =
      (((uniform k).link (.ofShape s) a).reach i).bind ((uniform m).link (.ofShape s) a).reach := by
  have hc := Shape.coordinates_within hs hi
  have hw := turned_within hc ha k
  rw [(maps_uniform hs ha (m + k)).reach_eq hi, (maps_uniform hs ha k).reach_eq hi,
    Option.bind_some, (maps_uniform hs ha m).reach_eq hw.holds, Shape.coordinates_dot hw,
    turned_turned hc ha]

theorem carries_uniform {s : Shape} {a : Nat} {n : Int} (hs : s.IsProper) (ha : s[a]? = some n)
    (k : Int) : ((uniform k).link (.ofShape s) a).Carries s s :=
  (maps_uniform hs ha k).carries

/-- The place of the line through some coordinates among the lines along an axis. -/
def line (s : Shape) (a : Nat) (c : List Int) : Int :=
  Shape.dot (c.eraseIdx a) (Shape.strides (s.eraseIdx a))

theorem holds_line {s : Shape} {c : List Int} (hc : s.Within c) (a : Nat) :
    Shape.Holds (s.eraseIdx a) (line s a c) :=
  (hc.eraseIdx a).holds

theorem line_turned (s : Shape) (a : Nat) (n k : Int) (c : List Int) :
    line s a (turned a n k c) = line s a c := by
  rw [line, turned, List.eraseIdx_set_eq, line]

/-- With one amount for each line, the amount of a line is found at the position of the line. -/
theorem maps_perLine {s : Shape} {a : Nat} {n : Int} (hs : s.IsProper) (ha : s[a]? = some n)
    {ks : List Int} (hk : (ks.length : Int) = Shape.size (s.eraseIdx a)) :
    ((perLine ks).link (.ofShape s) a).Maps s s fun i =>
      some (Shape.dot (turned a n (ks.getD (line s a (s.coordinates i)).toNat 0)
        (s.coordinates i)) s.strides) := by
  refine maps_decoded (f := fun c => some (turned a n (ks.getD (line s a c).toNat 0) c)) hs
    fun c hc => ⟨?_, ?_⟩
  · obtain ⟨x, hx, hp, hb⟩ := pickAt_within hc ha
    have hq : without (Extents.ofShape s) a = Extents.ofShape (s.eraseIdx a) := by
      simp [without, Extents.ofShape, List.eraseIdx_map]
    have hr : without (c.map Number.int) a = (c.eraseIdx a).map .int := by
      simp [without, List.eraseIdx_map]
    obtain ⟨h0, h1⟩ := holds_line hc a
    have hlt : (line s a c).toNat < ks.length := by omega
    have hpick : pickAt ks (line s a c) = .ok (ks.getD (line s a c).toNat 0) := by
      refine (pickAt_ok h0).mpr ?_
      simp [List.getD_eq_getElem?_getD, hlt]
    have hpos : Shape.position (s.eraseIdx a) (c.eraseIdx a) = line s a c :=
      Shape.position_eq_dot (hc.eraseIdx a).length_eq
    have hturn : (perLine ks).turn (.ofShape s) a (c.map .int) =
        .ok (.int ((x + ks.getD (line s a c).toNat 0).fmod n)) := by
      simp only [turn, Int.toNat_natCast, getD_ofShape ha, hp, hq, hr, Extents.position_ofShape,
        pickBy_int, hpos, hpick, bind, Except.bind]
      exact turn_cyclic (by omega)
    simp [hturn, turned, replaced, List.getD_eq_getElem?_getD, hx, List.map_set, bind, Except.bind,
      pure, Except.pure]
  · rintro d ⟨⟩
    exact turned_within hc ha _

theorem carries_perLine {s : Shape} {a : Nat} {n : Int} (hs : s.IsProper) (ha : s[a]? = some n)
    {ks : List Int} (hk : (ks.length : Int) = Shape.size (s.eraseIdx a)) :
    ((perLine ks).link (.ofShape s) a).Carries s s :=
  (maps_perLine hs ha hk).carries

end Turning

/-- The argument lists one whole number for each of its cells, if it can be read at all. -/
def IntArgument.IsCounted (y : IntArgument) : Prop :=
  ∀ e vs, y.shape.get = .ok e → y.ints.get = .ok vs →
    ∃ u : Shape, e = .ofShape u ∧ vs.length = u.size.toNat

namespace Rotation

variable {amount : Option IntArgument} {given : Option AxisArgument} {first : Bool}
  {origin : Origin} {s : Shape}

theorem located_int (hs : s ≠ []) {k : Int}
    (h : located given first origin (.ofShape s) = .ok (.int k)) : 0 ≤ k ∧ k < s.length := by
  cases given with
  | some a => simpa using AxisArgument.located_int h
  | none =>
      have hl := List.length_pos_iff.mpr hs
      simp only [located, Except.ok.injEq, Number.int.injEq] at h
      subst h
      split
      · omega
      · simp only [Extents.length_ofShape]
        omega

theorem axis_bounds (hs : s ≠ []) {k : Int}
    (h : axis given first origin (.ofShape s) = .ok k) :
    ∃ (a : Nat) (n : Int), k = a ∧ s[a]? = some n := by
  obtain ⟨x, hx, h⟩ := bind_eq_ok.mp h
  obtain rfl := Number.index_eq_ok.mp h
  have hb := located_int hs hx
  have hk : k.toNat < s.length := by omega
  exact ⟨k.toNat, s[k.toNat], by omega, List.getElem?_eq_getElem hk⟩

theorem shape_eq {e : Extents} (h : shape amount given first origin (.ofShape s) = .ok e) :
    e = .ofShape s := by
  cases amount with
  | none => exact (Except.ok.inj h).symm
  | some y =>
      obtain ⟨u, _, h⟩ := bind_eq_ok.mp h
      obtain ⟨n, _, h⟩ := bind_eq_ok.mp h
      split at h
      · obtain ⟨a, _, h⟩ := bind_eq_ok.mp h
        split at h
        · exact (Except.ok.inj h).symm
        · cases h
      · exact (Except.ok.inj h).symm

/-- The link of a rotation of an array without axes: its only cell stays. -/
def still : Link := ⟨.decoded fun c => .ok (some c), [], []⟩

theorem carries_still : still.Carries [] [] := by
  refine carries_decoded (s := []) (t := []) Shape.isProper_nil fun c hc => ?_
  cases hc
  exact ⟨some [], rfl, by simp⟩

theorem linkWith_nil {total : Option Int} {e : Extents}
    (hs : shape amount given first origin [] = .ok e) :
    linkWith amount given first origin [] total = .ok still := by
  obtain rfl := shape_eq (s := []) hs
  rw [linkWith, hs]
  rfl

theorem linkWith_of_ne_nil {total : Option Int} {e : Extents} (hne : s ≠ [])
    (hs : shape amount given first origin (.ofShape s) = .ok e) :
    linkWith amount given first origin (.ofShape s) total = (do
      let a ← axis given first origin (.ofShape s)
      match amount, total with
      | none, _ => return Turning.reversal.link (.ofShape s) a
      | some _, some k => return (Turning.uniform k).link (.ofShape s) a
      | some y, none => return (Turning.perLine (← y.ints.get)).link (.ofShape s) a) := by
  obtain rfl := shape_eq hs
  have hemp : ¬ (Extents.ofShape s).isEmpty = true := by simpa [Extents.ofShape] using hne
  rw [linkWith, hs]
  refine (if_neg hemp).trans ?_
  rfl

/-- Where there is no single amount there is one for each line along the axis. -/
theorem length_of_single_none {y : IntArgument} (hy : y.IsCounted) (hs : s.IsProper) {e : Extents}
    {a : Nat} {ks : List Int} (hne : s ≠ []) (hk : y.ints.get = .ok ks)
    (ha : axis given first origin (.ofShape s) = .ok a)
    (he : shape (some y) given first origin (.ofShape s) = .ok e)
    (h1 : single (some y) = .ok none) : (ks.length : Int) = Shape.size (s.eraseIdx a) := by
  have hp : Shape.IsProper (s.eraseIdx a) := fun n hn => hs n (List.mem_of_mem_eraseIdx hn)
  have h0 := Shape.size_nonneg hp
  obtain ⟨u, hu, he⟩ := bind_eq_ok.mp he
  obtain ⟨v, rfl, hl⟩ := hy u ks hu hk
  have hemp : (Extents.ofShape s).isEmpty = false := by simpa [Extents.ofShape] using hne
  have hq : without (Extents.ofShape s) a = Extents.ofShape (s.eraseIdx a) := by
    simp [without, Extents.ofShape, List.eraseIdx_map]
  simp only [single, hu, hk, Extents.size_ofShape, Number.isOne_int, beq_iff_eq, bind,
    Except.bind, pure, Except.pure] at h1
  split at h1
  · -- a single cell holds a single amount
    rename_i hone
    rw [hone] at hl
    obtain ⟨k, rfl⟩ := List.length_eq_one_iff.mp (by simpa using hl)
    simp at h1
  · rename_i hone
    simp only [Extents.size_ofShape, Number.isOne_int, hemp, ha, hq, Extents.eq_ofShape, bind,
      Except.bind, Bool.not_false, Bool.and_true, Bool.not_eq_true', beq_eq_false_iff_ne, hone,
      ne_eq, not_false_eq_true, ite_true, beq_iff_eq] at he
    split at he
    · rename_i hv
      rw [hl, hv]
      omega
    · cases he

/-- The link of a rotation leads to its source, whether its single amount is its own or has been
added up. -/
theorem carries_linkWith {total : Option Int} {l : Link} {e : Extents}
    (hy : ∀ y ∈ amount, y.IsCounted) (hs : s.IsProper)
    (he : shape amount given first origin (.ofShape s) = .ok e)
    (ht : total = none → single amount = .ok none)
    (hl : linkWith amount given first origin (.ofShape s) total = .ok l) : l.Carries s s := by
  rcases eq_or_ne s [] with rfl | hne
  · rw [show Extents.ofShape [] = [] from rfl, linkWith_nil he] at hl
    cases hl
    exact carries_still
  · rw [linkWith_of_ne_nil hne he] at hl
    obtain ⟨k, hk, hl⟩ := bind_eq_ok.mp hl
    obtain ⟨a, n, rfl, ha⟩ := axis_bounds hne hk
    cases amount with
    | none =>
        cases hl
        exact Turning.carries_reversal hs ha
    | some y =>
        cases total with
        | some k =>
            cases hl
            exact Turning.carries_uniform hs ha k
        | none =>
            obtain ⟨ks, hks, hl⟩ := bind_eq_ok.mp hl
            cases hl
            exact Turning.carries_perLine hs ha
              (length_of_single_none (hy y rfl) hs hne hks hk he (ht rfl))

end Rotation
end LazyApl
