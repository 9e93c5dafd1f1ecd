import LazyApl.Primitive.Join
import LazyApl.Proofs.Outcome
import Mathlib.Data.List.InsertIdx
import Mathlib.Algebra.Order.BigOperators.Group.List
/-!
# Every position of a join is one of an operand

The layout of a join of arrays of whole extents has whole extents itself, and each position in it is
found in one of the operands, within its shape. For arrays joined along an axis the places where the
operands start are running totals, which the bisection finds its way in because no extent is
negative. For arrays stacked along a new axis the coordinate along that axis counts the operands.
-/
namespace LazyApl

open Outcome Shape

theorem eq_set_of_eraseIdx {α : Type} {xs ys : List α} {k : Nat} {x : α}
    (hl : xs.length = ys.length) (h : xs.eraseIdx k = ys.eraseIdx k) (hx : xs[k]? = some x) :
    xs = ys.set k x := by
  induction xs generalizing ys k with
  | nil => simp at hx
  | cons a xs ih =>
      cases ys with
      | nil => simp at hl
      | cons b ys =>
          cases k with
          | zero =>
              simp only [List.eraseIdx_cons_zero] at h
              simp only [List.getElem?_cons_zero, Option.some.injEq] at hx
              rw [h, hx, List.set_cons_zero]
          | succ k =>
              simp only [List.eraseIdx_cons_succ, List.cons.injEq] at h
              rw [h.1, List.set_cons_succ, ih (by simpa using hl) h.2 (by simpa using hx)]

theorem length_inserted {α : Type} {xs : List α} {k : Nat} (hk : k ≤ xs.length) (x : α) :
    (inserted xs k x).length = xs.length + 1 := by
  simp only [inserted, Int.toNat_natCast, List.length_append, List.length_take, List.length_cons,
    List.length_drop]
  omega

theorem eraseIdx_inserted {α : Type} {xs : List α} {k : Nat} (hk : k ≤ xs.length) (x : α) :
    (inserted xs k x).eraseIdx k = xs := by
  have hlen : (xs.take k).length = k := by simpa using hk
  rw [inserted, Int.toNat_natCast, List.eraseIdx_append_of_length_le hlen.le, hlen, Nat.sub_self,
    List.eraseIdx_cons_zero, List.take_append_drop]

theorem getElem?_inserted {α : Type} {xs : List α} {k : Nat} (hk : k ≤ xs.length) (x : α) :
    (inserted xs k x)[k]? = some x := by
  have hlen : (xs.take k).length = k := by simpa using hk
  rw [inserted, Int.toNat_natCast, List.getElem?_append_right hlen.le, hlen, Nat.sub_self,
    List.getElem?_cons_zero]

theorem inserted_eraseIdx {α : Type} {xs : List α} {k : Nat} (hk : k < xs.length) (x : α) :
    inserted (xs.eraseIdx k) k x = xs.set k x := by
  have hle : k ≤ (xs.eraseIdx k).length := by
    rw [List.length_eraseIdx_of_lt hk]
    omega
  refine eq_set_of_eraseIdx ?_ (eraseIdx_inserted hle x) (getElem?_inserted hle x)
  rw [length_inserted hle, List.length_eraseIdx_of_lt hk]
  omega

theorem inserted_set {α : Type} {xs : List α} {k : Nat} (hk : k ≤ xs.length) (x y : α) :
    (inserted xs k x).set k y = inserted xs k y := by
  have hlt : k < (inserted xs k x).length := by
    rw [length_inserted hk]
    omega
  rw [← inserted_eraseIdx hlt, eraseIdx_inserted hk]

theorem Shape.IsProper.inserted {s : Shape} (hs : s.IsProper) (k : Int) {n : Int} (hn : 0 ≤ n) :
    IsProper (inserted s k n) := by
  have htake : IsProper (s.take k.toNat) := fun m hm => hs m (List.mem_of_mem_take hm)
  have hdrop : IsProper (s.drop k.toNat) := fun m hm => hs m (List.mem_of_mem_drop hm)
  exact htake.append (isProper_cons.mpr ⟨hn, hdrop⟩)

theorem Extents.inserted_ofShape (s : Shape) (k n : Int) :
    inserted (ofShape s) k (.int n) = ofShape (inserted s k n) := by
  simp [inserted, ofShape, List.map_take, List.map_drop]

theorem Extents.replaced_ofShape (s : Shape) (k n : Int) :
    replaced (ofShape s) k (.int n) = ofShape (s.set k.toNat n) := by
  simp [replaced, ofShape, List.map_set]

theorem Extents.without_ofShape (s : Shape) (k : Int) :
    without (ofShape s) k = ofShape (s.eraseIdx k.toNat) := by
  rw [without, ofShape, List.eraseIdx_map, ofShape]

namespace Join

/-- The bisection finds where the offsets pass a place: those before it start at or before the
place, the others after it. -/
theorem placesBefore_spec {os : List Int} {x : Int}
    (hs : ∀ k l (h : l < os.length), (hkl : k ≤ l) → os[k] ≤ os[l]) {low high : Nat}
    (hlh : low ≤ high) (hh : high ≤ os.length) (hlow : ∀ k (h : k < os.length), k < low → os[k] ≤ x)
    (hhigh : ∀ k (h : k < os.length), high ≤ k → x < os[k]) :
    ∃ m ≤ os.length, placesBefore (os.map Number.int).toArray (.int x) low high = .ok m ∧
      (∀ k (h : k < os.length), k < m → os[k] ≤ x) ∧
      ∀ k (h : k < os.length), m ≤ k → x < os[k] := by
  induction hn : high - low using Nat.strong_induction_on generalizing low high with
  | _ n ih =>
      rw [placesBefore]
      by_cases hlt : low < high
      · have hmid : (low + high) / 2 < os.length := by omega
        have hget : (os.map Number.int).toArray.getD ((low + high) / 2) 0 =
            .int os[(low + high) / 2] := by simp [Array.getD, hmid]
        simp only [if_pos hlt, hget, Number.lt_int, bind, Except.bind]
        by_cases hx : x < os[(low + high) / 2]
        · rw [if_pos (decide_eq_true hx)]
          refine ih _ (by omega) (by omega) (by omega) hlow (fun k h hk => ?_) rfl
          exact lt_of_lt_of_le hx (hs _ k h hk)
        · rw [if_neg (by simpa using hx)]
          refine ih _ (by omega) (by omega) hh (fun k h hk => ?_) hhigh rfl
          exact le_trans (hs k _ hmid (by omega)) (not_lt.mp hx)
      · rw [if_neg hlt]
        obtain rfl : low = high := by omega
        exact ⟨low, hh, rfl, hlow, hhigh⟩

/-- Where arrays of the given extents start when they lie one after another. -/
def starts (ns : List Int) : List Int := (List.range ns.length).map fun k => (ns.take k).sum

@[simp] theorem length_starts (ns : List Int) : (starts ns).length = ns.length := by simp [starts]

@[simp] theorem getElem_starts (ns : List Int) (k : Nat) (h : k < (starts ns).length) :
    (starts ns)[k] = (ns.take k).sum := by simp [starts]

theorem totals_int (a : Int) (ns : List Int) : totals (.int a) (ns.map .int) =
    .ok ((List.range (ns.length + 1)).map fun k => .int (a + (ns.take k).sum)) := by
  induction ns generalizing a with
  | nil => simp [totals]
  | cons n ns ih =>
      rw [List.length_cons, List.range_succ_eq_map]
      simp [totals, ih, bind, Except.bind, pure, Except.pure, Int.add_assoc, Function.comp_def]

theorem totals_zero (ns : List Int) :
    totals 0 (ns.map .int) = .ok ((starts ns).map .int ++ [.int ns.sum]) := by
  have h := totals_int 0 ns
  rw [List.range_succ, List.map_append] at h
  rw [starts, List.map_map]
  simpa [Function.comp_def] using h

theorem sum_take_mono {ns : List Int} (hns : ∀ n ∈ ns, 0 ≤ n) {k l : Nat} (h : k ≤ l) :
    (ns.take k).sum ≤ (ns.take l).sum := by
  induction l, h using Nat.le_induction with
  | base => exact le_refl _
  | succ l _ ih =>
      refine le_trans ih ?_
      by_cases hl : l < ns.length
      · have hn := hns _ (List.getElem_mem hl)
        rw [List.sum_take_succ _ _ hl]
        omega
      · rw [List.take_of_length_le (by omega), List.take_of_length_le (by omega)]

/-- A place along the join axis falls into one of the operands, at a place within its extent. -/
theorem operandAt_spec {ns : List Int} (hns : ∀ n ∈ ns, 0 ≤ n) {x : Int} (h0 : 0 ≤ x)
    (hx : x < ns.sum) :
    ∃ (k : Nat) (n o : Int), ns[k]? = some n ∧ (starts ns)[k]? = some o ∧ 0 ≤ x - o ∧ x - o < n ∧
      operandAt ((starts ns).map .int) (.int x) = .ok k := by
  have hlen := length_starts ns
  have hsorted : ∀ k l (h : l < (starts ns).length), (hkl : k ≤ l) →
      (starts ns)[k] ≤ (starts ns)[l] := by
    intro k l h hkl
    rw [getElem_starts, getElem_starts]
    exact sum_take_mono hns hkl
  obtain ⟨m, hm, hplace, hbefore, hafter⟩ := placesBefore_spec (x := x) hsorted
    (Nat.zero_le (starts ns).length) le_rfl (by omega) (by omega)
  rw [hlen] at hm
  -- the first operand starts at zero, so at least one starts at or before the place
  have hpos : 0 < m := by
    rcases Nat.eq_zero_or_pos m with rfl | hpos
    · rcases Nat.eq_zero_or_pos ns.length with hnil | hnil
      · rw [List.length_eq_zero_iff.mp hnil, List.sum_nil] at hx
        omega
      · have h := hafter 0 (by omega) le_rfl
        rw [getElem_starts, List.take_zero, List.sum_nil] at h
        omega
    · exact hpos
  have hlt : m - 1 < ns.length := by omega
  have hle := hbefore (m - 1) (by omega) (by omega)
  rw [getElem_starts] at hle
  have hnext : x < (ns.take (m - 1)).sum + ns[m - 1] := by
    rw [← List.sum_take_succ _ _ hlt, Nat.sub_add_cancel hpos]
    by_cases hlast : m < ns.length
    · have h := hafter m (by omega) le_rfl
      rwa [getElem_starts] at h
    · rwa [List.take_of_length_le (by omega)]
  refine ⟨m - 1, ns[m - 1], (ns.take (m - 1)).sum, List.getElem?_eq_getElem hlt, ?_, by omega,
    by omega, ?_⟩
  · rw [List.getElem?_eq_getElem (by omega), getElem_starts]
  · rw [operandAt, List.length_map, hplace]
    simp only [bind, Except.bind, pure, Except.pure, Except.ok.injEq]
    omega

theorem foldl_max_cases (ns : List Nat) (a : Nat) :
    ns.foldl max a = a ∨ ns.foldl max a ∈ ns := by
  induction ns generalizing a with
  | nil => exact .inl rfl
  | cons n ns ih =>
      rw [List.foldl_cons]
      rcases ih (max a n) with h | h
      · rcases Nat.le_total a n with hle | hle
        · exact .inr (by rw [h, Nat.max_eq_right hle]; exact List.mem_cons_self)
        · exact .inl (by rw [h, Nat.max_eq_left hle])
      · exact .inr (List.mem_cons_of_mem _ h)

theorem find?_ofShape {shapes : List Shape} {p : Nat → Bool} {e : Extents}
    (h : (shapes.map Extents.ofShape).find? (fun s => p s.length) = some e) :
    ∃ s ∈ shapes, e = .ofShape s ∧ p s.length = true := by
  obtain ⟨s, hs, rfl⟩ := List.mem_map.mp (List.mem_of_find?_eq_some h)
  have hp := List.find?_some h
  rw [Extents.length_ofShape] at hp
  exact ⟨s, hs, rfl, hp⟩

/-- The reference has the rank of the join. -/
theorem reference_ofShape {shapes : List Shape} (hp : ∀ s ∈ shapes, s.IsProper) (axis : Int) :
    ∃ w : Shape, w.IsProper ∧ w.length = max ((shapes.map List.length).foldl max 0) 1 ∧
      reference (shapes.map .ofShape) (max ((shapes.map List.length).foldl max 0) 1) axis =
        .ofShape w := by
  generalize hr : max ((shapes.map List.length).foldl max 0) 1 = rank
  unfold reference
  cases hfull : (shapes.map Extents.ofShape).find? (·.length = rank) with
  | some e =>
      obtain ⟨s, hs, rfl, hl⟩ := find?_ofShape (p := fun n => decide (n = rank)) hfull
      exact ⟨s, hp s hs, of_decide_eq_true hl, rfl⟩
  | none =>
      -- no array has the rank, so all are scalars and the rank is that of a single item
      have hone : rank = 1 := by
        rcases foldl_max_cases (shapes.map List.length) 0 with h | h
        · omega
        · obtain ⟨s, hs, hl⟩ := List.mem_map.mp h
          have hne := List.find?_eq_none.mp hfull _ (List.mem_map_of_mem hs)
          simp only [Extents.length_ofShape, decide_eq_true_eq] at hne
          omega
      subst hone
      have hnil : ((shapes.map Extents.ofShape).find? (·.length + 1 = 1)).getD [] = [] := by
        cases hs : (shapes.map Extents.ofShape).find? (·.length + 1 = 1) with
        | none => rfl
        | some e => simpa using List.find?_some hs
      rw [hnil]
      exact ⟨[1], by simp [IsProper], rfl, by simp [inserted, Extents.ofShape]⟩

/-- What makes an operand fit into a join of a shape: it has all axes of the join and agrees with
them except for the join axis, or it lacks that axis, or it lacks all of them. -/
inductive FitsIn (w : Shape) (a : Nat) (n : Int) : Shape → Prop
  | scalar : FitsIn w a n []
  | full : FitsIn w a n (w.set a n)
  | slice : FitsIn w a n (w.eraseIdx a)

/-- How an operand of shape `s` takes part in a join along the axis `a` of a reference: with an
extent of its own there it has all axes of the reference, or is extended to them. -/
structure TakesPart (w : Shape) (a : Nat) (n : Int) (s : Shape) : Prop where
  fits : FitsIn w a n s
  extended_eq : extended (Extents.ofShape w) a (Extents.ofShape s) = .ok (.ofShape (w.set a n))

/-- An operand that agrees with the reference off the join axis takes part, by its extent there. -/
theorem extended_spec {w s : Shape} {a : Nat} (ha : a < w.length) (hs : s.IsProper) {e : Extents}
    (h : extended (Extents.ofShape w) a (Extents.ofShape s) = .ok e)
    (hw : Extents.eq (without e a) (without (Extents.ofShape w) a) = true) :
    ∃ n, 0 ≤ n ∧ e.getD a 0 = .int n ∧ TakesPart w a n s := by
  have hpart {n : Int} (hn : 0 ≤ n) (he : e = Extents.ofShape (w.set a n)) (hf : FitsIn w a n s) :
      ∃ n, 0 ≤ n ∧ e.getD a 0 = .int n ∧ TakesPart w a n s := by
    refine ⟨n, hn, ?_, hf, he ▸ h⟩
    rw [he]
    simp [Extents.ofShape, ha]
  have hcases := h
  unfold extended at hcases
  simp only [Extents.length_ofShape] at hcases
  split at hcases
  · rename_i hlen
    obtain rfl := Except.ok.inj hcases
    rw [Extents.without_ofShape, Extents.without_ofShape, Extents.eq_ofShape, beq_iff_eq,
      Int.toNat_natCast] at hw
    have hget : s[a]? = some s[a] := List.getElem?_eq_getElem (by omega)
    have hset := eq_set_of_eraseIdx hlen hw hget
    have hfull : FitsIn w a s[a] (w.set a s[a]) := .full
    rw [← hset] at hfull
    exact hpart (hs _ (List.getElem_mem _)) (congrArg Extents.ofShape hset) hfull
  · split at hcases
    · rename_i hnil
      obtain rfl := Except.ok.inj hcases
      obtain rfl : s = [] := by simpa [Extents.ofShape] using hnil
      exact hpart Int.one_nonneg (Extents.replaced_ofShape w a 1) .scalar
    · split at hcases
      · rename_i hlen
        obtain rfl := Except.ok.inj hcases
        have hle : a ≤ s.length := by omega
        have hone : inserted (Extents.ofShape s) a 1 = Extents.ofShape (inserted s a 1) :=
          Extents.inserted_ofShape s a 1
        rw [hone, Extents.without_ofShape, Extents.without_ofShape, Extents.eq_ofShape, beq_iff_eq,
          Int.toNat_natCast, eraseIdx_inserted hle] at hw
        subst hw
        exact hpart Int.one_nonneg (hone.trans (congrArg _ (inserted_eraseIdx ha 1))) .slice
      · cases hcases

theorem extents_spec {all : List Extents} {w : Shape} {a : Nat} (ha : a < w.length)
    {shapes : List Shape} (hp : ∀ s ∈ shapes, s.IsProper) {es : List Number}
    (h : extents all (Extents.ofShape w) a (shapes.map Extents.ofShape) = .ok es) :
    ∃ ns : List Int, es = ns.map .int ∧ (∀ n ∈ ns, 0 ≤ n) ∧
      List.Forall₂ (TakesPart w a) ns shapes := by
  induction shapes generalizing es with
  | nil =>
      obtain rfl := Except.ok.inj h
      exact ⟨[], rfl, by simp, .nil⟩
  | cons s shapes ih =>
      obtain ⟨e, he, h⟩ := bind_eq_ok.mp h
      split at h
      · rename_i hw
        obtain ⟨others, ho, h⟩ := bind_eq_ok.mp h
        obtain rfl := Except.ok.inj h
        obtain ⟨ns, rfl, hns, hf⟩ := ih (fun t ht => hp t (List.mem_cons_of_mem _ ht)) ho
        obtain ⟨n, hn, hown, hpart⟩ := extended_spec ha (hp s List.mem_cons_self) he hw
        rw [Int.toNat_natCast, hown]
        exact ⟨n :: ns, rfl, List.forall_mem_cons.mpr ⟨hn, hns⟩, .cons hpart hf⟩
      · cases h

/-- Every position of the join is found in one of the operands, within its shape. A scalar is asked
for its only cell. -/
def FindsAll (j : Joint) (between : Bool) (shapes : List Shape) : Prop :=
  ∃ u : Shape, u.IsProper ∧ j.shape = .ofShape u ∧ ∀ i, u.Holds i →
    ∃ (k : Nat) (s : Shape) (c : List Int), shapes[k]? = some s ∧ (s = [] ∨ s.Within c) ∧
      locate j between (shapes.map Extents.ofShape) (.int i) = .ok (.int k, c.map .int)

theorem start_bounds {ns : List Int} (hns : ∀ n ∈ ns, 0 ≤ n) {k : Nat} {n : Int}
    (hn : ns[k]? = some n) : 0 ≤ (ns.take k).sum ∧ (ns.take k).sum + n ≤ ns.sum := by
  obtain ⟨hk, rfl⟩ := List.getElem?_eq_some_iff.mp hn
  refine ⟨sum_take_mono hns (Nat.zero_le k), ?_⟩
  rw [← List.sum_take_succ _ _ hk]
  simpa using sum_take_mono hns (Nat.succ_le_of_lt hk)

theorem operandAt_eq {ns : List Int} (hns : ∀ n ∈ ns, 0 ≤ n) {k : Nat} {n x : Int}
    (hn : ns[k]? = some n) (h0 : 0 ≤ x) (hx : x < n) :
    operandAt ((starts ns).map .int) (.int (x + (ns.take k).sum)) = .ok k := by
  obtain ⟨hstart, hend⟩ := start_bounds hns hn
  obtain ⟨hk, rfl⟩ := List.getElem?_eq_some_iff.mp hn
  have hnext := List.sum_take_succ _ _ hk
  obtain ⟨l, m, o, hm, ho, hlo, hhi, hwhich⟩ :=
    operandAt_spec hns (x := x + (ns.take k).sum) (by omega) (by omega)
  obtain ⟨hl, rfl⟩ := List.getElem?_eq_some_iff.mp hm
  obtain ⟨hl', rfl⟩ := List.getElem?_eq_some_iff.mp ho
  rw [getElem_starts] at hlo hhi
  have hnext' := List.sum_take_succ _ _ hl
  rcases Nat.lt_trichotomy l k with hlt | rfl | hlt
  · have hmono := sum_take_mono hns (show l + 1 ≤ k by omega)
    omega
  · exact hwhich
  · have hmono := sum_take_mono hns (show k + 1 ≤ l by omega)
    omega

theorem within_part {w : Shape} {a : Nat} (ha : a < w.length) {ns : List Int}
    (hns : ∀ n ∈ ns, 0 ≤ n) {k : Nat} {n : Int} (hn : ns[k]? = some n) {c : List Int}
    (hc : Within (w.set a n) c) :
    Within (w.set a ns.sum) (c.set a (c.getD a 0 + (ns.take k).sum)) := by
  obtain ⟨hstart, hend⟩ := start_bounds hns hn
  obtain ⟨x, hx, _, h0, hlt⟩ := pickAt_within hc (a := a) (n := n) (by simp [ha])
  have hget : c.getD a 0 = x := by simp [List.getD_eq_getElem?_getD, hx]
  have hmoved := hc.set a (x := x + (ns.take k).sum) (n := ns.sum) (by omega)
  rwa [List.set_set, ← hget] at hmoved

/-- Every cell of the join is one of an operand. -/
theorem exists_part {w : Shape} (hw : w.IsProper) {a : Nat} (ha : a < w.length) {ns : List Int}
    (hns : ∀ n ∈ ns, 0 ≤ n) {i : Int} (hi : Holds (w.set a ns.sum) i) :
    ∃ (k : Nat) (n : Int) (c : List Int), ns[k]? = some n ∧ Within (w.set a n) c ∧
      dot (c.set a (c.getD a 0 + (ns.take k).sum)) (strides (w.set a ns.sum)) = i := by
  have hu : IsProper (w.set a ns.sum) := hw.set (List.sum_nonneg hns) a
  have hc := coordinates_within hu hi
  obtain ⟨x, hx, _, h0, hlt⟩ := pickAt_within hc (a := a) (n := ns.sum) (by simp [ha])
  obtain ⟨k, n, o, hn, ho, hlo, hhi, _⟩ := operandAt_spec hns h0 hlt
  obtain ⟨hk, rfl⟩ := List.getElem?_eq_some_iff.mp ho
  rw [getElem_starts] at hlo hhi
  have hown := hc.set a (x := x - (ns.take k).sum) ⟨hlo, hhi⟩
  rw [List.set_set] at hown
  obtain ⟨hlen, hget⟩ := List.getElem?_eq_some_iff.mp hx
  refine ⟨k, n, _, hn, hown, ?_⟩
  have hback : ((coordinates (w.set a ns.sum) i).set a (x - (ns.take k).sum)).getD a 0 +
      (ns.take k).sum = x := by
    rw [List.getD_eq_getElem?_getD, List.getElem?_set_self hlen, Option.getD_some]
    omega
  rw [hback, List.set_set, ← hget, List.set_getElem_self, dot_coordinates hu hi]

/-- A cell of an operand is found in it, without the coordinate along the join axis if the operand
lacks that axis. -/
theorem locate_part {w : Shape} {a : Nat} (ha : a < w.length) {ns : List Int}
    (hns : ∀ n ∈ ns, 0 ≤ n) {shapes : List Shape} {k : Nat} {n : Int} {s : Shape}
    (hn : ns[k]? = some n) (hs : shapes[k]? = some s) {c : List Int} (hc : Within (w.set a n) c) :
    locate ⟨a, (starts ns).map .int, .ofShape (w.set a ns.sum)⟩ false (shapes.map Extents.ofShape)
        (.int (dot (c.set a (c.getD a 0 + (ns.take k).sum)) (strides (w.set a ns.sum)))) =
      .ok (.int k, (if s.length < w.length then c.eraseIdx a else c).map .int) := by
  have hmoved := within_part ha hns hn hc
  obtain ⟨x, hx, _, h0, hlt⟩ := pickAt_within hc (a := a) (n := n) (by simp [ha])
  obtain ⟨hlen, hget⟩ := List.getElem?_eq_some_iff.mp hx
  have hval : c.getD a 0 = x := by simp [List.getD_eq_getElem?_getD, hx]
  have hk := (List.getElem?_eq_some_iff.mp hn).1
  rw [hval] at hmoved ⊢
  have hpick : pickAt ((c.set a (x + (ns.take k).sum)).map Number.int) a =
      .ok (.int (x + (ns.take k).sum)) := pickAt_map Number.int (by simp [hlen])
  have hstart : pickAt ((starts ns).map Number.int) k = .ok (.int (ns.take k).sum) :=
    pickAt_map Number.int (by simp [hk])
  have hshape : pickAt (shapes.map Extents.ofShape) k = .ok (.ofShape s) :=
    pickAt_map Extents.ofShape hs
  have hback :
      (c.set a (x + (ns.take k).sum)).set a (x + (ns.take k).sum - (ns.take k).sum) = c := by
    rw [List.set_set, Int.add_sub_cancel, ← hget, List.set_getElem_self]
  simp only [locate, Extents.coordinates_ofShape, coordinates_dot hmoved, bind, Except.bind, hpick,
    operandAt_eq hns hn h0 hlt, hstart, Bool.false_eq_true, if_false, hshape, Number.sub_int, pure,
    Except.pure, Extents.length_ofShape, List.length_set, replaced, Int.toNat_natCast,
    ← List.map_set, hback]
  split
  · simp [without, ← List.eraseIdx_map]
  · rfl

/-- Arrays that fit in one after another along an axis make up a whole. -/
theorem findsAll_of_fitsIn {w : Shape} (hw : w.IsProper) {a : Nat} (ha : a < w.length)
    {ns : List Int} (hns : ∀ n ∈ ns, 0 ≤ n) {shapes : List Shape}
    (hf : List.Forall₂ (FitsIn w a) ns shapes) :
    FindsAll ⟨a, (starts ns).map .int, .ofShape (w.set a ns.sum)⟩ false shapes := by
  refine ⟨_, hw.set (List.sum_nonneg hns) a, rfl, fun i hi => ?_⟩
  obtain ⟨k, n, c, hn, hc, rfl⟩ := exists_part hw ha hns hi
  obtain ⟨hk, hkn⟩ := List.getElem?_eq_some_iff.mp hn
  have hk' : k < shapes.length := by rwa [← hf.length_eq]
  have hfit : FitsIn w a ns[k] shapes[k] := hf.get hk hk'
  have hs : shapes[k]? = some shapes[k] := List.getElem?_eq_getElem hk'
  rw [hkn] at hfit
  generalize shapes[k] = s at hfit hs
  refine ⟨k, s, _, hs, ?_, locate_part ha hns hn hs hc⟩
  cases hfit with
  | scalar => exact .inl rfl
  | full =>
      rw [List.length_set, if_neg (lt_irrefl _)]
      exact .inr hc
  | slice =>
      have hshort : (w.eraseIdx a).length < w.length := by
        rw [List.length_eraseIdx_of_lt ha]
        omega
      have h := hc.eraseIdx a
      rw [List.eraseIdx_set_eq] at h
      rw [if_pos hshort]
      exact .inr h

/-- A layout along an axis: the operands lie one after another along an axis of the reference. -/
structure Aligns (shapes : List Shape) (j : Joint) (w : Shape) (a : Nat) (ns : List Int) : Prop
    where
  proper : w.IsProper
  axis_lt : a < w.length
  extents_nonneg : ∀ n ∈ ns, 0 ≤ n
  parts : List.Forall₂ (TakesPart w a) ns shapes
  joint_eq : j = ⟨a, (starts ns).map .int, .ofShape (w.set a ns.sum)⟩

theorem aligns_along {shapes : List Shape} (hp : ∀ s ∈ shapes, s.IsProper) {w : Shape}
    (hw : w.IsProper) {axis : Int} (haxis : 0 ≤ axis ∧ axis < w.length) {es places : List Number}
    (hes : extents (shapes.map Extents.ofShape) (Extents.ofShape w) axis
      (shapes.map Extents.ofShape) = .ok es) (hplaces : totals 0 es = .ok places) :
    ∃ a ns, Aligns shapes
      ⟨axis, places.dropLast, replaced (Extents.ofShape w) axis (places.getLastD 0)⟩ w a ns := by
  obtain ⟨a, rfl⟩ := Int.eq_ofNat_of_zero_le haxis.1
  have ha : a < w.length := by omega
  obtain ⟨ns, rfl, hns, hparts⟩ := extents_spec ha hp hes
  rw [totals_zero] at hplaces
  obtain rfl := Except.ok.inj hplaces
  refine ⟨a, ns, hw, ha, hns, hparts, ?_⟩
  rw [List.dropLast_concat, List.getLastD_concat, Extents.replaced_ofShape, Int.toNat_natCast]

/-- The axis of a join is one of the reference, whether it is given or not. -/
theorem exists_aligns {shapes : List Shape} (hp : ∀ s ∈ shapes, s.IsProper)
    {axis : Option Item} {first : Bool} {origin : Origin} {j : Joint}
    (h : aligned (shapes.map Extents.ofShape) axis first origin = .ok j) :
    ∃ w a ns, Aligns shapes j w a ns := by
  have hlengths : (shapes.map Extents.ofShape).map List.length = shapes.map List.length := by
    simp [Function.comp_def]
  unfold aligned at h
  rw [hlengths] at h
  cases axis with
  | none =>
      obtain ⟨w, hw, hlen, href⟩ := reference_ofShape hp
        (if first then 0 else ↑(max ((shapes.map List.length).foldl max 0) 1) - 1)
      obtain ⟨_, hx, h⟩ := bind_eq_ok.mp h
      obtain rfl := Except.ok.inj hx
      obtain ⟨es, hes, h⟩ := bind_eq_ok.mp h
      obtain ⟨places, hplaces, h⟩ := bind_eq_ok.mp h
      obtain rfl := Except.ok.inj h
      rw [href] at hes ⊢
      exact ⟨w, aligns_along hp hw (by split <;> omega) hes hplaces⟩
  | some a =>
      obtain ⟨n, _, h⟩ := bind_eq_ok.mp h
      obtain ⟨x, hx, h⟩ := bind_eq_ok.mp h
      cases x with
      | real _ => cases h
      | complex _ => cases h
      | int k =>
          have hk := AxisArgument.located_int hx
          obtain ⟨w, hw, hlen, href⟩ := reference_ofShape hp k
          obtain ⟨es, hes, h⟩ := bind_eq_ok.mp h
          obtain ⟨places, hplaces, h⟩ := bind_eq_ok.mp h
          obtain rfl := Except.ok.inj h
          rw [href] at hes ⊢
          exact ⟨w, aligns_along hp hw (by omega) hes hplaces⟩

theorem Aligns.findsAll {shapes : List Shape} {j : Joint} {w : Shape} {a : Nat} {ns : List Int}
    (h : Aligns shapes j w a ns) : FindsAll j false shapes := by
  obtain rfl := h.joint_eq
  exact findsAll_of_fitsIn h.proper h.axis_lt h.extents_nonneg (h.parts.imp fun _ _ hp => hp.fits)

/-- Arrays that are stacked have one shape, scalars aside. -/
theorem exists_inner {shapes : List Shape} (hp : ∀ s ∈ shapes, s.IsProper)
    (h : firstUnequal ((shapes.map Extents.ofShape).filter (!·.isEmpty)) = none) :
    ∃ t : Shape, t.IsProper ∧
      ((shapes.map Extents.ofShape).filter (!·.isEmpty)).headD [] = Extents.ofShape t ∧
      ∀ s ∈ shapes, s = [] ∨ s = t := by
  have hcells : (shapes.map Extents.ofShape).filter (!·.isEmpty) =
      (shapes.filter (!·.isEmpty)).map Extents.ofShape := by
    rw [List.filter_map]
    congr 2
    funext s
    simp [Extents.ofShape]
  rw [hcells] at h ⊢
  cases hne : shapes.filter (!·.isEmpty) with
  | nil =>
      refine ⟨[], isProper_nil, rfl, fun s hs => .inl ?_⟩
      simpa using List.filter_eq_nil_iff.mp hne s hs
  | cons t rest =>
      have ht : t ∈ shapes := List.mem_of_mem_filter (hne ▸ List.mem_cons_self)
      refine ⟨t, hp t ht, rfl, fun s hs => ?_⟩
      by_cases hnil : s = []
      · exact .inl hnil
      · have hmem : s ∈ t :: rest := hne ▸ List.mem_filter.mpr ⟨hs, by simpa using hnil⟩
        rw [hne, List.map_cons] at h
        simp only [firstUnequal, Option.map_eq_none_iff, List.find?_eq_none] at h
        rcases List.mem_cons.mp hmem with rfl | hmem
        · exact .inr rfl
        · have heq := h _ (List.mem_map_of_mem hmem)
          simp only [Extents.eq_ofShape, Bool.not_eq_true', beq_eq_false_iff_ne, not_not] at heq
          exact .inr heq

theorem locate_stacked {k : Nat} {u : Shape} {cs : List Int} {x : Int} (hc : Within u cs)
    (hx : cs[k]? = some x) (offsets : List Number) (shapes : List Extents) :
    locate ⟨k, offsets, .ofShape u⟩ true shapes (.int (dot cs u.strides)) =
      .ok (.int x, (cs.eraseIdx k).map .int) := by
  simp only [locate, Extents.coordinates_ofShape, coordinates_dot hc, pickAt_map Number.int hx,
    bind, Except.bind, if_true, pure, Except.pure, without, Int.toNat_natCast, List.eraseIdx_map]

/-- Each position of stacked operands is found in one of them. -/
theorem findsAll_of_stacked {shapes : List Shape} (hp : ∀ s ∈ shapes, s.IsProper)
    {axis : Item} {origin : Origin} {j : Joint}
    (h : stacked (shapes.map Extents.ofShape) axis origin = .ok j) :
    FindsAll j true shapes := by
  obtain ⟨pos, _, h⟩ := bind_eq_ok.mp h
  dsimp only at h
  split at h
  · cases h
  · rename_i hpos
    split at h
    · cases h
    · rename_i hnone
      obtain rfl := Except.ok.inj h
      obtain ⟨t, ht, hinner, hall⟩ := exists_inner hp hnone
      have hrank : ((shapes.map Extents.ofShape).map List.length).foldl max 0 ≤ t.length := by
        rcases foldl_max_cases ((shapes.map Extents.ofShape).map List.length) 0 with h | h
        · omega
        · obtain ⟨e, he, hl⟩ := List.mem_map.mp h
          obtain ⟨s, hs, rfl⟩ := List.mem_map.mp he
          rw [← hl, Extents.length_ofShape]
          rcases hall s hs with rfl | rfl
          · exact Nat.zero_le _
          · exact le_rfl
      obtain ⟨k, rfl⟩ := Int.eq_ofNat_of_zero_le (by omega : 0 ≤ pos)
      have hk : k ≤ t.length := by omega
      rw [hinner, List.length_map, Extents.inserted_ofShape]
      have hu : IsProper (inserted t k shapes.length) := ht.inserted k (Int.natCast_nonneg _)
      refine ⟨_, hu, rfl, fun i hi => ?_⟩
      have hc := coordinates_within hu hi
      obtain ⟨x, hx, _, h0, hlt⟩ := pickAt_within hc (getElem?_inserted hk _)
      obtain ⟨n, rfl⟩ := Int.eq_ofNat_of_zero_le h0
      have hn : n < shapes.length := by omega
      refine ⟨n, shapes[n], (coordinates (inserted t k shapes.length) i).eraseIdx k,
        List.getElem?_eq_getElem hn, ?_, ?_⟩
      · rcases hall _ (List.getElem_mem hn) with h | h
        · exact .inl h
        · have herase := hc.eraseIdx k
          rw [eraseIdx_inserted hk] at herase
          rw [h]
          exact .inr herase
      · have hlocate := locate_stacked hc hx ((upTo shapes.length).map .int)
          (shapes.map Extents.ofShape)
        rwa [dot_coordinates hu hi] at hlocate

theorem findsAll_of_layout {shapes : List Shape} (hp : ∀ s ∈ shapes, s.IsProper)
    {axis : Option Item} {first : Bool} {origin : Origin} {j : Joint} {between : Bool}
    (h : layout (shapes.map Extents.ofShape) axis first origin = .ok j)
    (hb : isBetween axis = .ok between) : FindsAll j between shapes := by
  obtain ⟨b, hb', h⟩ := bind_eq_ok.mp h
  obtain rfl := Except.ok.inj (hb.symm.trans hb')
  cases between with
  | false =>
      obtain ⟨w, a, ns, haligns⟩ := exists_aligns hp h
      exact haligns.findsAll
  | true =>
      cases axis with
      | none => cases hb
      | some a => exact findsAll_of_stacked hp h

/-- Where a cell is located, the join has the cell of the operand that is there. -/
theorem cell_of_locate {j : Joint} {between : Bool} {shapes : List Shape} {gens : List (Gen Item)}
    {i : Number} {m : Nat} {c : List Int} {s : Shape} {gen : Gen Item}
    (h : locate j between (shapes.map Extents.ofShape) i = .ok (.int m, c.map .int))
    (hs : shapes[m]? = some s) (hgen : gens[m]? = some gen) :
    (cells j between (shapes.map Extents.ofShape) gens).cell i =
      gen.cell (.int (dot (if s = [] then [] else c) s.strides)) := by
  have hshape : pickBy (shapes.map Extents.ofShape) (.int m) = .ok (.ofShape s) :=
    pickAt_map Extents.ofShape hs
  rw [cells, Gen.cell_indexed, h]
  simp only [bind, Except.bind, pickBy_of_getElem? hgen]
  cases gen with
  | single x => rfl
  | indexed f =>
      simp only [hshape, Gen.cell_indexed]
      cases s with
      | nil => rfl
      | cons n s =>
          simp only [Extents.strides_ofShape, Extents.dot_map, if_neg (List.cons_ne_nil n s)]
          rfl

/-- A cell of a join is a cell of one of its parts. -/
theorem exists_cell {j : Joint} {between : Bool} {shapes : List Extents} {gens : List (Gen Item)}
    {i : Number} {x : Item} (h : (cells j between shapes gens).cell i = .ok x) :
    ∃ gen ∈ gens, ∃ k, gen.cell k = .ok x := by
  obtain ⟨⟨which, c⟩, _, h⟩ := bind_eq_ok.mp h
  obtain ⟨gen, hgen, h⟩ := bind_eq_ok.mp h
  refine ⟨gen, pickBy_mem hgen, ?_⟩
  cases gen with
  | single y => exact ⟨0, h⟩
  | indexed f =>
      obtain ⟨s, _, h⟩ := bind_eq_ok.mp h
      split at h
      · exact ⟨0, h⟩
      · obtain ⟨fs, _, h⟩ := bind_eq_ok.mp h
        obtain ⟨k, _, h⟩ := bind_eq_ok.mp h
        exact ⟨k, h⟩

end Join

/-- The cells of a join come from those of its parts. -/
theorem Item.generator_of_catenate {xs : List Item} (axis : Option Item) (first : Bool)
    (origin : Origin) {w : View Item} (hw : catenate xs axis first origin = .ok w) {gen : Gen Item}
    (hg : w.generator = .ok gen) : ∃ j between shapes gens,
      gen = Join.cells j between shapes gens ∧
        ∀ g ∈ gens, ∃ x ∈ xs, x.lift.generator = .ok g := by
  cases xs with
  | nil => cases hw
  | cons front rest =>
      obtain rfl := Except.ok.inj hw
      obtain ⟨j, _, hg⟩ := bind_eq_ok.mp hg
      obtain ⟨gens, hgens, hg⟩ := bind_eq_ok.mp hg
      obtain ⟨shapes, _, hg⟩ := bind_eq_ok.mp hg
      obtain ⟨between, _, hg⟩ := bind_eq_ok.mp hg
      refine ⟨j, between, shapes, gens, (Except.ok.inj hg).symm, fun g hmem => ?_⟩
      obtain ⟨v, hv, hgen⟩ := mem_of_mapM hgens hmem
      obtain ⟨x, hx, rfl⟩ := List.mem_map.mp hv
      exact ⟨x, hx, hgen⟩

end LazyApl
