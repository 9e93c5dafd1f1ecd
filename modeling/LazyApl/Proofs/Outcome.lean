import LazyApl.Extents
import LazyApl.Axis
import LazyApl.Proofs.Positions
/-!
# Computations that may fail

When a computation of several steps succeeds, each of its steps has succeeded. The lemmas here say
so for steps in sequence, for a step at each member of a list, and for the arithmetic of numbers,
where a whole result betrays that whole numbers went in.
-/
namespace LazyApl

namespace Outcome

variable {α β : Type}

theorem bind_eq_ok {x : Except Fault α} {f : α → Except Fault β} {b : β} :
    x >>= f = .ok b ↔ ∃ a, x = .ok a ∧ f a = .ok b := by
  cases x with
  | error e => simp [bind, Except.bind]
  | ok a => simp [bind, Except.bind]

theorem map_eq_ok {x : Except Fault α} {f : α → β} {b : β} :
    f <$> x = .ok b ↔ ∃ a, x = .ok a ∧ f a = b := by
  cases x with
  | error e => simp [Functor.map, Except.map]
  | ok a => simp [Functor.map, Except.map]

theorem mapM_eq_ok {f : α → Except Fault β} {xs : List α} {ys : List β} :
    xs.mapM f = .ok ys ↔ List.Forall₂ (fun x y => f x = .ok y) xs ys := by
  induction xs generalizing ys with
  | nil => cases ys <;> simp [pure, Except.pure]
  | cons x xs ih =>
      rw [List.mapM_cons, bind_eq_ok]
      constructor
      · rintro ⟨y, hy, h⟩
        obtain ⟨zs, hz, h⟩ := bind_eq_ok.mp h
        cases h
        exact .cons hy (ih.mp hz)
      · intro h
        cases h with
        | cons hy h => exact ⟨_, hy, bind_eq_ok.mpr ⟨_, ih.mpr h, rfl⟩⟩

theorem mapM_ok {f : α → Except Fault β} {g : α → β} {xs : List α}
    (h : ∀ x ∈ xs, f x = .ok (g x)) : xs.mapM f = .ok (xs.map g) := by
  rw [mapM_eq_ok, List.forall₂_map_right_iff, List.forall₂_same]
  exact h

theorem mapM_congr {f g : α → Except Fault β} {xs : List α}
    (h : ∀ x ∈ xs, f x = g x) : xs.mapM f = xs.mapM g := by
  induction xs with
  | nil => rfl
  | cons x xs ih =>
      obtain ⟨hx, hxs⟩ := List.forall_mem_cons.mp h
      rw [List.mapM_cons, List.mapM_cons, hx, ih hxs]

theorem exists_mapM {f : α → Except Fault β} {xs : List α}
    (h : ∀ x ∈ xs, ∃ y, f x = .ok y) : ∃ ys, xs.mapM f = .ok ys := by
  induction xs with
  | nil => exact ⟨[], rfl⟩
  | cons x xs ih =>
      obtain ⟨hx, hr⟩ := List.forall_mem_cons.mp h
      obtain ⟨y, hy⟩ := hx
      obtain ⟨ys, hys⟩ := ih hr
      exact ⟨y :: ys, mapM_eq_ok.mpr (.cons hy (mapM_eq_ok.mp hys))⟩

theorem mem_of_mapM {f : α → Except Fault β} {xs : List α} {ys : List β} {y : β}
    (h : xs.mapM f = .ok ys) (hy : y ∈ ys) : ∃ x ∈ xs, f x = .ok y := by
  rw [mapM_eq_ok] at h
  induction h with
  | nil => cases hy
  | cons hx _ ih =>
      rcases List.mem_cons.mp hy with rfl | hy
      · exact ⟨_, List.mem_cons_self, hx⟩
      · obtain ⟨x, hm, hf⟩ := ih hy
        exact ⟨x, List.mem_cons_of_mem _ hm, hf⟩

theorem getElem?_mapM {f : α → Except Fault β} {xs : List α} {ys : List β}
    (h : xs.mapM f = .ok ys) {k : Nat} {x : α} (hx : xs[k]? = some x) :
    ∃ y, ys[k]? = some y ∧ f x = .ok y := by
  have hall := mapM_eq_ok.mp h
  obtain ⟨hk, rfl⟩ := List.getElem?_eq_some_iff.mp hx
  have hk' : k < ys.length := by rwa [← hall.length_eq]
  exact ⟨ys[k], List.getElem?_eq_getElem hk', hall.get hk hk'⟩

theorem exists_mem_of_mapM {f : α → Except Fault β} {xs : List α} {ys : List β} {x : α}
    (h : xs.mapM f = .ok ys) (hx : x ∈ xs) : ∃ y ∈ ys, f x = .ok y := by
  obtain ⟨k, hk⟩ := List.getElem?_of_mem hx
  obtain ⟨y, hy, hf⟩ := getElem?_mapM h hk
  exact ⟨y, List.mem_of_getElem? hy, hf⟩

end Outcome

open Outcome

namespace Number

theorem pair_eq_ints {x y : Number} {a b : Int} (h : x.pair y = .ok (.ints a b)) :
    x = .int a ∧ y = .int b := by
  unfold pair at h
  split at h
  · simpa using h
  all_goals
    first
    | cases h
    | obtain ⟨_, _, h⟩ := bind_eq_ok.mp h
      cases h

theorem mul_eq_int {x y : Number} {m : Int} (h : x.mul y = .ok (.int m)) :
    ∃ a b, x = .int a ∧ y = .int b := by
  obtain ⟨p, hp, h⟩ := bind_eq_ok.mp h
  cases p with
  | ints a b => exact ⟨a, b, pair_eq_ints hp⟩
  | reals a b => cases h
  | complexes a b => cases h

theorem index_eq_ok {x : Number} {n : Int} : x.index = .ok n ↔ x = .int n := by
  cases x <;> simp [index]

theorem mapM_index (ns : List Int) : (ns.map int).mapM index = .ok ns := by
  rw [mapM_eq_ok, List.forall₂_map_left_iff, List.forall₂_same]
  exact fun _ _ => rfl

theorem product_eq_int {x : Number} {xs : List Number} {m : Int}
    (h : product x xs = .ok (.int m)) : ∃ a ns, x = .int a ∧ wholes? xs = some ns := by
  induction xs generalizing x with
  | nil => exact ⟨m, [], by simpa [product] using h, rfl⟩
  | cons y xs ih =>
      obtain ⟨z, hz, h⟩ := bind_eq_ok.mp h
      obtain ⟨a, ns, rfl, hn⟩ := ih h
      obtain ⟨b, c, rfl, rfl⟩ := mul_eq_int hz
      exact ⟨b, c :: ns, rfl, by simp [wholes?, hn]⟩

end Number

namespace Extents

theorem ofShape_inj {s t : Shape} (h : ofShape s = ofShape t) : s = t :=
  List.map_injective_iff.mpr (fun _ _ => Number.int.inj) h

theorem eq_ofShape_of_shape {e : Extents} {t : Shape} (h : e.shape = .ok t) :
    e = .ofShape t := by
  unfold shape at h
  split at h
  · rename_i s hs
    obtain rfl := Except.ok.inj h
    exact Number.eq_map_of_wholes? hs
  · cases h

/-- Cells can be counted only in an array of whole extents. -/
theorem count_eq_ok {e : Extents} {m : Int} (h : e.count = .ok m) :
    ∃ s : Shape, e = .ofShape s ∧ m = s.size := by
  obtain ⟨n, hn, hm⟩ := bind_eq_ok.mp h
  obtain rfl := Number.index_eq_ok.mp hm
  unfold size at hn
  split at hn
  · rename_i s hs
    exact ⟨s, Number.eq_map_of_wholes? hs, by simpa using hn.symm⟩
  · rename_i hs
    obtain ⟨_, ns, _, h⟩ := Number.product_eq_int hn
    rw [hs] at h
    cases h

theorem exists_shapes {es : List Extents}
    (h : ∀ e ∈ es, ∃ s : Shape, e = ofShape s ∧ s.IsProper) :
    ∃ ss : List Shape, es = ss.map ofShape ∧ ∀ s ∈ ss, s.IsProper := by
  induction es with
  | nil => exact ⟨[], rfl, by simp⟩
  | cons e es ih =>
      obtain ⟨⟨s, rfl, hp⟩, hrest⟩ := List.forall_mem_cons.mp h
      obtain ⟨ss, rfl, hps⟩ := ih hrest
      exact ⟨s :: ss, rfl, List.forall_mem_cons.mpr ⟨hp, hps⟩⟩

end Extents

theorem pickAt_ok {α : Type} {xs : List α} {i : Int} (h0 : 0 ≤ i) {x : α} :
    pickAt xs i = .ok x ↔ xs[i.toNat]? = some x := by
  simp only [pickAt, nth?, if_neg (Int.not_lt.mpr h0)]
  cases xs[i.toNat]? <;> simp

theorem pickAt_of_getElem? {α : Type} {xs : List α} {k : Nat} {x : α} (h : xs[k]? = some x) :
    pickAt xs k = .ok x :=
  (pickAt_ok (Int.natCast_nonneg k)).mpr h

theorem pickAt_map {α β : Type} {xs : List α} {k : Nat} {x : α} (f : α → β)
    (h : xs[k]? = some x) : pickAt (xs.map f) k = .ok (f x) :=
  pickAt_of_getElem? (by simp [h])

theorem pickAt_ofShape {s : Shape} {a : Nat} {n : Int} (ha : s[a]? = some n) :
    pickAt (Extents.ofShape s) a = .ok (.int n) :=
  pickAt_map Number.int ha

theorem pickBy_of_getElem? {α : Type} {xs : List α} {k : Nat} {x : α} (h : xs[k]? = some x) :
    pickBy xs (.int k) = .ok x :=
  pickAt_of_getElem? h

theorem pickBy_mem {α : Type} {xs : List α} {i : Number} {x : α} (h : pickBy xs i = .ok x) :
    x ∈ xs := by
  obtain ⟨k, _, h⟩ := bind_eq_ok.mp h
  unfold pickAt at h
  split at h
  · rename_i y hy
    cases h
    unfold nth? at hy
    split at hy
    · split at hy
      · cases hy
      · exact List.mem_of_getElem? hy
    · exact List.mem_of_getElem? hy
  · cases h

theorem pickAt_lt {α : Type} {xs : List α} {i : Int} {x : α} (h : pickAt xs i = .ok x) :
    -(xs.length : Int) ≤ i ∧ i < xs.length := by
  unfold pickAt nth? at h
  split at h
  · rename_i y hy
    split at hy
    · split at hy
      · cases hy
      · have hk := (List.getElem?_eq_some_iff.mp hy).1
        omega
    · have hk := (List.getElem?_eq_some_iff.mp hy).1
      omega
  · cases h

theorem pickAt_within {s : Shape} {cs : List Int} (hc : s.Within cs) {a : Nat} {n : Int}
    (ha : s[a]? = some n) :
    ∃ x, cs[a]? = some x ∧ pickAt (cs.map Number.int) a = .ok (.int x) ∧ 0 ≤ x ∧ x < n := by
  have hl : a < cs.length := by
    rw [hc.length_eq]
    exact (List.getElem?_eq_some_iff.mp ha).1
  have hx : cs[a]? = some cs[a] := List.getElem?_eq_getElem hl
  exact ⟨cs[a], hx, pickAt_map Number.int hx, hc.getElem hx ha⟩

theorem AxisArgument.located_int {a : AxisArgument} {rank : Int} {origin : Origin} {k : Int}
    (h : a.located rank origin = .ok (.int k)) : 0 ≤ k ∧ k < rank := by
  cases a with
  | other x => cases h
  | whole n =>
      obtain ⟨x, hx, h⟩ := bind_eq_ok.mp h
      obtain ⟨b, hb, h⟩ := bind_eq_ok.mp h
      cases b with
      | false => cases h
      | true =>
          obtain ⟨y, hy, h⟩ := bind_eq_ok.mp h
          rw [hx] at hy
          cases hy
          obtain ⟨p, hp, h⟩ := bind_eq_ok.mp h
          cases p with
          | reals _ _ => cases h
          | complexes _ _ => cases h
          | ints m o =>
              obtain ⟨hn, rfl⟩ := Number.pair_eq_ints hp
              cases hn
              cases h
              rw [AxisArgument.isAmong_int] at hb
              have hr := of_decide_eq_true (Except.ok.inj hb)
              omega

/-- An axis counted from a whole number is whole. -/
theorem AxisArgument.located_whole {a : AxisArgument} {rank o : Int} {origin : Origin} {x : Number}
    (ho : origin.number = .ok (.int o)) (h : a.located rank origin = .ok x) :
    ∃ k, x = .int k := by
  cases a with
  | other x => cases h
  | whole n =>
      simp only [located, ho, bind, Except.bind, isAmong_int, Scalar.strip, Number.sub_int] at h
      split at h
      · exact ⟨_, (Except.ok.inj h).symm⟩
      · cases h

end LazyApl
