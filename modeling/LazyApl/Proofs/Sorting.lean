import LazyApl.Sorting
import LazyApl.Proofs.Outcome
import Mathlib
/-!
# Sorting by runs loses nothing

Whatever a comparison says, sorting by runs gives the items that it was given. While two runs are
merged there are items that have been taken and items that are left in either run, and all of them
together stay the same. Each round takes an item or settles the pair, so the number of rounds that
is allowed is never used up.
-/
namespace LazyApl
namespace Sorting

open Outcome

variable {α : Type} {less : α → α → Except Fault Bool}

theorem coe_take_add_drop (k : Nat) (xs : List α) :
    (xs.take k : Multiset α) + xs.drop k = xs := by
  rw [Multiset.coe_add, List.take_append_drop]

theorem coe_insertAll {rest : List α} {done run : Array α}
    (h : insertAll less rest done = .ok run) :
    (run.toList : Multiset α) = rest + done.toList := by
  induction rest generalizing done with
  | nil =>
      obtain rfl := Except.ok.inj h
      simp
  | cons x rest ih =>
      obtain ⟨k, _, h⟩ := bind_eq_ok.mp h
      rw [ih h, List.toList_toArray, ← Multiset.coe_add, ← Multiset.cons_coe, ← Multiset.cons_coe,
        Multiset.add_cons, Multiset.add_cons, coe_take_add_drop, Multiset.cons_add]

theorem coe_stretch {next : α → α → Except Fault Bool} {before : α} {done xs run rest : List α}
    (h : stretch next before done xs = .ok (run, rest)) :
    (run : Multiset α) + rest = done + xs := by
  induction xs generalizing before done with
  | nil =>
      cases h
      rfl
  | cons x xs ih =>
      obtain ⟨b, _, h⟩ := bind_eq_ok.mp h
      cases b with
      | true =>
          rw [ih h, ← Multiset.cons_coe, ← Multiset.cons_coe, Multiset.cons_add, Multiset.add_cons]
      | false =>
          cases h
          rfl

theorem coe_firstRun {xs run rest : List α} (h : firstRun less xs = .ok (run, rest)) :
    (run : Multiset α) + rest = xs := by
  unfold firstRun at h
  split at h
  · rename_i a b xs
    obtain ⟨falls, _, h⟩ := bind_eq_ok.mp h
    have hswap : (([b, a] : List α) : Multiset α) + xs = (a :: b :: xs : List α) := by
      rw [Multiset.coe_add]
      exact Multiset.coe_eq_coe.mpr (.swap a b xs)
    cases falls with
    | true => exact (coe_stretch h).trans hswap
    | false =>
        obtain ⟨⟨rising, others⟩, hrising, h⟩ := bind_eq_ok.mp h
        cases h
        rw [Multiset.coe_reverse, coe_stretch hrising, hswap]
  · cases h
    simp

theorem length_stretch {next : α → α → Except Fault Bool} {before : α} {done xs run rest : List α}
    (h : stretch next before done xs = .ok (run, rest)) : rest.length ≤ xs.length := by
  induction xs generalizing before done with
  | nil =>
      cases h
      rfl
  | cons x xs ih =>
      obtain ⟨b, _, h⟩ := bind_eq_ok.mp h
      cases b with
      | true => exact (ih h).trans (Nat.le_succ _)
      | false =>
          cases h
          rfl

theorem length_firstRun {xs run rest : List α} (h : firstRun less xs = .ok (run, rest))
    (hx : xs ≠ []) : rest.length < xs.length := by
  unfold firstRun at h
  split at h
  · rename_i a b xs
    obtain ⟨falls, _, h⟩ := bind_eq_ok.mp h
    have hshort : rest.length ≤ xs.length := by
      cases falls with
      | true => exact length_stretch h
      | false =>
          obtain ⟨⟨rising, others⟩, hrising, h⟩ := bind_eq_ok.mp h
          cases h
          exact length_stretch hrising
    simp only [List.length_cons]
    omega
  · cases h
    exact List.length_pos_iff.mpr hx

namespace Pair

variable {p : Pair α} {xs : List α}

/-- All items of two runs: those that have been taken, and those that are left. -/
def all (p : Pair α) : Multiset α := p.done + p.short + p.long

def left (p : Pair α) : Nat := p.short.length + p.long.length

@[simp] theorem all_takeShort (k : Nat) (p : Pair α) : (p.takeShort k).all = p.all := by
  unfold all takeShort
  rw [← Multiset.coe_add, Multiset.coe_reverse]
  conv_rhs => rw [← coe_take_add_drop k p.short]
  abel

@[simp] theorem all_takeLong (k : Nat) (p : Pair α) : (p.takeLong k).all = p.all := by
  unfold all takeLong
  rw [← Multiset.coe_add, Multiset.coe_reverse]
  conv_rhs => rw [← coe_take_add_drop k p.long]
  abel

theorem coe_of_settled (h : p.settled = some xs) : (xs : Multiset α) = p.all := by
  obtain ⟨done, short, long⟩ := p
  unfold all
  cases short with
  | nil =>
      obtain rfl := Option.some.inj h
      simp [← Multiset.coe_add]
  | cons s short =>
      cases long with
      | nil =>
          obtain rfl : done.reverse ++ s :: short = xs := by
            cases short <;> exact Option.some.inj h
          simp [← Multiset.coe_add]
      | cons l long =>
          cases short with
          | nil =>
              obtain rfl := Option.some.inj h
              rw [← Multiset.coe_add, ← Multiset.coe_add, Multiset.coe_reverse]
              abel
          | cons s' short => cases h

theorem ne_nil_of_not_settled (h : p.settled = none) : p.short ≠ [] ∧ p.long ≠ [] := by
  obtain ⟨done, short, long⟩ := p
  constructor
  · rintro rfl
    cases h
  · rintro rfl
    cases short with
    | nil => cases h
    | cons s short => cases short <;> cases h

theorem left_takeShort (k : Nat) (p : Pair α) : (p.takeShort k).left ≤ p.left := by
  simp only [left, takeShort, List.length_drop]
  omega

theorem left_takeLong (k : Nat) (p : Pair α) : (p.takeLong k).left ≤ p.left := by
  simp only [left, takeLong, List.length_drop]
  omega

theorem left_takeShort_one (h : p.settled = none) : (p.takeShort 1).left < p.left := by
  have hs := List.length_pos_iff.mpr (ne_nil_of_not_settled h).1
  simp only [left, takeShort, List.length_drop]
  omega

theorem left_takeLong_one (h : p.settled = none) : (p.takeLong 1).left < p.left := by
  have hl := List.length_pos_iff.mpr (ne_nil_of_not_settled h).2
  simp only [left, takeLong, List.length_drop]
  omega

theorem isSettled_iff : p.isSettled = true ↔ p.settled ≠ none := by
  rw [isSettled, Option.isSome_iff_ne_none]

end Pair

namespace Contest

variable {c : Contest α} {p q : Pair α} {k : Nat}

theorem leapShort_spec (h : c.leapShort p = .ok (q, k)) : q.all = p.all ∧ q.left ≤ p.left := by
  unfold leapShort at h
  split at h
  · cases h
    exact ⟨rfl, le_rfl⟩
  · obtain ⟨k, _, h⟩ := bind_eq_ok.mp h
    cases h
    exact ⟨p.all_takeShort k, p.left_takeShort k⟩

theorem leapLong_spec (h : c.leapLong p = .ok (q, k)) : q.all = p.all ∧ q.left ≤ p.left := by
  unfold leapLong at h
  split at h
  · cases h
    exact ⟨rfl, le_rfl⟩
  · obtain ⟨k, _, h⟩ := bind_eq_ok.mp h
    cases h
    exact ⟨p.all_takeLong k, p.left_takeLong k⟩

/-- A leap in the run that comes first, and one in the other run. -/
def leapFirst (c : Contest α) (p : Pair α) : Except Fault (Pair α × Nat) :=
  if c.isBackward then c.leapLong p else c.leapShort p

def leapSecond (c : Contest α) (p : Pair α) : Except Fault (Pair α × Nat) :=
  if c.isBackward then c.leapShort p else c.leapLong p

/-- The items that stop these leaps, taken from the other run. -/
def stopFirst (c : Contest α) (p : Pair α) : Pair α :=
  if c.isBackward then p.takeShort 1 else p.takeLong 1

def stopSecond (c : Contest α) (p : Pair α) : Pair α :=
  if c.isBackward then p.takeLong 1 else p.takeShort 1

theorem leapBoth_eq (c : Contest α) (p : Pair α) : c.leapBoth p = c.leapFirst p >>= fun (p, k) =>
    if p.isSettled then .ok (p, true)
    else if (c.stopFirst p).isSettled then .ok (c.stopFirst p, true)
    else c.leapSecond (c.stopFirst p) >>= fun (p, k') =>
      if p.isSettled then .ok (p, true)
      else .ok (c.stopSecond p,
        (c.stopSecond p).isSettled || manyWins ≤ k || manyWins ≤ k') := by
  obtain ⟨isBackward, less⟩ := c
  cases isBackward <;> rfl

theorem leapFirst_spec (h : c.leapFirst p = .ok (q, k)) : q.all = p.all ∧ q.left ≤ p.left := by
  unfold leapFirst at h
  split at h
  · exact leapLong_spec h
  · exact leapShort_spec h

theorem leapSecond_spec (h : c.leapSecond p = .ok (q, k)) : q.all = p.all ∧ q.left ≤ p.left := by
  unfold leapSecond at h
  split at h
  · exact leapShort_spec h
  · exact leapLong_spec h

theorem stopFirst_spec (c : Contest α) (h : p.settled = none) :
    (c.stopFirst p).all = p.all ∧ (c.stopFirst p).left < p.left := by
  unfold stopFirst
  split
  · exact ⟨p.all_takeShort 1, Pair.left_takeShort_one h⟩
  · exact ⟨p.all_takeLong 1, Pair.left_takeLong_one h⟩

theorem stopSecond_spec (c : Contest α) (p : Pair α) :
    (c.stopSecond p).all = p.all ∧ (c.stopSecond p).left ≤ p.left := by
  unfold stopSecond
  split
  · exact ⟨p.all_takeLong 1, p.left_takeLong 1⟩
  · exact ⟨p.all_takeShort 1, p.left_takeShort 1⟩

/-- Leaps in both runs settle the pair or take something. -/
theorem leapBoth_spec {b : Bool} (h : c.leapBoth p = .ok (q, b)) :
    q.all = p.all ∧ (q.settled = none → q.left < p.left) := by
  rw [leapBoth_eq] at h
  obtain ⟨⟨p₁, k⟩, hfirst, h⟩ := bind_eq_ok.mp h
  obtain ⟨hall₁, hleft₁⟩ := leapFirst_spec hfirst
  dsimp only at h
  split at h
  · rename_i hs
    cases h
    exact ⟨hall₁, fun hnone => absurd hnone (Pair.isSettled_iff.mp hs)⟩
  rename_i hs₁
  have hnone : p₁.settled = none := by simpa [Pair.isSettled] using hs₁
  obtain ⟨hall₂, hleft₂⟩ := stopFirst_spec c hnone
  split at h
  · cases h
    exact ⟨hall₂.trans hall₁, fun _ => by omega⟩
  obtain ⟨⟨p₃, k'⟩, hsecond, h⟩ := bind_eq_ok.mp h
  obtain ⟨hall₃, hleft₃⟩ := leapSecond_spec hsecond
  obtain ⟨hall₄, hleft₄⟩ := stopSecond_spec c p₃
  dsimp only at h
  split at h
  · cases h
    exact ⟨hall₃.trans (hall₂.trans hall₁), fun _ => by omega⟩
  · cases h
    exact ⟨hall₄.trans (hall₃.trans (hall₂.trans hall₁)), fun _ => by omega⟩

/-- A merge that has a round for each item that is left loses none. -/
theorem coe_merge {fuel patience patience' : Nat} {pace : Pace} {xs : List α}
    (h : c.merge fuel pace patience p = .ok (xs, patience'))
    (hfuel : p.settled = none → p.left ≤ fuel) : (xs : Multiset α) = p.all := by
  induction fuel generalizing pace patience p with
  | zero =>
      obtain ⟨rfl, _⟩ := Prod.mk.inj (Except.ok.inj h)
      cases hs : p.settled with
      | some ys => exact Pair.coe_of_settled hs
      | none =>
          have hshort := List.length_pos_iff.mpr (Pair.ne_nil_of_not_settled hs).1
          have hleft := hfuel hs
          simp only [Pair.left] at hleft
          omega
  | succ fuel ih =>
      unfold merge at h
      split at h
      · rename_i ys hs
        obtain ⟨rfl, _⟩ := Prod.mk.inj (Except.ok.inj h)
        exact Pair.coe_of_settled hs
      · rename_i s short l long hs hshort hlong
        -- what is left gets shorter in every round, so the fuel lasts
        have hrest : ∀ {q : Pair α} {pace : Pace} {patience : Nat},
            c.merge fuel pace patience q = .ok (xs, patience') → q.all = p.all →
            (q.settled = none → q.left < p.left) → (xs : Multiset α) = p.all := by
          intro q pace patience hq hall hless
          refine (ih hq fun hnone => ?_).trans hall
          have hleft := hfuel hs
          have hless' := hless hnone
          omega
        split at h
        · obtain ⟨won, _, h⟩ := bind_eq_ok.mp h
          cases won with
          | true =>
              have hless := Pair.left_takeLong_one hs
              simp only [if_true] at h
              split at h
              · exact hrest h (p.all_takeLong 1) fun _ => hless
              · exact hrest h (p.all_takeLong 1) fun _ => hless
          | false =>
              have hless := Pair.left_takeShort_one hs
              simp only [Bool.false_eq_true, if_false] at h
              split at h
              · exact hrest h (p.all_takeShort 1) fun _ => hless
              · exact hrest h (p.all_takeShort 1) fun _ => hless
        · obtain ⟨⟨after, b⟩, hboth, h⟩ := bind_eq_ok.mp h
          obtain ⟨hall, hless⟩ := leapBoth_spec hboth
          dsimp only at h
          split at h
          · exact hrest h hall hless
          · exact hrest h hall hless
      · rename_i hs hnone
        obtain ⟨hshort, hlong⟩ := Pair.ne_nil_of_not_settled hs
        obtain ⟨s, short, hshort⟩ := List.exists_cons_of_ne_nil hshort
        obtain ⟨l, long, hlong⟩ := List.exists_cons_of_ne_nil hlong
        exact (hnone s short l long hshort hlong).elim

end Contest

theorem coe_mergeRuns {patience patience' : Nat} {a b xs : List α}
    (h : mergeRuns less patience a b = .ok (xs, patience')) : (xs : Multiset α) = a + b := by
  unfold mergeRuns at h
  split at h
  · cases h
    simp
  · rename_i b first rest
    obtain ⟨k, _, h⟩ := bind_eq_ok.mp h
    dsimp only at h
    -- what the leaps cut off in front and at the back is put around what is merged
    have ha := coe_take_add_drop k a
    split at h
    · rename_i hlast
      rw [List.getLast?_eq_none_iff] at hlast
      cases h
      rw [hlast, Multiset.coe_nil, add_zero] at ha
      rw [← Multiset.coe_add, ha]
    · obtain ⟨k', _, h⟩ := bind_eq_ok.mp h
      have hb := coe_take_add_drop ((first :: rest).length - k') (first :: rest)
      generalize (first :: rest).take ((first :: rest).length - k') = b at h hb
      generalize (first :: rest).drop ((first :: rest).length - k') = back at h hb
      generalize a.take k = front at h ha
      generalize a.drop k = a' at h ha
      rw [← ha, ← hb]
      split at h
      · rename_i hempty
        cases h
        rw [List.isEmpty_iff] at hempty
        subst hempty
        simp [← Multiset.coe_add, add_assoc]
      split at h
      · obtain ⟨⟨merged, patience''⟩, hmerged, h⟩ := bind_eq_ok.mp h
        cases h
        have hleft := (Pair.mk [] a' b).left_takeLong 1
        have hall := Contest.coe_merge hmerged fun _ => by
          simp only [Pair.left] at hleft ⊢
          omega
        rw [Pair.all_takeLong, Pair.all, Multiset.coe_nil, zero_add] at hall
        rw [← Multiset.coe_add, ← Multiset.coe_add, hall]
        abel
      · obtain ⟨⟨merged, patience''⟩, hmerged, h⟩ := bind_eq_ok.mp h
        cases h
        have hleft := (Pair.mk [] b.reverse a'.reverse).left_takeLong 1
        have hall := Contest.coe_merge hmerged fun _ => by
          simp only [Pair.left, List.length_reverse] at hleft ⊢
          omega
        rw [Pair.all_takeLong, Pair.all, Multiset.coe_nil, zero_add, Multiset.coe_reverse,
          Multiset.coe_reverse] at hall
        rw [← Multiset.coe_add, ← Multiset.coe_add, Multiset.coe_reverse, hall]
        abel

namespace Pending

variable {s s' : Pending α} {patience patience' : Nat}

def all (s : Pending α) : Multiset α := (s.runs.map fun run => (run.items : Multiset α)).sum

theorem all_cons (run : Run α) (runs : List (Run α)) (patience : Nat) :
    (Pending.mk (run :: runs) patience).all = run.items + (Pending.mk runs patience).all := by
  simp [all]

theorem coe_joined {lower upper run : Run α} {border : Nat}
    (h : joined less patience lower upper border = .ok (run, patience')) :
    (run.items : Multiset α) = lower.items + upper.items := by
  obtain ⟨⟨items, patience''⟩, hitems, h⟩ := bind_eq_ok.mp h
  cases h
  exact coe_mergeRuns hitems

theorem all_mergeDeeper {border fuel : Nat} (h : mergeDeeper less border fuel s = .ok s') :
    s'.all = s.all := by
  induction fuel generalizing s with
  | zero =>
      cases h
      rfl
  | succ fuel ih =>
      obtain ⟨runs, patience⟩ := s
      unfold mergeDeeper at h
      split at h
      · rename_i upper lower rest hruns
        dsimp only at hruns
        subst hruns
        split at h
        · obtain ⟨⟨run, patience'⟩, hrun, h⟩ := bind_eq_ok.mp h
          rw [ih h, all_cons, coe_joined hrun, all_cons, all_cons]
          simp only [all]
          abel
        · cases h
          rfl
      · cases h
        rfl

theorem all_add {length : Nat} {items : List α} (h : s.add less length items = .ok s') :
    s'.all = s.all + items := by
  obtain ⟨runs, patience⟩ := s
  unfold add at h
  split at h
  · rename_i hruns
    dsimp only at hruns
    subst hruns
    cases h
    simp [all]
  · rename_i last rest hruns
    dsimp only at hruns
    subst hruns
    dsimp only at h
    obtain ⟨s, hs, h⟩ := bind_eq_ok.mp h
    have hall := all_mergeDeeper hs
    obtain ⟨runs, patience'⟩ := s
    rw [← hall]
    split at h
    · rename_i last rest hruns
      dsimp only at hruns
      subst hruns
      cases h
      simp only [all, List.map_cons, List.sum_cons]
      abel
    · rename_i hruns
      dsimp only at hruns
      subst hruns
      cases h
      simp [all]

theorem coe_flatMap_reverse (runs : List (Run α)) (patience : Nat) :
    (runs.reverse.flatMap Run.items : Multiset α) = (Pending.mk runs patience).all := by
  induction runs with
  | nil => rfl
  | cons run runs ih =>
      rw [all_cons, ← ih, List.reverse_cons, List.flatMap_append, ← Multiset.coe_add]
      simp [add_comm]

theorem coe_mergeAll {fuel : Nat} {xs : List α} (h : mergeAll less fuel s = .ok xs) :
    (xs : Multiset α) = s.all := by
  induction fuel generalizing s with
  | zero =>
      cases h
      exact coe_flatMap_reverse s.runs s.patience
  | succ fuel ih =>
      obtain ⟨runs, patience⟩ := s
      unfold mergeAll at h
      dsimp only at h
      split at h
      · cases h
        rfl
      · cases h
        simp [all]
      · rename_i upper middle lower rest
        split at h
        · obtain ⟨⟨run, patience'⟩, hrun, h⟩ := bind_eq_ok.mp h
          rw [ih h, all_cons, all_cons, coe_joined hrun]
          simp only [all, List.map_cons, List.sum_cons]
          abel
        · obtain ⟨⟨run, patience'⟩, hrun, h⟩ := bind_eq_ok.mp h
          rw [ih h, all_cons, coe_joined hrun]
          simp only [all, List.map_cons, List.sum_cons]
          abel
      · obtain ⟨⟨run, patience'⟩, hrun, h⟩ := bind_eq_ok.mp h
        cases h
        rw [coe_joined hrun]
        simp [all, add_comm]

end Pending

theorem all_collect {length least fuel : Nat} {xs : List α} {s s' : Pending α}
    (h : collect less length least fuel xs s = .ok s') (hfuel : xs.length ≤ fuel) :
    s'.all = s.all + xs := by
  induction fuel generalizing xs s with
  | zero =>
      cases h
      obtain rfl := List.length_eq_zero_iff.mp (Nat.le_zero.mp hfuel)
      simp
  | succ fuel ih =>
      unfold collect at h
      split at h
      · rename_i hempty
        cases h
        obtain rfl := List.isEmpty_iff.mp hempty
        simp
      · rename_i hx
        obtain ⟨⟨run, rest⟩, hrun, h⟩ := bind_eq_ok.mp h
        obtain ⟨longer, hlonger, h⟩ := bind_eq_ok.mp h
        obtain ⟨s₁, hs₁, h⟩ := bind_eq_ok.mp h
        have hshorter := length_firstRun hrun fun hnil => hx (List.isEmpty_iff.mpr hnil)
        have hitems : (longer.toList : Multiset α) + rest.drop (least - run.length) = xs := by
          rw [coe_insertAll hlonger, ← coe_firstRun hrun,
            ← coe_take_add_drop (least - run.length) rest, List.toList_toArray]
          abel
        rw [ih h (by rw [List.length_drop]; omega), Pending.all_add hs₁, add_assoc, hitems]

theorem sort_perm {xs ys : List α} (h : sort less xs = .ok ys) : ys.Perm xs := by
  unfold sort at h
  dsimp only at h
  split at h
  · cases h
    rfl
  · obtain ⟨s, hs, h⟩ := bind_eq_ok.mp h
    rw [← Multiset.coe_eq_coe, Pending.coe_mergeAll h, all_collect hs le_rfl]
    simp [Pending.all]

end Sorting
end LazyApl
