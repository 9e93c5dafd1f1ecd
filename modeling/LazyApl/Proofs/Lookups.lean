import LazyApl.Primitive.Search
import LazyApl.Proofs.Outcome
/-!
# Lookups

A lookup answers from its table while all of its items are whole numbers or text, and compares one
item after the other once there is anything else. Both ways find the same: no tolerance makes two
different whole numbers or texts equal, and the table has the first position of each. What the table
and the flag say of the items is kept by every addition, so it holds after any run of requests.
-/

namespace LazyApl

open Outcome

namespace Item

theorem exactValue_eq_some {x : Item} {e : Exact} (h : x.exactValue = some e) :
    (∃ n, x = int n ∧ e = .whole n) ∨ ∃ s, x = text s ∧ e = .text s := by
  unfold exactValue at h
  split at h <;> cases h
  · exact .inl ⟨_, rfl, rfl⟩
  · exact .inr ⟨_, rfl, rfl⟩

theorem near_of_exactValue [Platform] (ct : Tolerance) {x y : Item} {e f : Exact}
    (hx : x.exactValue = some e) (hy : y.exactValue = some f) :
    near ct x y = .ok (decide (f = e)) := by
  obtain ⟨m, rfl, rfl⟩ | ⟨s, rfl, rfl⟩ := exactValue_eq_some hx <;>
    obtain ⟨n, rfl, rfl⟩ | ⟨t, rfl, rfl⟩ := exactValue_eq_some hy <;>
    rw [near]
  · by_cases h : n = m
    · simp [Scalar.near, Scalar.eq, Scalar.number?, h, pure, Except.pure]
    · simp [Scalar.near, Scalar.eq, Scalar.number?, h, Ne.symm h, pure, Except.pure]
  · simp [Scalar.near, pure, Except.pure]
  · simp [Scalar.near, pure, Except.pure]
  · simp [Scalar.near, pure, Except.pure, BEq.beq, eq_comm]

end Item

namespace Lookup

/-- What a search has to answer: the least position of an item that passes a test, or nothing if no
item does. The items before that position are those that are tested and do not pass. -/
def IsFirst (test : Item → Except Fault Bool) (xs : List Item) : Option Nat → Prop
  | none => ∀ x ∈ xs, test x = .ok false
  | some k => (∃ x, xs[k]? = some x ∧ test x = .ok true) ∧ ∀ x ∈ xs.take k, test x = .ok false

variable {test : Item → Except Fault Bool}

theorem isFirst_cons {x : Item} {xs : List Item} {r : Option Nat} :
    IsFirst test (x :: xs) r ↔
      (r = some 0 ∧ test x = .ok true) ∨
        test x = .ok false ∧ ∃ k, r = k.map (· + 1) ∧ IsFirst test xs k := by
  cases r with
  | none => simp [IsFirst]
  | some k =>
      cases k with
      | zero => simp [IsFirst]
      | succ k => simp [IsFirst]; tauto

/-- A search counts from the given position on, and fails where a test fails before an item has
passed. -/
theorem firstWhere_eq_ok (i : Int) (xs : List Item) (r : Option Int) :
    firstWhere test i xs = .ok r ↔
      ∃ k : Option Nat, r = k.map (fun (j : Nat) => i + (j : Int)) ∧ IsFirst test xs k := by
  induction xs generalizing i with
  | nil =>
      constructor
      · intro h
        cases h
        exact ⟨none, rfl, by simp [IsFirst]⟩
      · rintro ⟨k, rfl, hk⟩
        cases k with
        | none => rfl
        | some k => simp [IsFirst] at hk
  | cons x xs ih =>
      have shift (k : Option Nat) : (k.map (· + 1)).map (fun (j : Nat) => i + (j : Int)) =
          k.map fun (j : Nat) => i + 1 + (j : Int) := by
        cases k with
        | none => rfl
        | some k => simp; omega
      rw [firstWhere]
      cases hx : test x with
      | error e => simp [isFirst_cons, hx, bind, Except.bind]
      | ok b =>
          cases b with
          | true => simp [isFirst_cons, hx, bind, Except.bind, pure, Except.pure, eq_comm]
          | false =>
              simp only [bind, Except.bind, Bool.false_eq_true, if_false, ih, isFirst_cons, hx]
              constructor
              · rintro ⟨k, rfl, hk⟩
                exact ⟨k.map (· + 1), (shift k).symm, .inr ⟨trivial, k, rfl, hk⟩⟩
              · rintro ⟨_, rfl, ⟨-, h⟩ | ⟨-, k, rfl, hk⟩⟩
                · cases h
                · exact ⟨k, shift k, hk⟩

theorem firstWhere_of_ok {p : Item → Bool} (i : Int) {xs : List Item}
    (h : ∀ x ∈ xs, test x = .ok (p x)) :
    firstWhere test i xs = .ok ((xs.findIdx? p).map fun (j : Nat) => i + (j : Int)) := by
  rw [firstWhere_eq_ok]
  refine ⟨xs.findIdx? p, rfl, ?_⟩
  induction xs with
  | nil => simp [IsFirst]
  | cons x xs ih =>
      obtain ⟨hx, hxs⟩ := List.forall_mem_cons.mp h
      rw [isFirst_cons, List.findIdx?_cons, hx]
      cases hp : p x with
      | true => exact .inl ⟨rfl, rfl⟩
      | false => exact .inr ⟨rfl, _, rfl, ih hxs⟩

/-- The flag tells whether some item has to be compared within the tolerance, and the table has the
first position of every value that is compared exactly. -/
structure IsFaithful (l : Lookup) : Prop where
  isInexact : l.isInexact = l.values.any fun x => x.exactValue.isNone
  first (e : Exact) : l.first.lookup e =
    (l.values.findIdx? fun x => x.exactValue == some e).map fun (j : Nat) => (j : Int)

theorem isFaithful_empty (ct : Tolerance) : IsFaithful ⟨[], ct, [], false⟩ where
  isInexact := rfl
  first _ := rfl

@[simp] theorem values_add (l : Lookup) (x : Item) : (l.add x).values = l.values ++ [x] := by
  unfold add
  split
  · rfl
  · split <;> rfl

@[simp] theorem tolerance_add (l : Lookup) (x : Item) : (l.add x).tolerance = l.tolerance := by
  unfold add
  split
  · rfl
  · split <;> rfl

theorem isInexact_add (l : Lookup) (x : Item) :
    (l.add x).isInexact = (l.isInexact || x.exactValue.isNone) := by
  unfold add
  split
  case h_1 hx => simp [hx]
  case h_2 hx => split <;> simp [hx]

theorem lookup_add (l : Lookup) (x : Item) (e : Exact) : (l.add x).first.lookup e =
    (l.first.lookup e).or
      (if x.exactValue = some e then some (l.values.length : Int) else none) := by
  unfold add
  split
  case h_1 hx => simp [hx]
  case h_2 f hx =>
    simp only [hx, Option.some.injEq]
    by_cases hf : f = e
    · subst hf
      cases hl : l.first.lookup f with
      | none => simp
      | some k => simp [hl]
    · have he : (e == f) = false := by simpa using Ne.symm hf
      split
      · simp
      · simp [List.lookup_cons, he]

theorem findIdx?_append_singleton (xs : List Item) (x : Item) (e : Exact) :
    (xs ++ [x]).findIdx? (fun y => y.exactValue == some e) =
      (xs.findIdx? fun y => y.exactValue == some e).or
        (if x.exactValue = some e then some xs.length else none) := by
  rw [List.findIdx?_append, List.findIdx?_singleton]
  by_cases hx : x.exactValue = some e <;> simp [hx]

theorem IsFaithful.add {l : Lookup} (h : l.IsFaithful) (x : Item) : (l.add x).IsFaithful where
  isInexact := by simp [isInexact_add, h.isInexact]
  first e := by
    rw [lookup_add, values_add, findIdx?_append_singleton, h.first]
    by_cases hx : x.exactValue = some e <;> simp [hx]

theorem foldl_add_spec {l : Lookup} (h : l.IsFaithful) (xs : List Item) :
    (xs.foldl Lookup.add l).IsFaithful ∧ (xs.foldl Lookup.add l).values = l.values ++ xs ∧
      (xs.foldl Lookup.add l).tolerance = l.tolerance := by
  induction xs generalizing l with
  | nil => exact ⟨h, by simp, rfl⟩
  | cons x xs ih =>
      obtain ⟨hk, hv, ht⟩ := ih (h.add x)
      exact ⟨hk, by simpa using hv, by simpa using ht⟩

theorem ofList_spec (xs : List Item) (ct : Tolerance) :
    (ofList xs ct).IsFaithful ∧ (ofList xs ct).values = xs ∧ (ofList xs ct).tolerance = ct :=
  foldl_add_spec (isFaithful_empty ct) xs

/-- What is asked of a lookup. -/
inductive Request
  | add (x : Item)
  | find (probe : Item)

def added : List Request → List Item
  | [] => []
  | .add x :: rest => x :: added rest
  | .find _ :: rest => added rest

variable [Platform]

/-- The table answers what comparing one item after the other would. -/
theorem IsFaithful.find_eq {l : Lookup} (h : l.IsFaithful) (probe : Item) :
    l.find probe = firstWhere (Item.near l.tolerance probe) 0 l.values := by
  unfold find
  split
  case h_2 => rfl
  case h_1 e hp hi =>
    rw [h.isInexact, List.any_eq_false] at hi
    have tested : ∀ x ∈ l.values,
        Item.near l.tolerance probe x = .ok (x.exactValue == some e) := by
      intro x hx
      obtain ⟨f, hf⟩ := Option.ne_none_iff_exists'.mp (by simpa using hi x hx)
      rw [Item.near_of_exactValue _ hp hf, hf]
      rfl
    rw [firstWhere_of_ok 0 tested, h.first]
    simp

/-- Requests one after the other: what is found, in order, and the lookup in the end. -/
def run : Lookup → List Request → List (Except Fault (Option Int)) × Lookup
  | l, [] => ([], l)
  | l, .add x :: rest => run (l.add x) rest
  | l, .find probe :: rest =>
    let (found, after) := run l rest
    (l.find probe :: found, after)

/-- What requests have to find, given the items that there are before them. Whatever the search for
the first item within the tolerance answers has to be found, and nothing else. -/
inductive Searches (ct : Tolerance) :
    List Item → List Request → List (Except Fault (Option Int)) → Prop
  | done (xs : List Item) : Searches ct xs [] []
  | add {xs : List Item} {x : Item} {rest : List Request}
      {found : List (Except Fault (Option Int))} :
      Searches ct (xs ++ [x]) rest found → Searches ct xs (.add x :: rest) found
  | find {xs : List Item} {probe : Item} {rest : List Request}
      {answer : Except Fault (Option Int)} {found : List (Except Fault (Option Int))} :
      (∀ r, answer = .ok r ↔
        ∃ k : Option Nat, r = k.map (fun (j : Nat) => (j : Int)) ∧
          IsFirst (Item.near ct probe) xs k) →
      Searches ct xs rest found → Searches ct xs (.find probe :: rest) (answer :: found)

theorem IsFaithful.run_spec {l : Lookup} (h : l.IsFaithful) (requests : List Request) :
    Searches l.tolerance l.values requests (run l requests).1 ∧
      (run l requests).2.values = l.values ++ added requests := by
  induction requests generalizing l with
  | nil => exact ⟨.done _, by simp [run, added]⟩
  | cons request rest ih =>
      cases request with
      | add x =>
          obtain ⟨hs, hv⟩ := ih (h.add x)
          rw [tolerance_add, values_add] at hs
          rw [values_add, List.append_assoc] at hv
          exact ⟨.add hs, hv⟩
      | find probe =>
          obtain ⟨hs, hv⟩ := ih h
          refine ⟨.find (fun r => ?_) hs, hv⟩
          rw [h.find_eq, firstWhere_eq_ok]
          simp

/-- A lookup finds the least position of an item that is equal to a probe within the tolerance, from
its table or not: after any requests, whatever has been added, and whatever the tolerance. Its items
are those that it was made with and those that were added, in order. -/
theorem run_ofList (ct : Tolerance) (initial : List Item) (requests : List Request) :
    Searches ct initial requests (run (ofList initial ct) requests).1 ∧
      (run (ofList initial ct) requests).2.values = initial ++ added requests := by
  obtain ⟨hf, hv, ht⟩ := ofList_spec initial ct
  have h := hf.run_spec requests
  rwa [hv, ht] at h

end Lookup
end LazyApl
