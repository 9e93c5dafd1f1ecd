import LazyApl.Platform.Usual
import LazyApl.Primitive.Amend
import LazyApl.Proofs.Outcome
import Mathlib.Data.List.Nodup
import Mathlib.Data.List.Perm.Basic
/-!
# Packed bits

What is relied on of a package of packed bits, where anything is: zeros, ones and truth values are
packed in their order, the ones are counted, and a search reports the places of what it looks for
from left to right. The ones that are then found are the positions of the ones in the list.
-/
namespace LazyApl

open Outcome

namespace Item

variable {bs : List Bool} {i x : Int}

/-- What a mask counts at a position as a degree of replication. -/
def degree (b : Bool) : Int := if b then 1 else 0

/-- The item stands for a truth value: it is that value or the whole number that it counts as. -/
inductive IsBit : Item → Bool → Prop
  | truth (b : Bool) : IsBit (.truth b) b
  | counted (b : Bool) : IsBit (.int (degree b)) b

/-- The items of an array stand for truth values. -/
def ShowsBits (x : Item) (bs : List Bool) : Prop :=
  ∃ xs, x.items = .ok xs ∧ List.Forall₂ IsBit xs bs

/-- The positions of the ones from `i` on, in order. -/
def onesFrom (i : Int) : List Bool → List Int
  | [] => []
  | b :: bs => if b then i :: onesFrom (i + 1) bs else onesFrom (i + 1) bs

theorem mem_onesFrom {i x : Int} :
    x ∈ onesFrom i bs ↔ ∃ n : Nat, bs[n]? = some true ∧ x = i + n := by
  induction bs generalizing i with
  | nil => simp [onesFrom]
  | cons b bs ih =>
      have hrest : x ∈ onesFrom (i + 1) bs ↔
          ∃ n : Nat, bs[n]? = some true ∧ x = i + (n + 1 : Nat) := by
        rw [ih]
        refine exists_congr fun n => and_congr_right fun _ => ?_
        push_cast
        omega
      constructor
      · intro h
        by_cases hb : b = true
        · rw [onesFrom, if_pos hb, List.mem_cons, hrest] at h
          rcases h with rfl | ⟨n, hn, hx⟩
          · exact ⟨0, by simp [hb], by simp⟩
          · exact ⟨n + 1, hn, hx⟩
        · rw [onesFrom, if_neg hb, hrest] at h
          obtain ⟨n, hn, hx⟩ := h
          exact ⟨n + 1, hn, hx⟩
      · rintro ⟨n, hn, hx⟩
        unfold onesFrom
        cases n with
        | zero =>
            have hb : b = true := Option.some.inj hn
            simp [hb, hx]
        | succ n =>
            have hmem := hrest.mpr ⟨n, hn, hx⟩
            split
            · exact List.mem_cons_of_mem _ hmem
            · exact hmem

theorem pairwise_onesFrom (i : Int) (bs : List Bool) : (onesFrom i bs).Pairwise (· < ·) := by
  induction bs generalizing i with
  | nil => exact .nil
  | cons b bs ih =>
      unfold onesFrom
      split
      · refine .cons (fun x hx => ?_) (ih (i + 1))
        obtain ⟨n, _, rfl⟩ := mem_onesFrom.mp hx
        omega
      · exact ih (i + 1)

theorem length_onesFrom (i : Int) (bs : List Bool) : (onesFrom i bs).length = bs.count true := by
  induction bs generalizing i with
  | nil => rfl
  | cons b bs ih => cases b <;> simp [onesFrom, ih]

theorem onesFrom_inj {j k : Nat} (hj : (onesFrom i bs)[j]? = some x)
    (hk : (onesFrom i bs)[k]? = some x) : j = k := by
  obtain ⟨hj', hj⟩ := List.getElem?_eq_some_iff.mp hj
  obtain ⟨hk', hk⟩ := List.getElem?_eq_some_iff.mp hk
  have hnodup : (onesFrom i bs).Nodup := (pairwise_onesFrom i bs).imp fun h => Int.ne_of_lt h
  exact (hnodup.getElem_inj_iff).mp (hj.trans hk.symm)

theorem getElem?_onesFrom {n : Nat} (h : bs[n]? = some true) :
    (onesFrom i bs)[(bs.take n).count true]? = some (i + n) := by
  induction bs generalizing i n with
  | nil => cases h
  | cons b bs ih =>
      cases n with
      | zero =>
          obtain rfl : b = true := Option.some.inj h
          simp [onesFrom]
      | succ n =>
          have hnext : i + 1 + n = i + (n + 1 : Nat) := by
            push_cast
            omega
          have hrest : (onesFrom (i + 1) bs)[(bs.take n).count true]? = some (i + (n + 1 : Nat)) :=
            hnext ▸ ih h
          cases b <;> simpa [onesFrom] using hrest

end Item

/-- What a package of bits does. -/
structure BitLists.IsLawful (B : BitLists) : Prop where
  /-- Zeros, ones and truth values can be packed. -/
  pack : ∀ {xs bs}, List.Forall₂ Item.IsBit xs bs → ∃ b, B.pack xs = .ok b ∧ B.bits b = bs
  count : ∀ b, B.count b = (B.bits b).count true
  /-- A search finds the places at which a list that is not empty begins in another. -/
  mem_search : ∀ b {p}, B.bits p ≠ [] → ∀ i : Int,
    i ∈ B.search b p ↔ ∃ n : Nat, i = n ∧ B.bits p <+: (B.bits b).drop n
  pairwise_search : ∀ b {p}, B.bits p ≠ [] → (B.search b p).Pairwise (· < ·)

namespace Usual

variable {pattern bs : List Bool} {s i : Int}

theorem mem_positions (hp : pattern ≠ []) :
    i ∈ positions pattern s bs ↔ ∃ n : Nat, i = s + n ∧ pattern <+: bs.drop n := by
  induction bs generalizing s with
  | nil => simpa [positions] using fun _ _ => hp
  | cons b bs ih =>
      have hrest : i ∈ positions pattern (s + 1) bs ↔
          ∃ n : Nat, i = s + (n + 1 : Nat) ∧ pattern <+: (b :: bs).drop (n + 1) := by
        rw [ih]
        refine exists_congr fun n => and_congr_left fun _ => ?_
        push_cast
        omega
      have hcases : (∃ n : Nat, i = s + n ∧ pattern <+: (b :: bs).drop n) ↔
          (i = s ∧ pattern <+: b :: bs) ∨
            ∃ n : Nat, i = s + (n + 1 : Nat) ∧ pattern <+: (b :: bs).drop (n + 1) := by
        constructor
        · rintro ⟨_ | n, hi, hn⟩
          · exact .inl ⟨by simpa using hi, hn⟩
          · exact .inr ⟨n, hi, hn⟩
        · rintro (⟨rfl, h⟩ | ⟨n, hi, hn⟩)
          · exact ⟨0, by simp, h⟩
          · exact ⟨n + 1, hi, hn⟩
      rw [hcases, ← hrest, positions]
      split
      · rename_i h
        rw [List.mem_cons]
        simp [List.isPrefixOf_iff_prefix.mp h]
      · rename_i h
        have hnot : ¬ pattern <+: b :: bs := fun hpre => h (List.isPrefixOf_iff_prefix.mpr hpre)
        simp [hnot]

theorem pairwise_positions (hp : pattern ≠ []) (s : Int) (bs : List Bool) :
    (positions pattern s bs).Pairwise (· < ·) := by
  induction bs generalizing s with
  | nil => exact .nil
  | cons b bs ih =>
      rw [positions]
      split
      · refine .cons (fun i hi => ?_) (ih (s + 1))
        obtain ⟨n, rfl, -⟩ := (mem_positions hp).mp hi
        omega
      · exact ih (s + 1)

/-- Bits in a list are lawful. -/
theorem isLawful_bitLists : bitLists.IsLawful := by
  refine ⟨fun {xs bs} h => ⟨bs, ?_, rfl⟩, fun _ => rfl, fun b p hp i => ?_, fun b p hp =>
    pairwise_positions hp 0 b⟩
  · refine mapM_eq_ok.mpr (h.imp fun x b hx => ?_)
    cases hx with
    | truth => rfl
    | counted => cases b <;> rfl
  · refine (mem_positions hp).trans (exists_congr fun n => ?_)
    rw [Int.zero_add]
    exact Iff.rfl

end Usual

namespace Item

variable [Platform] {bs : List Bool}

theorem ShowsBits.packed {x : Item} (h : x.ShowsBits bs) (hB : Platform.bitLists.IsLawful)
    (refusal : DomainCause) : ∃ b, x.packed refusal = .ok b ∧ Platform.bitLists.bits b = bs := by
  obtain ⟨xs, hx, h⟩ := h
  obtain ⟨b, hb, hbits⟩ := hB.pack h
  have hpack : x.items >>= Platform.bitLists.pack = .ok b := by
    rw [hx]
    exact hb
  refine ⟨b, ?_, hbits⟩
  rw [Item.packed, hpack]

/-- The ones that are found are all ones, in order. -/
theorem onesIn_eq (hB : Platform.bitLists.IsLawful) (b : Platform.bitLists.Packed) :
    onesIn b = .ok (onesFrom 0 (Platform.bitLists.bits b)) := by
  obtain ⟨one, hone, hbits⟩ := hB.pack (.cons (.truth true) .nil)
  have hne : Platform.bitLists.bits one ≠ [] := by simp [hbits]
  have hfirst (l : List Bool) : [true] <+: l ↔ l.head? = some true := by
    cases l <;> simp [List.cons_prefix_cons, eq_comm]
  have hmem (i : Int) : i ∈ Platform.bitLists.search b one ↔
      i ∈ onesFrom 0 (Platform.bitLists.bits b) := by
    rw [hB.mem_search b hne, mem_onesFrom, hbits]
    refine exists_congr fun n => ?_
    rw [Int.zero_add, and_comm, hfirst, List.head?_drop]
  have hsame : Platform.bitLists.search b one = onesFrom 0 (Platform.bitLists.bits b) :=
    List.Perm.eq_of_pairwise (fun _ _ _ _ h h' => absurd h h'.asymm) (hB.pairwise_search b hne)
      (pairwise_onesFrom 0 _) ((List.perm_ext_iff_of_nodup
        ((hB.pairwise_search b hne).imp fun h => Int.ne_of_lt h)
        ((pairwise_onesFrom 0 _).imp fun h => Int.ne_of_lt h)).mpr hmem)
  rw [onesIn, hone]
  exact congrArg Except.ok hsame

end Item
end LazyApl
