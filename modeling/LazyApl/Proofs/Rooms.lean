import LazyApl.Proofs.Outcome
import LazyApl.Room
/-!
# What has room

Copies are made one piece at a time and go into one list. A piece is made if its number of copies
fits into 64 bits and the piece has room; the list goes on if it has room with the piece at its end.
Apart from the bound on the numbers the pieces have room if all of them together have.
-/
namespace LazyApl

open Outcome

namespace Room

variable {room : Room} {α β : Type}

/-- A list of so many members can be made by repeating one. -/
def Has (room : Room) (n : Nat) : Prop := n < twoTo 63 ∧ n ≤ room.limit

theorem times_one (room : Room) (n : Nat) : (room.Has n ∧ room.times 1 n = .ok n) ∨
    ¬ room.Has n ∧ (room.times 1 n = .error .overflow ∨ room.times 1 n = .error .noRoom) := by
  have hfits : fits n = decide (n < twoTo 63) := by
    unfold fits
    rw [Bool.eq_iff_iff]
    simp only [Bool.and_eq_true, decide_eq_true_eq]
    omega
  unfold times
  rw [hfits]
  by_cases hn : n < twoTo 63
  · by_cases hle : n ≤ room.limit
    · exact .inl ⟨⟨hn, hle⟩, by simp [hn, hle]⟩
    · exact .inr ⟨fun h => hle h.2, .inr (by simp [hn, not_le.mp hle])⟩
  · exact .inr ⟨fun h => hn h.1, .inl (by simp [hn])⟩

theorem exists_times_of_le {m n : Int} {k : Nat} (hmn : m ≤ n) (h0 : 0 ≤ m)
    (h : room.times 1 n = .ok k) : ∃ k', room.times 1 m = .ok k' := by
  obtain ⟨m, rfl⟩ := Int.eq_ofNat_of_zero_le h0
  obtain ⟨n, rfl⟩ := Int.eq_ofNat_of_zero_le (h0.trans hmn)
  have hmn : m ≤ n := by omega
  rcases times_one room n with ⟨hn, _⟩ | ⟨_, he | he⟩
  · rcases times_one room m with ⟨_, hm⟩ | ⟨hm, _⟩
    · exact ⟨m, hm⟩
    · exact absurd ⟨hmn.trans_lt hn.1, hmn.trans hn.2⟩ hm
  · cases h.symm.trans he
  · cases h.symm.trans he

theorem times_spec {size k : Nat} {n : Int} (h : room.times size n = .ok k) : k = n.toNat := by
  unfold times at h
  split at h
  · cases h
  · split at h
    · cases h
    · exact (Except.ok.inj h).symm

theorem mem_of_repeated {xs ys : List α} {n : Int} {y : α} (h : room.repeated xs n = .ok ys)
    (hy : y ∈ ys) : y ∈ xs := by
  obtain ⟨k, -, h⟩ := bind_eq_ok.mp h
  cases xs with
  | nil =>
      cases h
      exact hy
  | cons x xs =>
      cases h
      obtain ⟨l, hl, hy⟩ := List.mem_flatten.mp hy
      rwa [(List.mem_replicate.mp hl).2] at hy

/-- So many copies, and some more members after them, go at the end of a list of some length if the
number of copies can be said and the list has room. -/
theorem copies_grown (room : Room) (x : α) (k more length : Nat)
    (f : List α → Nat → Except Fault β) :
    ((k < twoTo 63 ∧ length + (k + more) ≤ room.limit) ∧
      (room.copies x k >>= fun own => room.grown length (own.length + more) >>= f own) =
        f (List.replicate k x) (length + (k + more))) ∨
    (¬ (k < twoTo 63 ∧ length + (k + more) ≤ room.limit) ∧
      ((room.copies x k >>= fun own => room.grown length (own.length + more) >>= f own) =
          .error .overflow ∨
        (room.copies x k >>= fun own => room.grown length (own.length + more) >>= f own) =
          .error .noRoom)) := by
  have hcopies : room.copies x k = room.times 1 k >>= fun k => .ok (List.replicate k x) := rfl
  rw [hcopies]
  rcases times_one room k with ⟨hk, htimes⟩ | ⟨hk, htimes | htimes⟩
  · rw [htimes]
    by_cases hle : length + (k + more) ≤ room.limit
    · refine .inl ⟨⟨hk.1, hle⟩, ?_⟩
      simp [grown, not_lt.mpr hle, bind, Except.bind]
    · refine .inr ⟨fun h => hle h.2, .inr ?_⟩
      simp [grown, not_le.mp hle, bind, Except.bind]
  · exact .inr ⟨fun h => hk ⟨h.1, by omega⟩, .inl (by rw [htimes]; rfl)⟩
  · exact .inr ⟨fun h => hk ⟨h.1, by omega⟩, .inr (by rw [htimes]; rfl)⟩

/-- Pieces of some lengths, each with so many more members at its end, can be made one by one, and a
list has room for them. -/
structure Takes (room : Room) (more length : Nat) (ks : List Nat) : Prop where
  each : ∀ k ∈ ks, k < twoTo 63
  total : length + ks.sum + more * ks.length ≤ room.limit

theorem takes_nil {more length : Nat} (h : length ≤ room.limit) : room.Takes more length [] :=
  ⟨nofun, h⟩

theorem takes_cons {more length k : Nat} {ks : List Nat} : room.Takes more length (k :: ks) ↔
    (k < twoTo 63 ∧ length + (k + more) ≤ room.limit) ∧
      room.Takes more (length + (k + more)) ks := by
  have hmore : more * (ks.length + 1) = more * ks.length + more := Nat.mul_succ ..
  constructor
  · rintro ⟨heach, htotal⟩
    rw [List.sum_cons, List.length_cons] at htotal
    obtain ⟨hk, heach⟩ := List.forall_mem_cons.mp heach
    exact ⟨⟨hk, by omega⟩, heach, by omega⟩
  · rintro ⟨⟨hk, _⟩, heach, htotal⟩
    refine ⟨List.forall_mem_cons.mpr ⟨hk, heach⟩, ?_⟩
    rw [List.sum_cons, List.length_cons]
    omega

end Room
end LazyApl
