import LazyApl.Primitive.Where
import LazyApl.Proofs.Buffers
import LazyApl.Proofs.Masking
import LazyApl.Proofs.MixedShapes
import LazyApl.Proofs.Permuting
import Mathlib.Algebra.BigOperators.Ring.Finset
/-!
# Counting coordinates

Coordinates of one length are covered by the least shape in which all of them name cells. Different
coordinates name different cells of it, so the count at a cell is the number of times that its
coordinates are listed. If none are listed twice, the counts are a mask, and its ones are the
coordinates again, now in the order of the cells.
-/
namespace LazyApl

open Outcome

namespace Shape

variable {t u : Shape} {c : List Int}

theorem Within.mono (hc : u.Within c) (h : List.Forall₂ (· ≤ ·) u t) : t.Within c := by
  induction h generalizing c with
  | nil => exact hc
  | cons hle _ ih =>
      cases hc with
      | cons hx hc => exact within_cons.mpr ⟨⟨hx.1, hx.2.trans_le hle⟩, ih hc⟩

theorem size_mono (h : List.Forall₂ (· ≤ ·) u t) (hu : u.IsProper) : u.size ≤ t.size := by
  induction h with
  | nil => exact le_rfl
  | @cons m n u t hle _ ih =>
      obtain ⟨hm, hu⟩ := isProper_cons.mp hu
      exact mul_le_mul hle (ih hu) (size_nonneg hu) (hm.trans hle)

end Shape

namespace Where

variable {P Q : List Int → Prop} {ps : List (List Int)} {s t u : Shape} {c : List Int}

/-- The least shape with cells at certain coordinates: they are within it, and along each axis one
of them is the last. -/
structure IsBox (P : List Int → Prop) (u : Shape) : Prop where
  within : ∀ c, P c → u.Within c
  reached : ∀ (k : Nat) n, u[k]? = some n → ∃ p, P p ∧ p[k]? = some (n - 1)

theorem IsBox.congr (h : IsBox P u) (hPQ : ∀ c, P c ↔ Q c) : IsBox Q u := by
  obtain rfl : P = Q := funext fun c => propext (hPQ c)
  exact h

theorem IsBox.isProper (h : IsBox (· ∈ ps) u) (hne : ps ≠ []) : u.IsProper := by
  obtain ⟨p, hp⟩ := List.exists_mem_of_ne_nil ps hne
  exact (h.within p hp).isProper

theorem IsBox.le (h : IsBox P u) (hl : u.length = t.length) (ht : ∀ c, P c → t.Within c) :
    List.Forall₂ (· ≤ ·) u t := by
  refine List.forall₂_iff_get.mpr ⟨hl, fun k hk hk' => ?_⟩
  obtain ⟨c, hc, hlast⟩ := h.reached k _ (List.getElem?_eq_getElem hk)
  have hbound := (ht c hc).getElem hlast (List.getElem?_eq_getElem hk')
  simp only [List.get_eq_getElem]
  omega

/-- Coordinates of one length, none below zero, are covered by the least shape that holds them. -/
theorem exists_cover {r : Nat} (hne : ps ≠ []) (hl : ∀ p ∈ ps, p.length = r)
    (h0 : ∀ p ∈ ps, ∀ x ∈ p, 0 ≤ x) :
    ∃ u, cover (ps.map Extents.ofShape) = .ok (.ofShape u) ∧ u.length = r ∧ IsBox (· ∈ ps) u := by
  obtain ⟨m, hm, hhull⟩ := Mix.exists_greatest hl
  have hcover : cover (ps.map Extents.ofShape) =
      (Mix.greatest (ps.map Extents.ofShape) >>= fun top =>
        top.mapM fun x => (1 : Number).add x) := by
    cases ps with
    | nil => exact absurd rfl hne
    | cons p ps => rfl
  have hadd : (Extents.ofShape m).mapM (fun x => (1 : Number).add x) =
      .ok (Extents.ofShape (m.map (1 + ·))) := by
    simp only [Extents.ofShape, List.mapM_map, List.map_map]
    exact mapM_ok fun n _ => rfl
  obtain ⟨p, hp⟩ := List.exists_mem_of_ne_nil ps hne
  have hlm : m.length = r := (hhull.le p hp).length_eq.symm.trans (hl p hp)
  refine ⟨m.map (1 + ·), by rw [hcover, hm]; exact hadd, by rw [List.length_map, hlm],
    fun q hq => ?_, fun k n hn => ?_⟩
  · refine (List.forall₂_map_left_iff.mpr (List.forall₂_iff_get.mpr ?_))
    obtain ⟨hlq, hle⟩ := List.forall₂_iff_get.mp (hhull.le q hq)
    refine ⟨hlq.symm, fun k hk hk' => ?_⟩
    have hle := hle k hk' hk
    have h0 := h0 q hq _ (List.get_mem q ⟨k, hk'⟩)
    omega
  · rw [List.getElem?_map, Option.map_eq_some_iff] at hn
    obtain ⟨top, htop, rfl⟩ := hn
    obtain ⟨q, hq, hattained⟩ := hhull.attained k (List.getElem?_eq_some_iff.mp htop).1
    exact ⟨q, hq, by rw [hattained, htop]; congr 1; omega⟩

/-- How often each cell of an array is listed. -/
def counts (s : Shape) (ps : List (List Int)) : List Int :=
  (upTo s.size).map fun i => ((ps.map fun p => Shape.dot p s.strides).count i : Nat)

theorem tally_eq (hs : s.IsProper) (h : ∀ p ∈ ps, s.Within p) :
    tally s ps (Array.replicate s.size.toNat 0) = .ok (counts s ps).toArray := by
  have h0 := Shape.size_nonneg hs
  have hplaces : ∀ i ∈ ps.map fun p => Shape.dot p s.strides,
      0 ≤ i ∧ i < (List.replicate s.size.toNat (0 : Int)).length := by
    intro i hi
    obtain ⟨p, hp, rfl⟩ := List.mem_map.mp hi
    have hholds : 0 ≤ Shape.dot p s.strides ∧ Shape.dot p s.strides < s.size := (h p hp).holds
    rw [List.length_replicate]
    omega
  have hup := foldlM_increments hplaces
  rw [List.foldlM_map] at hup
  rw [tally, ← List.toArray_replicate]
  refine hup.trans (congrArg (fun zs : List Int => Except.ok zs.toArray) ?_)
  refine List.ext_getElem? fun k => ?_
  rw [counts, upTo, List.map_map, List.getElem?_mapIdx, List.getElem?_map]
  by_cases hk : k < s.size.toNat <;> simp [hk]

theorem counts_eq (hs : s.IsProper) (h : ∀ p ∈ ps, s.Within p) :
    counts s ps = (upTo s.size).map fun i => (ps.count (s.coordinates i) : Int) := by
  refine List.map_congr_left fun i hi => ?_
  have hi : s.Holds i := mem_upTo.mp hi
  -- different coordinates have different positions
  have hplace : ∀ p ∈ ps, (Shape.dot p s.strides == i) = (p == s.coordinates i) := by
    intro p hp
    rw [Bool.eq_iff_iff, beq_iff_eq, beq_iff_eq]
    constructor
    · rintro rfl
      exact (Shape.coordinates_dot (h p hp)).symm
    · rintro rfl
      exact Shape.dot_coordinates hs hi
  congr 1
  rw [List.count, List.count, List.countP_map]
  exact List.countP_congr fun p hp => by simp only [Function.comp, hplace p hp]

theorem getElem?_counts (h : ∀ p ∈ ps, s.Within p) (hc : s.Within c) :
    (counts s ps)[(s.position c).toNat]? = some (ps.count c : Int) := by
  rw [counts_eq hc.isProper h, getElem?_map_upTo _ hc.holds_position, Shape.coordinates_position hc]

theorem length_counts (s : Shape) (ps : List (List Int)) :
    (counts s ps).length = s.size.toNat := by
  simp [counts]

theorem sum_counts (h : ∀ p ∈ ps, s.Within p) : (counts s ps).sum = ps.length := by
  have hcells : ∀ i ∈ ((ps.map fun p => Shape.dot p s.strides : List Int) : Multiset Int),
      i ∈ (upTo s.size).toFinset := by
    intro i hi
    obtain ⟨p, hp, rfl⟩ := List.mem_map.mp (Multiset.mem_coe.mp hi)
    exact List.mem_toFinset.mpr (mem_upTo.mpr (h p hp).holds)
  have hsum := Multiset.sum_count_eq_card hcells
  simp only [Multiset.coe_count, Multiset.coe_card, List.length_map] at hsum
  rw [counts, ← List.sum_toFinset _ (nodup_upTo _), ← Nat.cast_sum, hsum]

/-- The coordinates lead to a one of a mask. -/
def IsOne (t : Shape) (bs : List Bool) (c : List Int) : Prop :=
  t.Within c ∧ bs[(t.position c).toNat]? = some true

/-- The coordinates of the ones of a mask, in order. -/
def ones (t : Shape) (bs : List Bool) : List (List Int) := (Item.onesFrom 0 bs).map t.coordinates

variable {bs : List Bool}

theorem mem_ones (ht : t.IsProper) (hl : (bs.length : Int) = t.size) :
    c ∈ ones t bs ↔ IsOne t bs c := by
  simp only [ones, List.mem_map, IsOne]
  constructor
  · rintro ⟨i, hi, rfl⟩
    obtain ⟨k, hk⟩ := List.mem_iff_getElem?.mp hi
    obtain ⟨n, hn, rfl⟩ := Item.mem_onesFrom.mp hi
    have hholds := (Item.holds_onesFrom hl hk).1
    rw [Shape.position_coordinates ht hholds]
    exact ⟨Shape.coordinates_within ht hholds, by simpa using hn⟩
  · rintro ⟨hc, hone⟩
    refine ⟨_, Item.mem_onesFrom.mpr ⟨_, hone, rfl⟩, ?_⟩
    rw [Int.zero_add, Int.toNat_of_nonneg hc.holds_position.1, Shape.coordinates_position hc]

theorem pairwise_ones (ht : t.IsProper) (hl : (bs.length : Int) = t.size) :
    (ones t bs).Pairwise fun c d => t.position c < t.position d := by
  have hposition : ∀ i ∈ Item.onesFrom 0 bs, t.position (t.coordinates i) = i := by
    intro i hi
    obtain ⟨k, hk⟩ := List.mem_iff_getElem?.mp hi
    exact Shape.position_coordinates ht (Item.holds_onesFrom hl hk).1
  refine List.pairwise_map.mpr ((Item.pairwise_onesFrom 0 bs).imp_of_mem fun hi hj hlt => ?_)
  rwa [hposition _ hi, hposition _ hj]

theorem nodup_ones (ht : t.IsProper) (hl : (bs.length : Int) = t.size) : (ones t bs).Nodup :=
  (pairwise_ones ht hl).imp fun hlt heq => absurd (congrArg t.position heq) hlt.ne

theorem count_ones (ht : t.IsProper) (hl : (bs.length : Int) = t.size) (hc : t.Within c) :
    ∃ b, bs[(t.position c).toNat]? = some b ∧ ((ones t bs).count c : Int) = Item.degree b := by
  have hlt : (t.position c).toNat < bs.length := by
    have := hc.holds_position
    unfold Shape.Holds at this
    omega
  refine ⟨_, List.getElem?_eq_getElem hlt, ?_⟩
  cases hb : bs[(t.position c).toNat] with
  | true =>
      have hmem : c ∈ ones t bs :=
        (mem_ones ht hl).mpr ⟨hc, by rw [List.getElem?_eq_getElem hlt, hb]⟩
      rw [List.count_eq_one_of_mem (nodup_ones ht hl) hmem]
      rfl
  | false =>
      have hmem : c ∉ ones t bs := fun hmem => by
        have hone := ((mem_ones ht hl).mp hmem).2
        rw [List.getElem?_eq_getElem hlt, hb] at hone
        cases hone
      rw [List.count_eq_zero_of_not_mem hmem]
      rfl

/-- Coordinates without repetitions are counted by a mask, whose ones they are. -/
theorem exists_mask (hs : s.IsProper) (h : ∀ p ∈ ps, s.Within p) (hn : ps.Nodup) :
    ∃ bs : List Bool, (bs.length : Int) = s.size ∧ counts s ps = bs.map Item.degree ∧
      (ones s bs).Perm ps := by
  have hlen : (((upTo s.size).map fun i => decide (s.coordinates i ∈ ps)).length : Int) =
      s.size := by
    have := Shape.size_nonneg hs
    simp
    omega
  refine ⟨_, hlen, ?_, (List.perm_ext_iff_of_nodup (nodup_ones hs hlen) hn).mpr fun c => ?_⟩
  · rw [counts_eq hs h, List.map_map]
    refine List.map_congr_left fun i _ => ?_
    simp only [Function.comp, hn.count, Item.degree, decide_eq_true_eq]
    split <;> rfl
  · rw [mem_ones hs hlen]
    have hget (hc : s.Within c) :
        ((upTo s.size).map fun i => decide (s.coordinates i ∈ ps))[(s.position c).toNat]? =
          some (decide (c ∈ ps)) := by
      rw [getElem?_map_upTo _ hc.holds_position, Shape.coordinates_position hc]
    constructor
    · rintro ⟨hc, hone⟩
      rw [hget hc] at hone
      simpa using hone
    · intro hc
      exact ⟨h c hc, by rw [hget (h c hc), decide_eq_true hc]⟩

end Where
end LazyApl
