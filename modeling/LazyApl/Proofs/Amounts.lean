import LazyApl.Primitive.Order
import LazyApl.Primitive.Radix
import LazyApl.Primitive.Where
import LazyApl.Proofs.Buffers
import LazyApl.Proofs.Contents
import LazyApl.Proofs.Packing
import LazyApl.Proofs.Rooms
import LazyApl.Proofs.Sorting
/-!
# The amount computed

An array that is made as a whole has a shape of its own, which does not look at the content. Still
the content has as many items as the shape has cells: for a search it goes by the items that are
looked for, for a grade by the first axis, for digits by the radices and the values, for positions
by what is found in the operand.
-/
namespace LazyApl

open Outcome

/-- A shape promises so many items: the product of its extents, which are whole numbers, and none if
that is negative. -/
def Extents.Promises (e : Extents) (n : Nat) : Prop := ∃ t, e = .ofShape t ∧ n = t.size.toNat

theorem Extents.Promises.eq_size {e : Extents} {n : Nat} (h : e.Promises n) {t : Shape}
    (he : e = .ofShape t) (ht : t.IsProper) : (n : Int) = t.size := by
  obtain ⟨u, hu, hn⟩ := h
  obtain rfl := Extents.ofShape_inj (hu.symm.trans he)
  rw [hn, Int.toNat_of_nonneg (Shape.size_nonneg ht)]

namespace Item

variable {x y left right base : Item} {ct : Tolerance} {origin : Origin} {e : Extents}
  {xs : List Item}

theorem promises_items {v : View Item} (he : v.shape = .ok e) (h : (view v).items = .ok xs) :
    e.Promises xs.length := by
  obtain ⟨gen, _, hcells⟩ := bind_eq_ok.mp h
  obtain ⟨s, hs, hcells⟩ := bind_eq_ok.mp hcells
  obtain ⟨m, hm, _⟩ := bind_eq_ok.mp hcells
  obtain rfl : s = e := Except.ok.inj (hs.symm.trans he)
  obtain ⟨t, rfl, _⟩ := Extents.count_eq_ok hm
  exact ⟨t, rfl, length_items he h⟩

theorem items_of_members {role : String} (h : x.members role = .ok xs) : x.items = .ok xs := by
  obtain ⟨n, _, h⟩ := bind_eq_ok.mp h
  split at h
  · cases h
  · exact h

theorem length_mapM {α β : Type} {f : α → Except Fault β} {as : List α} {bs : List β}
    (h : as.mapM f = .ok bs) : bs.length = as.length :=
  (mapM_eq_ok.mp h).length_eq.symm

theorem shape_of_flatShape {a b result : View Item} {refusal : RankCause}
    (h : (flatShape a b result refusal).get = .ok e) : result.shape = .ok e := by
  obtain ⟨m, _, h⟩ := bind_eq_ok.mp h
  split at h
  · cases h
  obtain ⟨n, _, h⟩ := bind_eq_ok.mp h
  split at h
  · cases h
  · exact h

theorem length_permutation {cells : List (Int × List Item)} {isDown : Bool} {order : List Int}
    (h : Grade.permutation cells isDown = .ok order) : order.length = cells.length := by
  unfold Grade.permutation at h
  split at h
  · cases h
    rw [List.length_map, List.length_mergeSort]
  · obtain ⟨sorted, hsorted, h⟩ := bind_eq_ok.mp h
    cases h
    rw [List.length_map, (Sorting.sort_perm hsorted).length_eq]

variable [Platform]

theorem membership_amount (hs : (left.membership right ct).shape = .ok e)
    (h : (left.membership right ct).HasContent xs) : e.Promises xs.length := by
  replace h := View.hasContent_whole.mp h
  obtain ⟨bs, _, h⟩ := bind_eq_ok.mp h
  obtain ⟨as, has, h⟩ := bind_eq_ok.mp h
  rw [length_mapM h]
  exact promises_items (shape_of_flatShape hs) (items_of_members has)

theorem length_occurrences {pattern ts : List Item} (h : occurrences ct pattern ts = .ok xs) :
    xs.length = ts.length := by
  induction ts generalizing xs with
  | nil =>
      cases h
      rfl
  | cons t ts ih =>
      unfold occurrences at h
      have hrest : ∀ here, (occurrences ct pattern ts >>= fun rest =>
          Except.ok (ofBool here :: rest)) = .ok xs → xs.length = (t :: ts).length := by
        intro here hhere
        obtain ⟨rest, hrest, hhere⟩ := bind_eq_ok.mp hhere
        obtain rfl := Except.ok.inj hhere
        rw [List.length_cons, List.length_cons, ih hrest]
      dsimp only at h
      split at h
      · exact hrest _ h
      · obtain ⟨here, _, h⟩ := bind_eq_ok.mp h
        exact hrest here h

theorem occurrencesOf_amount (hs : (left.occurrencesOf right ct).shape = .ok e)
    (h : (left.occurrencesOf right ct).HasContent xs) : e.Promises xs.length := by
  replace h := View.hasContent_whole.mp h
  obtain ⟨pattern, _, h⟩ := bind_eq_ok.mp h
  obtain ⟨ts, hts, h⟩ := bind_eq_ok.mp h
  rw [length_occurrences h]
  exact promises_items (shape_of_flatShape hs) (items_of_members hts)

theorem indexOf_amount (hs : (left.indexOf right origin ct).shape = .ok e)
    (h : (left.indexOf right origin ct).HasContent xs) : e.Promises xs.length := by
  replace h := View.hasContent_whole.mp h
  obtain ⟨values, _, h⟩ := bind_eq_ok.mp h
  obtain ⟨probes, hprobes, h⟩ := bind_eq_ok.mp h
  rw [length_mapM h]
  obtain ⟨n, _, hs⟩ := bind_eq_ok.mp hs
  split at hs
  · cases hs
  · exact promises_items hs hprobes

theorem grade_amount {key : Option Item} {isDown : Bool}
    (hs : (base.grade key isDown origin).shape = .ok e)
    (h : (base.grade key isDown origin).HasContent xs) : e.Promises xs.length := by
  obtain ⟨extent, hextent, h⟩ := bind_eq_ok.mp (View.hasContent_whole.mp h)
  obtain ⟨cells, _, h⟩ := bind_eq_ok.mp h
  obtain ⟨n, hn, h⟩ := bind_eq_ok.mp h
  obtain ⟨order, horder, hplaces⟩ := bind_eq_ok.mp h
  obtain ⟨extent', hextent', hs⟩ := bind_eq_ok.mp hs
  obtain rfl : extent = extent' := Except.ok.inj (hextent.symm.trans hextent')
  refine ⟨[n], ?_, ?_⟩
  · rw [← Except.ok.inj hs, Number.index_eq_ok.mp hn]
    rfl
  · rw [length_mapM hplaces, length_permutation horder, Grade.pieces, List.length_map,
      List.length_range]
    simp

theorem whereOnes_amount (hB : Platform.bitLists.IsLawful)
    (hs : (base.whereOnes origin).shape = .ok e) (h : (base.whereOnes origin).HasContent xs) :
    e.Promises xs.length := by
  replace h := View.hasContent_whole.mp h
  obtain ⟨b, hb, h⟩ := bind_eq_ok.mp h
  obtain ⟨ones, hones, h⟩ := bind_eq_ok.mp h
  obtain ⟨b', hb', hs⟩ := bind_eq_ok.mp hs
  obtain rfl : b = b' := Except.ok.inj (hb.symm.trans hb')
  obtain rfl := Except.ok.inj hs
  obtain ⟨s, _, h⟩ := bind_eq_ok.mp h
  refine ⟨[(Platform.bitLists.count b : Int)], rfl, ?_⟩
  have hl : xs.length = ones.length := by
    split at h
    · exact length_mapM h
    · obtain ⟨t, _, h⟩ := bind_eq_ok.mp h
      obtain ⟨cells, _, h⟩ := bind_eq_ok.mp h
      exact length_mapM h
  obtain rfl := Except.ok.inj (hones.symm.trans (onesIn_eq hB b))
  rw [hl, length_onesFrom, hB.count b]
  simp [Shape.size]

theorem inverseWhere_amount (hs : (base.inverseWhere origin).shape = .ok e)
    (h : (base.inverseWhere origin).HasContent xs) : e.Promises xs.length := by
  replace h := View.hasContent_whole.mp h
  obtain ⟨e', he', h⟩ := bind_eq_ok.mp h
  obtain rfl : e' = e := Except.ok.inj (he'.symm.trans hs)
  obtain ⟨t, ht, h⟩ := bind_eq_ok.mp h
  obtain ⟨size, hsize, h⟩ := bind_eq_ok.mp h
  obtain ⟨positions, _, h⟩ := bind_eq_ok.mp h
  obtain ⟨wholes, _, h⟩ := bind_eq_ok.mp h
  obtain ⟨counts, hcounts, h⟩ := bind_eq_ok.mp h
  obtain rfl := Except.ok.inj h
  refine ⟨t, Extents.eq_ofShape_of_shape ht, ?_⟩
  have hkept : counts.size = (Array.replicate size (0 : Int)).size :=
    size_foldlM (fun xs p ys => size_changeAt) hcounts
  rw [List.length_map, Array.length_toList, hkept, Array.size_replicate]
  exact Room.times_spec hsize

theorem encode_amount (hs : (left.encode right).shape = .ok e)
    (h : (left.encode right).HasContent xs) : e.Promises xs.length := by
  obtain ⟨rs, _, h⟩ := bind_eq_ok.mp (View.hasContent_whole.mp h)
  obtain ⟨bad, _, h⟩ := bind_eq_ok.mp h
  split at h
  · cases h
  obtain ⟨vs, hvs, h⟩ := bind_eq_ok.mp h
  obtain ⟨a, ha, h⟩ := bind_eq_ok.mp h
  obtain ⟨s, hs', h⟩ := bind_eq_ok.mp h
  obtain ⟨b, hb, h⟩ := bind_eq_ok.mp h
  obtain ⟨t, ht, h⟩ := bind_eq_ok.mp h
  obtain ⟨size, hsize, hcells⟩ := bind_eq_ok.mp h
  obtain ⟨a', ha', hs⟩ := bind_eq_ok.mp hs
  obtain ⟨b', hb', hs⟩ := bind_eq_ok.mp hs
  obtain rfl : a = a' := Except.ok.inj (ha.symm.trans ha')
  obtain rfl : b = b' := Except.ok.inj (hb.symm.trans hb')
  have hv : vs.length = t.size.toNat := by
    obtain ⟨ys, hys, hvs⟩ := bind_eq_ok.mp hvs
    rw [length_mapM hvs, length_items (hb.trans (congrArg _ (Extents.eq_ofShape_of_shape ht))) hys]
  refine ⟨s ++ t, ?_, ?_⟩
  · rw [← Except.ok.inj hs, Extents.eq_ofShape_of_shape hs', Extents.eq_ofShape_of_shape ht]
    exact (List.map_append ..).symm
  obtain ⟨cells, hcells, hxs⟩ := bind_eq_ok.mp hcells
  rw [← Except.ok.inj hxs, Array.length_toList, Radix.size_fillCells hcells, Array.size_replicate]
  exact Room.times_spec hsize

end Item
end LazyApl
