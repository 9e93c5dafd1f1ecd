import LazyApl.Proofs.NestedViews
/-!
# Axes put in an order

A transpose is told for each axis which axis of the result it goes to. If it is told the place of
each axis in a list of all axes, the result has the axes in the order of the list: its extents are
the extents along the list, and the cell at some coordinates lies as far from the first cell as the
strides along the list say.
-/
namespace LazyApl

open Outcome Link

theorem foldl_max_le {xs : List Int} {m b : Int} (hm : m ≤ b) (h : ∀ x ∈ xs, x ≤ b) :
    xs.foldl max m ≤ b := by
  induction xs generalizing m with
  | nil => exact hm
  | cons x xs ih =>
      obtain ⟨hx, hxs⟩ := List.forall_mem_cons.mp h
      exact ih (max_le hm hx) hxs

theorem eraseDups_of_nodup {α : Type} [BEq α] [LawfulBEq α] {xs : List α} (h : xs.Nodup) :
    xs.eraseDups = xs := by
  induction xs with
  | nil => rfl
  | cons x xs ih =>
      obtain ⟨hx, hxs⟩ := List.nodup_cons.mp h
      have hf : xs.filter (fun y => !y == x) = xs := by
        refine List.filter_eq_self.mpr fun y hy => ?_
        have hne : y ≠ x := ne_of_mem_of_not_mem hy hx
        simp [hne]
      rw [List.eraseDups_cons, hf, ih hxs]

namespace Shape

theorem dot_append {c d f h : List Int} (hl : c.length = f.length) :
    dot (c ++ d) (f ++ h) = dot c f + dot d h := by
  induction c generalizing f with
  | nil =>
      obtain rfl := List.length_eq_zero_iff.mp hl.symm
      simp [dot]
  | cons x c ih =>
      cases f with
      | nil => cases hl
      | cons y f =>
          have hr := ih (f := f) (Nat.succ.inj hl)
          simp only [List.cons_append, dot, hr]
          ring

theorem dot_map_map (xs : List Int) (p q : Int → Int) :
    dot (xs.map p) (xs.map q) = (xs.map fun x => p x * q x).sum := by
  induction xs with
  | nil => rfl
  | cons x xs ih => simp only [List.map_cons, dot, ih, List.sum_cons]

theorem size_pos {s : Shape} (h : ∀ n ∈ s, 0 < n) : 0 < s.size := by
  induction s with
  | nil => exact Int.one_pos
  | cons n s ih =>
      obtain ⟨hn, hs⟩ := List.forall_mem_cons.mp h
      exact Int.mul_pos hn (ih hs)

end Shape

namespace Transpose

/-- Where each axis stands in a list of all axes. -/
def places (order : List Int) : List Int := (upTo order.length).map fun a => (order.idxOf a : Int)

variable {order ts : List Int} {t : Shape} {m : Nat}

@[simp] theorem length_places (order : List Int) : (places order).length = order.length := by
  simp [places]

theorem places_eq (h : order.Perm (upTo t.length)) :
    places order = (upTo t.length).map fun a => (order.idxOf a : Int) := by
  have hl : order.length = t.length := by simpa using h.length_eq
  rw [places, hl]

theorem map_idxOf (h : order.Nodup) :
    order.map (fun a => (order.idxOf a : Int)) = upTo order.length := by
  refine List.ext_getElem (by simp) fun k hk hk' => ?_
  simp [upTo, h.idxOf_getElem]

theorem perm_places (h : order.Perm (upTo t.length)) : (places order).Perm (upTo t.length) := by
  have hl : order.length = t.length := by simpa using h.length_eq
  have hn : order.Nodup := h.nodup_iff.mpr (nodup_upTo _)
  have hm := h.map fun a => (order.idxOf a : Int)
  rw [map_idxOf hn, hl] at hm
  rw [places_eq h]
  exact hm.symm

theorem mem_places (h : order.Perm (upTo t.length)) {b : Int} :
    b ∈ places order ↔ 0 ≤ b ∧ b < t.length := by
  rw [(perm_places h).mem_iff, mem_upTo]

theorem eraseDups_places (h : order.Perm (upTo t.length)) :
    (places order).eraseDups = places order :=
  eraseDups_of_nodup ((perm_places h).nodup_iff.mpr (nodup_upTo _))

/-- A list names the axes below a number and nothing else. -/
def Covers (ts : List Int) (m : Nat) : Prop := ∀ b, b ∈ ts ↔ 0 ≤ b ∧ b < m

theorem covers_iff : covers ts = true ↔ ∃ m, Covers ts m := by
  simp only [covers, Bool.and_eq_true, List.all_eq_true, List.contains_iff_mem, decide_eq_true_eq]
  constructor
  · rintro ⟨hall, h0⟩
    refine ⟨(ts.foldl max (-1) + 1).toNat, fun b => ⟨fun hb => ?_, fun hb => hall b ?_⟩⟩
    · have hb0 := h0 b hb
      have hle : b ≤ ts.foldl max (-1) := le_foldl_max (.inr hb)
      omega
    · rw [mem_upTo]
      omega
  · rintro ⟨m, h⟩
    have htop : ts.foldl max (-1) ≤ (m : Int) - 1 := by
      refine foldl_max_le (by omega) fun b hb => ?_
      have := (h b).mp hb
      omega
    refine ⟨fun b hb => (h b).mpr ?_, fun b hb => ((h b).mp hb).1⟩
    rw [mem_upTo] at hb
    omega

theorem targets_listed (hl : ts.length = t.length) (h : Covers ts m) :
    targets (some (ts.map .int)) (.ofShape t) = .ok ts := by
  have hcovers : covers ts = true := covers_iff.mpr ⟨m, h⟩
  have hlen : ¬ (ts.map Number.int).length ≠ (Extents.ofShape t).length := by simp [hl]
  rw [targets, if_neg hlen, Number.mapM_index]
  exact if_pos hcovers

theorem targets_places (h : order.Perm (upTo t.length)) :
    targets (some ((places order).map .int)) (.ofShape t) = .ok (places order) := by
  have hl : order.length = t.length := by simpa using h.length_eq
  exact targets_listed ((length_places order).trans hl) fun _ => mem_places h

theorem isLeast_leastExtent {ts : List Int} {s : Shape} {b m : Int} (hm : (b, m) ∈ ts.zip s) :
    IsLeast {n | (b, n) ∈ ts.zip s} (leastExtent ts s b) := by
  have hmem (n : Int) : n ∈ goingTo ts s b ↔ (b, n) ∈ ts.zip s := mem_goingTo
  unfold leastExtent
  cases hx : goingTo ts s b with
  | nil =>
      have hin := (hmem m).mpr hm
      rw [hx] at hin
      cases hin
  | cons n ns =>
      rw [hx] at hmem
      obtain ⟨hleast, hle⟩ := foldl_min_spec ns n
      exact ⟨(hmem _).mp (List.mem_cons.mpr hleast),
        fun x hx => hle x (List.mem_cons.mp ((hmem x).mpr hx))⟩

theorem leastExtent_eq {ts : List Int} {s : Shape} {b m : Int} (hm : (b, m) ∈ ts.zip s)
    (h : ∀ n, (b, n) ∈ ts.zip s → n = m) : leastExtent ts s b = m :=
  h _ (isLeast_leastExtent hm).1

/-- The extents of a transpose that puts the axes in an order. -/
theorem turnedShape_places (h : order.Perm (upTo t.length)) :
    turnedShape (places order) t = Shape.along t order := by
  have hl : order.length = t.length := by simpa using h.length_eq
  have hn : order.Nodup := h.nodup_iff.mpr (nodup_upTo _)
  have hzip : (places order).zip t =
      (upTo t.length).map fun a => ((order.idxOf a : Int), t.getD a.toNat 0) := by
    have ht : t = (upTo t.length).map fun a => t.getD a.toNat 0 := (Shape.along_upTo rfl).symm
    conv_lhs => rw [places_eq h, ht]
    rw [List.length_map, length_upTo, Int.toNat_natCast]
    exact List.zip_map'
  rw [turnedShape, eraseDups_places h, length_places, ← map_idxOf hn, List.map_map, Shape.along]
  refine List.map_congr_left fun a ha => leastExtent_eq ?_ fun n hb => ?_
  · rw [hzip]
    exact List.mem_map.mpr ⟨a, h.mem_iff.mp ha, rfl⟩
  · rw [hzip] at hb
    obtain ⟨a', _, heq⟩ := List.mem_map.mp hb
    obtain ⟨hi, rfl⟩ := Prod.mk.inj heq
    rw [(List.idxOf_inj ha).mp (Int.ofNat.inj hi).symm]

theorem dot_places (h : order.Perm (upTo t.length)) {c : List Int} (hc : c.length = t.length) :
    Shape.dot ((places order).map fun b => c.getD b.toNat 0) t.strides =
      Shape.dot c (Shape.along t.strides order) := by
  have hl : order.length = t.length := by simpa using h.length_eq
  have hn : order.Nodup := h.nodup_iff.mpr (nodup_upTo _)
  have hstrides : t.strides = (upTo t.length).map fun a => t.strides.getD a.toNat 0 :=
    (Shape.along_upTo (Shape.length_strides t)).symm
  have hcoords : c = order.map fun a => c.getD (order.idxOf a) 0 := by
    have hget := Shape.along_upTo hc
    rw [← hl, ← map_idxOf hn, Shape.along, List.map_map] at hget
    exact hget.symm
  calc Shape.dot ((places order).map fun b => c.getD b.toNat 0) t.strides
      = ((upTo t.length).map fun a =>
          c.getD (order.idxOf a) 0 * t.strides.getD a.toNat 0).sum := by
        conv_lhs => rw [places_eq h, hstrides, List.map_map]
        exact Shape.dot_map_map _ _ _
    _ = (order.map fun a => c.getD (order.idxOf a) 0 * t.strides.getD a.toNat 0).sum :=
        ((h.map _).sum_eq).symm
    _ = Shape.dot c (Shape.along t.strides order) := by
        conv_rhs => rw [hcoords]
        exact (Shape.dot_map_map _ _ _).symm

theorem maps_places (ht : t.IsProper) (h : order.Perm (upTo t.length)) :
    ∃ l, link (places order) (.ofShape t) = .ok l ∧
      l.Maps (Shape.along t order) t fun i => some (Enclose.offset t order i) := by
  have hl : order.length = t.length := by simpa using h.length_eq
  have hbounds : ∀ a ∈ places order, 0 ≤ a ∧ a < (places order).eraseDups.length := by
    rw [eraseDups_places h, length_places, hl]
    exact fun a ha => (mem_places h).mp ha
  obtain ⟨l, hlink, hmaps⟩ := maps_link ht (by simpa using hl) hbounds
  rw [turnedShape_places h] at hmaps
  refine ⟨l, hlink, ?_⟩
  have heq (i : Int) := dot_places h (c := Shape.coordinates (Shape.along t order) i)
    (by simpa [Shape.along] using hl)
  simp only [heq] at hmaps
  exact hmaps

end Transpose
end LazyApl
