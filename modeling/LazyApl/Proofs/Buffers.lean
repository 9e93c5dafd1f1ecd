import LazyApl.Primitive.Radix
import LazyApl.Proofs.Outcome
import Mathlib.Algebra.BigOperators.Group.List.Basic
import Mathlib.Tactic.Ring
/-!
# Arrays that are filled place by place

Digits and counts go to the places of an array that has all of them, one after another. Writes that
agree with a list, and that reach each place where the array does not agree with it, make the array
this list. So digits that are written column by column lie digit by digit. Counts go up by the
number of times that their places are named.
-/
namespace LazyApl

open Outcome

section

variable {α β γ : Type}

theorem changeAt_toArray {xs : List α} {k : Nat} (h : k < xs.length) (f : α → α) :
    changeAt xs.toArray k f = .ok (xs.modify k f).toArray := by
  have hplace : placeIn xs.length k = some k := if_neg (not_lt.mpr (Int.natCast_nonneg k))
  simp [changeAt, hplace, h, List.modify_eq_set_getElem?]

theorem size_changeAt {xs ys : Array α} {i : Int} {f : α → α} (h : changeAt xs i f = .ok ys) :
    ys.size = xs.size := by
  unfold changeAt at h
  split at h
  · cases h
  · split at h
    · cases h
      simp
    · cases h

theorem size_foldlM {step : Array α → β → Except Fault (Array α)}
    (hstep : ∀ xs b ys, step xs b = .ok ys → ys.size = xs.size) {bs : List β} {xs ys : Array α}
    (h : bs.foldlM step xs = .ok ys) : ys.size = xs.size := by
  induction bs generalizing xs with
  | nil =>
      cases h
      rfl
  | cons b bs ih =>
      obtain ⟨zs, hzs, h⟩ := bind_eq_ok.mp h
      exact (ih h).trans (hstep xs b zs hzs)

theorem foldlM_congr {f g : β → α → Except Fault β} {xs : List α}
    (h : ∀ x ∈ xs, ∀ b, f b x = g b x) (b : β) : xs.foldlM f b = xs.foldlM g b := by
  induction xs generalizing b with
  | nil => rfl
  | cons x xs ih =>
      obtain ⟨hx, hxs⟩ := List.forall_mem_cons.mp h
      rw [List.foldlM_cons, List.foldlM_cons, hx]
      exact congrArg (g b x >>= ·) (funext (ih hxs))

theorem foldlM_flatMap {f : β → α → Except Fault β} {g : γ → List α} (cs : List γ) (b : β) :
    (cs.flatMap g).foldlM f b = cs.foldlM (fun b c => (g c).foldlM f b) b := by
  induction cs generalizing b with
  | nil => rfl
  | cons c cs ih =>
      rw [List.flatMap_cons, List.foldlM_append, List.foldlM_cons]
      exact congrArg ((g c).foldlM f b >>= ·) (funext ih)

/-- An array with values put at their positions, one after another. -/
def written (cells : Array α) (writes : List (Nat × α)) : Except Fault (Array α) :=
  writes.foldlM (fun cells w => putAt cells w.1 w.2) cells

/-- Writes make an array of values a list that they agree with, if they reach each place where the
array does not agree with it. -/
theorem written_toArray_eq {xs ts : List α} {writes : List (Nat × α)} (hl : xs.length = ts.length)
    (hw : ∀ w ∈ writes, ts[w.1]? = some w.2)
    (hc : ∀ i : Nat, xs[i]? = ts[i]? ∨ ∃ x, (i, x) ∈ writes) :
    written xs.toArray writes = .ok ts.toArray := by
  induction writes generalizing xs with
  | nil =>
      obtain rfl : xs = ts := List.ext_getElem? fun i => (hc i).resolve_right (by simp)
      rfl
  | cons w writes ih =>
      obtain ⟨i, x⟩ := w
      obtain ⟨hwrite, hw⟩ := List.forall_mem_cons.mp hw
      have hi : i < xs.length := hl ▸ (List.getElem?_eq_some_iff.mp hwrite).1
      have hput : putAt xs.toArray i x = .ok (xs.set i x).toArray := by
        rw [putAt, changeAt_toArray hi, List.modify_eq_set_getElem?]
        simp [hi]
      rw [written, List.foldlM_cons, hput]
      refine ih (by rwa [List.length_set]) hw fun j => ?_
      by_cases hij : i = j
      · subst hij
        exact .inl (by rw [List.getElem?_set_self hi, hwrite])
      · rw [List.getElem?_set_ne hij]
        refine (hc j).imp_right fun ⟨y, hy⟩ => ⟨y, ?_⟩
        rcases List.mem_cons.mp hy with heq | hy
        · exact absurd (congrArg Prod.fst heq).symm hij
        · exact hy

/-- Each value goes up by the number of times that its position is named. -/
theorem foldlM_increments {xs : List Int} {is : List Int} (h : ∀ i ∈ is, 0 ≤ i ∧ i < xs.length) :
    is.foldlM (fun cells i => changeAt cells i (· + 1)) xs.toArray =
      .ok (xs.mapIdx fun k n => n + (is.count (k : Int) : Int)).toArray := by
  induction is generalizing xs with
  | nil =>
      have hsame : (xs.mapIdx fun k n => n + (([] : List Int).count (k : Int) : Int)) = xs := by
        simp [List.mapIdx_eq_zipIdx_map]
      rw [hsame]
      rfl
  | cons i is ih =>
      obtain ⟨hi, his⟩ := List.forall_mem_cons.mp h
      lift i to ℕ using hi.1
      have hi : i < xs.length := by omega
      rw [List.foldlM_cons, changeAt_toArray hi]
      refine (ih (by simpa using his)).trans ?_
      refine congrArg (fun zs : List Int => Except.ok zs.toArray) (List.ext_getElem? fun k => ?_)
      simp only [List.getElem?_mapIdx, List.getElem?_modify, List.count_cons]
      cases xs[k]? with
      | none => simp
      | some n =>
          by_cases hik : i = k
          · simp [hik]
            omega
          · simp [hik]

theorem place_lt {k m l n : Nat} (hk : k < m) (hl : l < n) : k * n + l < m * n :=
  calc k * n + l < k * n + n := Nat.add_lt_add_left hl _
    _ = (k + 1) * n := (Nat.succ_mul k n).symm
    _ ≤ m * n := Nat.mul_le_mul_right n hk

theorem exists_place {i m n : Nat} (h : i < m * n) : ∃ k l, k < m ∧ l < n ∧ i = k * n + l := by
  have hn : 0 < n := Nat.pos_of_ne_zero fun h0 => by simp [h0] at h
  exact ⟨i / n, i % n, Nat.div_lt_of_lt_mul (by rwa [Nat.mul_comm]), Nat.mod_lt i hn,
    (Nat.div_add_mod' i n).symm⟩

/-- A member of lists of one length put together, by the list and its place in it. -/
theorem getElem?_flatMap_of_length {f : α → List β} {n : Nat} {xs : List α}
    (h : ∀ x ∈ xs, (f x).length = n) (k : Nat) {j : Nat} (hj : j < n) :
    (xs.flatMap f)[k * n + j]? = xs[k]?.bind fun x => (f x)[j]? := by
  induction xs generalizing k with
  | nil => simp
  | cons x xs ih =>
      obtain ⟨hx, hxs⟩ := List.forall_mem_cons.mp h
      rw [List.flatMap_cons]
      cases k with
      | zero => simp [List.getElem?_append_left (hx.symm ▸ hj)]
      | succ k =>
          rw [List.getElem?_append_right (by rw [hx, Nat.succ_mul]; omega), hx,
            show (k + 1) * n + j - n = k * n + j by rw [Nat.succ_mul]; omega, ih hxs]
          simp

end

namespace Radix

variable {rows columns c k j n width : Nat} {radices values ds : List Item} {cells : Array Item}
  {digits : List (List Item)} {tables : List (List (List Item))}

/-- What is written for a column of radices. -/
def columnWrites (rows columns c : Nat) (digits : List (List Item)) : List (Nat × Item) :=
  (List.range rows).flatMap fun k => digits.zipIdx.map fun p =>
    ((k * columns + c) * digits.length + p.2, p.1.getD k (.int 0))

theorem mem_columnWrites {w : Nat × Item} : w ∈ columnWrites rows columns c digits ↔
    ∃ k j ds, k < rows ∧ digits[j]? = some ds ∧
      w = ((k * columns + c) * digits.length + j, ds.getD k (.int 0)) := by
  simp only [columnWrites, List.mem_flatMap, List.mem_range, List.mem_map]
  constructor
  · rintro ⟨k, hk, ⟨ds, j⟩, hj, rfl⟩
    exact ⟨k, j, ds, hk, List.mem_zipIdx_iff_getElem?.mp hj, rfl⟩
  · rintro ⟨k, j, ds, hk, hj, rfl⟩
    exact ⟨k, hk, (ds, j), List.mem_zipIdx_iff_getElem?.mpr hj, rfl⟩

theorem fillColumn_eq (h : ∀ ds ∈ digits, ds.length = rows) :
    fillColumn rows columns c digits cells =
      written cells (columnWrites rows columns c digits) := by
  rw [written, columnWrites, foldlM_flatMap]
  refine foldlM_congr (fun k hk cells => ?_) cells
  rw [List.foldlM_map]
  refine foldlM_congr (fun p hp cells => ?_) cells
  have hlt : k < p.1.length :=
    (h p.1 (List.fst_mem_of_mem_zipIdx hp)).symm ▸ List.mem_range.mp hk
  have hpick : pickAt p.1 (k : Int) = .ok (p.1.getD k (.int 0)) := by
    simp [pickAt_ok (Int.natCast_nonneg k), hlt]
  simp only [hpick, bind, Except.bind]

/-- The digits of values in columns of radices, digit by digit. -/
def laidOut (rows : Nat) (tables : List (List (List Item))) : List Item :=
  (List.range rows).flatMap fun k => tables.flatMap fun digits =>
    digits.map fun ds => ds.getD k (.int 0)

theorem length_row (h : ∀ digits ∈ tables, digits.length = width) (f : List Item → Item) :
    (tables.flatMap fun digits => digits.map f).length = tables.length * width := by
  simp only [List.length_flatMap, List.length_map]
  rw [List.map_congr_left h, List.map_const', List.sum_replicate, Nat.nsmul_eq_mul]

theorem length_laidOut (h : ∀ digits ∈ tables, digits.length = width) :
    (laidOut rows tables).length = rows * (tables.length * width) := by
  have hrow : ∀ k ∈ List.range rows, (tables.flatMap fun digits =>
      digits.map fun ds => ds.getD k (.int 0)).length = tables.length * width :=
    fun k _ => length_row h _
  rw [laidOut, List.length_flatMap, List.map_congr_left hrow, List.map_const', List.sum_replicate,
    List.length_range, Nat.nsmul_eq_mul]

theorem getElem?_laidOut (h : ∀ digits ∈ tables, digits.length = width) (hk : k < rows)
    (hc : tables[c]? = some digits) (hj : digits[j]? = some ds) :
    (laidOut rows tables)[(k * tables.length + c) * width + j]? = some (ds.getD k (.int 0)) := by
  have hjlt : j < width :=
    h digits (List.mem_of_getElem? hc) ▸ (List.getElem?_eq_some_iff.mp hj).1
  have hclt := (List.getElem?_eq_some_iff.mp hc).1
  have hplace : (k * tables.length + c) * width + j =
      k * (tables.length * width) + (c * width + j) := by ring
  rw [laidOut, hplace,
    getElem?_flatMap_of_length (fun k _ => length_row h _) k (place_lt hclt hjlt),
    List.getElem?_range hk, Option.bind_some,
    getElem?_flatMap_of_length (fun digits hd => (List.length_map _).trans (h digits hd)) c hjlt,
    hc, Option.bind_some, List.getElem?_map, hj, Option.map_some]

variable [Platform]

theorem foldlM_columns {cs : List Nat}
    (htables : (cs.mapM fun c => values.mapM fun v => encode (everyNth radices c columns) v) =
      .ok tables) (hds : ∀ digits ∈ tables, ∀ ds ∈ digits, ds.length = rows) (cells : Array Item) :
    cs.foldlM (fun cells c => do
        let digits ← values.mapM fun v => encode (everyNth radices c columns) v
        fillColumn rows columns c digits cells) cells =
      written cells ((cs.zip tables).flatMap fun p => columnWrites rows columns p.1 p.2) := by
  have hmade := mapM_eq_ok.mp htables
  clear htables
  induction hmade generalizing cells with
  | nil => rfl
  | cons hdigits _ ih =>
      obtain ⟨hd, hds⟩ := List.forall_mem_cons.mp hds
      rw [List.foldlM_cons, hdigits, List.zip_cons_cons, List.flatMap_cons, written,
        List.foldlM_append]
      refine Eq.trans ?_ (congrArg (written cells _ >>= ·) (funext (ih hds)))
      rw [← fillColumn_eq hd]
      rfl

/-- Digits that there are, written column by column, lie digit by digit. -/
theorem fillCells_eq (htables : ((List.range columns).mapM fun c =>
      values.mapM fun v => encode (everyNth radices c columns) v) = .ok tables)
    (hds : ∀ digits ∈ tables, ∀ ds ∈ digits, ds.length = rows)
    (hn : n = rows * (columns * values.length)) (x : Item) :
    fillCells rows columns radices values (Array.replicate n x) =
      .ok (laidOut rows tables).toArray := by
  have hlen : tables.length = columns := by
    rw [← (mapM_eq_ok.mp htables).length_eq, List.length_range]
  have hwidth : ∀ digits ∈ tables, digits.length = values.length := by
    intro digits hd
    obtain ⟨c, _, hc⟩ := mem_of_mapM htables hd
    exact (mapM_eq_ok.mp hc).length_eq.symm
  rw [fillCells, foldlM_columns htables hds, ← List.toArray_replicate]
  refine written_toArray_eq (by rw [List.length_replicate, length_laidOut hwidth, hlen, hn])
    (fun w hw => ?_) fun i => ?_
  · obtain ⟨⟨c, digits⟩, hc, hw⟩ := List.mem_flatMap.mp hw
    obtain ⟨k, j, ds, hk, hj, rfl⟩ := mem_columnWrites.mp hw
    obtain ⟨m, hm⟩ := List.mem_iff_getElem?.mp hc
    obtain ⟨hmc, hdigits⟩ := List.getElem?_zip_eq_some.mp hm
    obtain rfl : m = c := by
      obtain ⟨hlt, hmc⟩ := List.getElem?_eq_some_iff.mp hmc
      rwa [List.getElem_range] at hmc
    rw [hwidth digits (List.mem_of_getElem? hdigits), ← hlen]
    exact getElem?_laidOut hwidth hk hdigits hj
  · by_cases hi : i < rows * (columns * values.length)
    case neg =>
      refine .inl ?_
      rw [List.getElem?_eq_none (by rw [List.length_replicate]; omega),
        List.getElem?_eq_none (by rw [length_laidOut hwidth, hlen]; omega)]
    obtain ⟨k, r, hk, hr, rfl⟩ := exists_place hi
    obtain ⟨c, j, hc, hj, rfl⟩ := exists_place hr
    have hdigits : tables[c]? = some tables[c] := List.getElem?_eq_getElem (hlen ▸ hc)
    have hwide := hwidth _ (List.mem_of_getElem? hdigits)
    have hds : tables[c][j]? = some tables[c][j] := List.getElem?_eq_getElem (hwide ▸ hj)
    have hzip : (c, tables[c]) ∈ (List.range columns).zip tables :=
      List.mem_of_getElem? (List.getElem?_zip_eq_some.mpr ⟨List.getElem?_range hc, hdigits⟩)
    refine .inr ⟨tables[c][j].getD k (.int 0), List.mem_flatMap.mpr ⟨_, hzip, ?_⟩⟩
    refine mem_columnWrites.mpr ⟨k, j, _, hk, hds, Prod.ext ?_ rfl⟩
    simp only [hwide]
    ring

theorem size_fillCells {cells' : Array Item}
    (h : fillCells rows columns radices values cells = .ok cells') :
    cells'.size = cells.size := by
  refine size_foldlM (fun xs c ys hys => ?_) h
  obtain ⟨digits, _, hys⟩ := bind_eq_ok.mp hys
  refine size_foldlM (fun xs k ys hys => ?_) hys
  refine size_foldlM (fun xs p ys hys => ?_) hys
  obtain ⟨d, _, hys⟩ := bind_eq_ok.mp hys
  exact size_changeAt hys

end Radix
end LazyApl
