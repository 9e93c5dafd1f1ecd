import LazyApl.Proofs.Likeness
import LazyApl.Proofs.Settling
/-!
# Arrays collected cell by cell

An array is collected by reading all its cells, its element type, and its fill if it has no cell.
Two arrays of one shape are collected into alike arrays exactly when all this can be read and their
cells are stored alike, one by one.
-/
namespace LazyApl

open Outcome

namespace Outcome

/-- A computation at every position of an array has a result for each. -/
theorem mapM_upTo {β : Type} {f : Int → Except Fault β} {n : Int} {ys : List β}
    (h : (upTo n).mapM f = .ok ys) :
    ys.length = n.toNat ∧ ∀ i : Int, 0 ≤ i ∧ i < n → ∃ y, ys[i.toNat]? = some y ∧ f i = .ok y := by
  rw [mapM_eq_ok, List.forall₂_iff_get] at h
  obtain ⟨hl, hget⟩ := h
  rw [length_upTo] at hl
  refine ⟨hl.symm, fun i hi => ?_⟩
  have hk : i.toNat < ys.length := by omega
  refine ⟨ys[i.toNat], List.getElem?_eq_getElem hk, ?_⟩
  have hf := hget i.toNat (by simpa using (by omega : i.toNat < n.toNat)) hk
  have hi' : ((i.toNat : Nat) : Int) = i := Int.toNat_of_nonneg hi.1
  simpa [upTo, hi'] using hf

end Outcome

namespace Tower

/-- What an array needs besides its cells to be collected: an element type, and a fill if it has no
cell. -/
structure IsSupplied (f : Facts Item) (s : Shape) : Prop where
  etype : ∃ t, f.etype.get = .ok t
  prototype : s.size = 0 → ∃ p, f.prototype .now = .ok p

variable {f f' : Facts Item} {s : Shape}

theorem map_countedFor (k : Kind) (xs : List Item) :
    (if k = .bit || k = .int then xs.map Item.counted else xs) = xs.map (Item.countedFor k) := by
  simp only [Bool.or_eq_true, decide_eq_true_eq]
  split
  · rename_i h
    simp [Item.countedFor, h]
  · rename_i h
    have hk : Item.countedFor k = id := funext fun x => if_neg h
    rw [hk, List.map_id]

/-- To collect an array is to read its cells, its element type, and its fill if it has no cell. -/
theorem collect_eq (hs : f.shape.get = .ok (.ofShape s)) :
    collect f = (do
      let cells ← f.generator .now
      let xs ← (upTo s.size).mapM fun i : Int => cells.cell i
      let t ← f.etype.get
      (if s.size = 0 then some <$> f.prototype .now else .ok none) >>= fun fill =>
        .ok (Grid.of s (xs.map (Item.countedFor t.kind)) fill)) := by
  by_cases h0 : s.size = 0
  · simp only [collect, hs, bind, Except.bind, Extents.count_ofShape, Extents.shape_ofShape,
      map_countedFor, if_pos h0]
    rfl
  · simp only [collect, hs, bind, Except.bind, Extents.count_ofShape, Extents.shape_ofShape,
      map_countedFor, if_neg h0]
    rfl

/-- What a collected array is made of. -/
theorem collect_eq_ok (hs : f.shape.get = .ok (.ofShape s)) {g : Grid Item} :
    collect f = .ok g ↔ ∃ cells xs t fill, f.generator .now = .ok cells ∧
      (upTo s.size).mapM (fun i : Int => cells.cell i) = .ok xs ∧ f.etype.get = .ok t ∧
      (if s.size = 0 then some <$> f.prototype .now else .ok none) = .ok fill ∧
      g = Grid.of s (xs.map (Item.countedFor t.kind)) fill := by
  simp only [collect_eq hs, bind_eq_ok]
  constructor
  · rintro ⟨cells, hg, xs, hx, t, ht, fill, hf, h⟩
    exact ⟨cells, xs, t, fill, hg, hx, ht, hf, (Except.ok.inj h).symm⟩
  · rintro ⟨cells, xs, t, fill, hg, hx, ht, hf, rfl⟩
    exact ⟨cells, hg, xs, hx, t, ht, fill, hf, rfl⟩

theorem isSupplied_of_collect (hs : f.shape.get = .ok (.ofShape s)) {g : Grid Item}
    (h : collect f = .ok g) : IsSupplied f s := by
  obtain ⟨_, _, t, fill, _, _, ht, hf, _⟩ := (collect_eq_ok hs).mp h
  refine ⟨⟨t, ht⟩, fun h0 => ?_⟩
  rw [if_pos h0] at hf
  obtain ⟨p, hp, _⟩ := map_eq_ok.mp hf
  exact ⟨p, hp⟩

/-- An array is collected if its cells can be read and it is supplied. -/
theorem exists_collect (hs : f.shape.get = .ok (.ofShape s)) (h : IsSupplied f s) {cells : Gen Item}
    {xs : List Item} (hc : f.generator .now = .ok cells)
    (hx : (upTo s.size).mapM (fun i : Int => cells.cell i) = .ok xs) :
    ∃ k fill, collect f = .ok (Grid.of s (xs.map (Item.countedFor k)) fill) := by
  obtain ⟨⟨t, ht⟩, hp⟩ := h
  have hf : ∃ fill, (if s.size = 0 then some <$> f.prototype .now else .ok none) =
      Except.ok fill := by
    split
    · rename_i h0
      obtain ⟨p, hp⟩ := hp h0
      exact ⟨some p, map_eq_ok.mpr ⟨p, hp, rfl⟩⟩
    · exact ⟨none, rfl⟩
  obtain ⟨fill, hf⟩ := hf
  exact ⟨t.kind, fill, (collect_eq_ok hs).mpr ⟨cells, xs, t, fill, hc, hx, ht, hf, rfl⟩⟩

theorem alike_of {xs ys : List Item} {k k' : Kind} {fill fill' : Option Item}
    (hx : xs.length = s.size.toNat) (hy : ys.length = s.size.toNat) :
    Item.Alike (.array (Grid.of s (xs.map (Item.countedFor k)) fill))
        (.array (Grid.of s (ys.map (Item.countedFor k')) fill')) ↔
      List.Forall₂ (fun x y => Item.Alike x.stored y.stored) xs ys := by
  unfold Grid.of
  rw [Item.alike_array (by simpa using hx) (by simpa using hy)]
  simp only [true_and, List.forall₂_map_left_iff, List.forall₂_map_right_iff,
    Item.alike_countedFor, Item.alike_countedFor_right]

/-- Collections, as items, are alike if the arrays are. -/
theorem alike_map_iff {x y : Except Fault (Grid Item)} :
    (∃ a b, Item.array <$> x = .ok a ∧ Item.array <$> y = .ok b ∧ Item.Alike a b) ↔
      ∃ g h, x = .ok g ∧ y = .ok h ∧ Item.Alike (.array g) (.array h) := by
  constructor
  · rintro ⟨a, b, ha, hb, hab⟩
    obtain ⟨g, hg, rfl⟩ := map_eq_ok.mp ha
    obtain ⟨h, hh, rfl⟩ := map_eq_ok.mp hb
    exact ⟨g, h, hg, hh, hab⟩
  · rintro ⟨g, h, hg, hh, hab⟩
    exact ⟨_, _, map_eq_ok.mpr ⟨g, hg, rfl⟩, map_eq_ok.mpr ⟨h, hh, rfl⟩, hab⟩

/-- Two arrays of one shape are collected into alike arrays exactly when both are supplied and at
every position both have a cell and these are stored alike. -/
theorem collect_alike (hs : f.shape.get = .ok (.ofShape s)) (hs' : f'.shape.get = .ok (.ofShape s))
    {cells cells' : Gen Item} (hc : f.generator .now = .ok cells)
    (hc' : f'.generator .now = .ok cells') :
    (∃ g g', collect f = .ok g ∧ collect f' = .ok g' ∧ Item.Alike (.array g) (.array g')) ↔
      IsSupplied f s ∧ IsSupplied f' s ∧ ∀ i, s.Holds i →
        ∃ x y, cells.cell (.int i) = .ok x ∧ cells'.cell (.int i) = .ok y ∧
          Item.Alike x.stored y.stored := by
  constructor
  · rintro ⟨g, g', hg, hg', ha⟩
    refine ⟨isSupplied_of_collect hs hg, isSupplied_of_collect hs' hg', fun i hi => ?_⟩
    obtain ⟨c, xs, t, fill, h1, hx, _, _, rfl⟩ := (collect_eq_ok hs).mp hg
    obtain ⟨c', ys, t', fill', h2, hy, _, _, rfl⟩ := (collect_eq_ok hs').mp hg'
    rw [hc] at h1
    rw [hc'] at h2
    cases h1
    cases h2
    obtain ⟨hlx, hx⟩ := mapM_upTo hx
    obtain ⟨hly, hy⟩ := mapM_upTo hy
    rw [alike_of hlx hly, List.forall₂_iff_get] at ha
    obtain ⟨x, hix, hx⟩ := hx i hi
    obtain ⟨y, hiy, hy⟩ := hy i hi
    obtain ⟨hkx, rfl⟩ := List.getElem?_eq_some_iff.mp hix
    obtain ⟨hky, rfl⟩ := List.getElem?_eq_some_iff.mp hiy
    exact ⟨_, _, hx, hy, ha.2 i.toNat hkx hky⟩
  · rintro ⟨hf, hf', hcell⟩
    have hcx : ∀ i ∈ upTo s.size, ∃ x, cells.cell (.int i) = .ok x := by
      intro i hi
      obtain ⟨x, _, hx, _⟩ := hcell i (mem_upTo.mp hi)
      exact ⟨x, hx⟩
    have hcy : ∀ i ∈ upTo s.size, ∃ y, cells'.cell (.int i) = .ok y := by
      intro i hi
      obtain ⟨_, y, _, hy, _⟩ := hcell i (mem_upTo.mp hi)
      exact ⟨y, hy⟩
    -- every cell is there on both sides, so both can be collected
    obtain ⟨xs, hx⟩ := exists_mapM hcx
    obtain ⟨ys, hy⟩ := exists_mapM hcy
    obtain ⟨k, fill, hg⟩ := exists_collect hs hf hc hx
    obtain ⟨k', fill', hg'⟩ := exists_collect hs' hf' hc' hy
    refine ⟨_, _, hg, hg', ?_⟩
    obtain ⟨hlx, hx⟩ := mapM_upTo hx
    obtain ⟨hly, hy⟩ := mapM_upTo hy
    rw [alike_of hlx hly, List.forall₂_iff_get]
    refine ⟨by omega, fun n hn hn' => ?_⟩
    have hi : s.Holds n := by
      unfold Shape.Holds
      omega
    obtain ⟨x, hkx, hx⟩ := hx n hi
    obtain ⟨y, hky, hy⟩ := hy n hi
    obtain ⟨x', y', hx', hy', ha⟩ := hcell n hi
    rw [hx] at hx'
    rw [hy] at hy'
    cases hx'
    cases hy'
    obtain ⟨_, rfl⟩ := List.getElem?_eq_some_iff.mp hkx
    obtain ⟨_, rfl⟩ := List.getElem?_eq_some_iff.mp hky
    exact ha

end Tower
end LazyApl
