import LazyApl.Primitive.Search
import LazyApl.Proofs.Reading
import LazyApl.Proofs.Windows
/-!
# Arrays made as a whole

An array that is made as a whole computes all of its content when the first cell is asked for. From
then on it is read by position, so it yields its content, and renders to it if the content can be
stored as it is.
-/

namespace LazyApl

open Outcome

theorem map_getD_upTo {α : Type} (xs : List α) (d : α) {n : Int} (hl : (xs.length : Int) = n) :
    (upTo n).map (fun i => xs.getD i.toNat d) = xs := by
  subst hl
  refine List.ext_getElem (by simp) fun k hk hk' => ?_
  simp [upTo, List.getElem?_eq_getElem hk']

theorem getElem?_map_upTo {α : Type} (f : Int → α) {n i : Int} (h : 0 ≤ i ∧ i < n) :
    ((upTo n).map f)[i.toNat]? = some (f i) := by
  rw [upTo, List.map_map, List.getElem?_map, List.getElem?_range (by omega)]
  simp [Int.toNat_of_nonneg h.1]

theorem pickFrom_injective {xs ys : List Item}
    (h : pickFrom xs.toArray = pickFrom ys.toArray) : xs = ys := by
  have hget : ∀ (xs : List Item) (k : Nat), pickFrom xs.toArray (.int k) =
      (xs[k]?.elim (.error .offEnd) .ok : Except Fault Item) := by
    intro xs k
    have hk : ¬ ((k : Int) < 0) := by omega
    simp only [pickFrom, Number.index_int, placeIn, if_neg hk, bind, Except.bind, Int.toNat_natCast,
      List.getElem?_toArray]
    cases xs[k]? <;> rfl
  apply List.ext_getElem?
  intro k
  have hk := congrFun h (.int k)
  rw [hget, hget] at hk
  cases hx : xs[k]? with
  | none =>
      cases hy : ys[k]? with
      | none => rfl
      | some y =>
          rw [hx, hy] at hk
          cases hk
  | some x =>
      cases hy : ys[k]? with
      | none =>
          rw [hx, hy] at hk
          cases hk
      | some y =>
          rw [hx, hy] at hk
          exact congrArg some (Except.ok.inj hk)

namespace View

/-- The content of an array that is made as a whole, from which its cells are read by position. -/
def HasContent (v : View Item) (xs : List Item) : Prop :=
  v.generator = .ok (.indexed (pickFrom xs.toArray))

theorem HasContent.cells {v : View Item} {t : Shape} {xs : List Item} (h : v.HasContent xs)
    (hl : (xs.length : Int) = t.size) (hx : ∀ x ∈ xs, x.settle = .ok x) :
    ∃ gen, v.generator = .ok gen ∧ ∀ i, t.Holds i →
      gen.cell (.int i) >>= Item.settle = .ok (xs.getD i.toNat (.int 0)) := by
  refine ⟨_, h, fun i hi => ?_⟩
  have hlt : i.toNat < xs.length := by
    unfold Shape.Holds at hi
    omega
  have hget := List.getElem?_eq_getElem hlt
  rw [Gen.cell_indexed, Replicate.pickFrom_ok hi.1 hget, List.getD_eq_getElem?_getD, hget]
  exact hx _ (List.getElem_mem hlt)

theorem HasContent.items {v : View Item} {t : Shape} {xs : List Item} (h : v.HasContent xs)
    (hs : v.shape = .ok (.ofShape t)) (hl : (xs.length : Int) = t.size)
    (hx : ∀ x ∈ xs, x.settle = .ok x) : (Item.view v).items = .ok xs := by
  obtain ⟨gen, hgen, hcell⟩ := h.cells hl hx
  rw [Item.items_of_cells hs hgen hcell, map_getD_upTo xs _ hl]

variable {name : String} {content : Lazy (List Item)} {shape : Lazy Extents} {etype : Lazy EType}
  {prototype : Lazy Item} {details : List (String × Lazy Item)} {t : Shape} {e : EType}
  {xs : List Item}

theorem hasContent_whole :
    (whole name content shape etype prototype details).HasContent xs ↔ content.get = .ok xs := by
  have hgen : (whole name content shape etype prototype details).generator =
      (fun xs => Gen.indexed (pickFrom xs.toArray)) <$> content.get := rfl
  rw [HasContent, hgen]
  constructor
  · intro h
    obtain ⟨ys, hys, h⟩ := map_eq_ok.mp h
    rw [hys, pickFrom_injective (Gen.indexed.inj h)]
  · intro h
    rw [h]
    rfl

theorem items_whole (hc : content.get = .ok xs) (hs : shape.get = .ok (.ofShape t))
    (hl : (xs.length : Int) = t.size) (hx : ∀ x ∈ xs, x.settle = .ok x) :
    (Item.view (whole name content shape etype prototype details)).items = .ok xs :=
  (hasContent_whole.mpr hc).items hs hl hx

/-- Content that is stored as it is, is what the array renders to. -/
theorem render_whole (hc : content.get = .ok xs) (hs : shape.get = .ok (.ofShape t))
    (he : etype.get = .ok e) (hl : (xs.length : Int) = t.size) (ht : t.IsProper)
    (hp : prototype.get = .ok (.int 0))
    (hx : ∀ x ∈ xs, x.IsKept ∧ ∀ b, x ≠ .truth b) :
    ∃ fill, (Item.view (whole name content shape etype prototype details)).render =
      .ok (.array ⟨t, xs, fill⟩) := by
  have hitems : (Item.view (whole name content shape etype prototype details)).items = .ok xs :=
    items_whole hc hs hl fun x hx' => (hx x hx').1.settle_eq
  have hready : (whole name content shape etype prototype details).IsReady :=
    isReady_of_computed rfl hs ht hp
  obtain ⟨fill, hfill⟩ : ∃ fill, (if t.size = 0 then
      some <$> (whole name content shape etype prototype details).prototype else .ok none) =
        Except.ok fill := by
    split
    · exact ⟨some (.int 0), congrArg (some <$> ·) hp⟩
    · exact ⟨none, rfl⟩
  have hetype : (whole name content shape etype prototype details).etype = .ok e := he
  have hstored : xs.map (fun x => (x.countedFor e.kind).stored) = xs := by
    conv_rhs => rw [← List.map_id xs]
    refine List.map_congr_left fun x hx' => ?_
    rw [Item.countedFor_eq_self (hx x hx').2, (hx x hx').1.stored_eq]
    rfl
  refine ⟨fill, ?_⟩
  rw [render_eq (by rintro ⟨g, ⟨⟩⟩), Item.collect_settled hready hs, hitems, hetype, hfill]
  simp only [bind, Except.bind, Functor.map, Except.map, Grid.of, List.map_map]
  exact congrArg (fun ys => Except.ok (Item.array ⟨t, ys, fill⟩)) hstored

/-- An array whose content is whole numbers hands them out, and it renders to them. -/
theorem shown_ints {α : Type} {ys : List α} {f : α → Int}
    (hc : content.get = .ok (ys.map fun y => .int (f y))) (hs : shape.get = .ok (.ofShape t))
    (he : etype.get = .ok e) (hl : (ys.length : Int) = t.size) (ht : t.IsProper)
    (hp : prototype.get = .ok (.int 0)) :
    (Item.view (whole name content shape etype prototype details)).items =
        .ok (ys.map fun y => .int (f y)) ∧
      ∃ fill, (Item.view (whole name content shape etype prototype details)).render =
        .ok (.array ⟨t, ys.map fun y => .int (f y), fill⟩) := by
  have hlength : ((ys.map fun y => Item.int (f y)).length : Int) = t.size := by
    rw [List.length_map, hl]
  have hkept : ∀ x ∈ ys.map fun y => Item.int (f y), x.IsKept ∧ ∀ b, x ≠ .truth b := by
    intro x hx
    obtain ⟨y, -, rfl⟩ := List.mem_map.mp hx
    exact ⟨rfl, fun b => by simp⟩
  exact ⟨items_whole hc hs hlength fun x hx => (hkept x hx).1.settle_eq,
    render_whole hc hs he hlength ht hp hkept⟩

theorem render_whole_of_error {c : Fault} (hc : content.get = .error c)
    (hs : shape.get = .ok (.ofShape t)) (ht : t.IsProper) (hp : prototype.get = .ok (.int 0)) :
    (Item.view (whole name content shape etype prototype details)).render = .error c := by
  have hready : (whole name content shape etype prototype details).IsReady :=
    isReady_of_computed rfl hs ht hp
  have hgen : (Item.view (whole name content shape etype prototype details)).generatorOf =
      (fun xs => Gen.indexed (pickFrom xs.toArray)) <$> content.get := rfl
  rw [render_eq (by rintro ⟨g, ⟨⟩⟩), Item.collect_settled hready hs, Item.items, hgen, hc]
  rfl

end View
end LazyApl
