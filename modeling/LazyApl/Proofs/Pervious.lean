import LazyApl.Proofs.ElementTypes
import LazyApl.Proofs.Picking
import LazyApl.Proofs.Paths
/-!
# Arrays that functions of numbers can pervade

What an array hands out is simple or has to be pervaded in turn. So an array is pervious if all that
it hands out is simple or an array of that kind, to any depth. Arrays of whole numbers that are at
hand are. Values that are assigned to a selection are handed out themselves; what a pick puts in
place of an item is handed out as it is, and may be a number in an array of its own.
-/
namespace LazyApl

open Outcome

namespace EType

variable {t : EType}

theorem kind_join_ne_char (ht : t.kind ≠ .char) (u : EType) : (t.join u).kind ≠ .char := by
  unfold join
  split_ifs with hm hc he
  · exact nofun
  · rcases hc with hc | hc
    · exact absurd hc ht
    · exact absurd (he.trans hc) ht
  · exact nofun
  · exact nofun
  · exact nofun
  · unfold joinRanges range
    split
    · dsimp only
      split <;> exact nofun
    · exact nofun

theorem kind_foldl_join (ts : List EType) (ht : t.kind ≠ .char) :
    (ts.foldl join t).kind ≠ .char := by
  induction ts generalizing t with
  | nil => exact ht
  | cons u ts ih => exact ih (kind_join_ne_char ht u)

end EType

namespace Item

theorem kind_ne_char_of_whole? {s : Scalar} {n : Int} (h : s.whole? = some n) :
    (scalar s).etype.kind ≠ .char := by
  rw [etype_of_whole? h]
  rcases EType.kind_integer n n with hk | hk <;> rw [hk] <;> exact nofun

/-- An item holds whole numbers only, to any depth; where it holds none, no blank is the fill. -/
inductive IsWhole : Item → Prop
  | number {s : Scalar} {n : Int} (h : s.whole? = some n) : IsWhole (scalar s)
  | array {g : Grid Item} (items : ∀ y ∈ g.items, IsWhole y)
      (fill : g.items = [] → g.fill ≠ some .blank) : IsWhole (array g)

end Item

namespace View

variable {v w : View Item} {g : Grid Item}

/-- The array hands out the item at one of its positions. -/
def Has (v : View Item) (x : Item) : Prop :=
  ∃ t gen i, v.shape = .ok (.ofShape t) ∧ v.generator = .ok gen ∧ t.Holds i ∧
    gen.cell (.int i) = .ok x

/-- Functions of numbers can pervade the array: it is not declared to hold characters, and what it
hands out, unless it is simple, is an array of the same kind. -/
inductive IsPervious : View Item → Prop
  | intro {v : View Item} (etype : ∀ e, v.etype = .ok e → e.kind ≠ .char)
      (array : ∀ x, v.Has x → (∀ s, x ≠ .scalar s) → x.isArray = .ok true)
      (cells : ∀ x, v.Has x → (∀ s, x ≠ .scalar s) → IsPervious x.lift) : IsPervious v

theorem isPervious_of_has (hetype : ∀ e, v.etype = .ok e → e.kind ≠ .char)
    (h : ∀ x, v.Has x → (∀ s, x ≠ .scalar s) → x.isArray = .ok true ∧ x.lift.IsPervious) :
    v.IsPervious :=
  .intro hetype (fun x hx hns => (h x hx hns).1) fun x hx hns => (h x hx hns).2

theorem IsPervious.kind_ne_char (h : v.IsPervious) {e : EType} (he : v.etype = .ok e) :
    e.kind ≠ .char := by
  cases h with
  | intro etype _ _ => exact etype e he

theorem IsPervious.of_has (h : v.IsPervious) {x : Item} (hx : v.Has x)
    (hns : ∀ s, x ≠ .scalar s) : x.isArray = .ok true ∧ x.lift.IsPervious := by
  cases h with
  | intro _ array cells => exact ⟨array x hx hns, cells x hx hns⟩

theorem Has.mem {x : Item} (h : (ofGrid g).Has x) : x ∈ g.items := by
  obtain ⟨t, gen, i, _, hgen, _, hx⟩ := h
  exact Root.mem_of_cell hgen hx

theorem kind_etype_of_isWhole (h : (Item.array g).IsWhole) : g.etype.kind ≠ .char := by
  cases h with
  | array items fill =>
      unfold Grid.etype
      split
      · simp [EType.mixed, EType.ofKind]
      · rename_i hn
        split
        · rename_i hi hfill
          exact absurd hfill (fill hi)
        · cases hi : g.items with
          | nil => simp [EType.joinValues, EType.bit]
          | cons x xs =>
              have hx : x.etype.kind ≠ .char := by
                cases items x (by simp [hi]) with
                | number hs => exact Item.kind_ne_char_of_whole? hs
                | array _ _ => simp [Item.etype, EType.mixed, EType.ofKind]
              rw [EType.joinValues_none, List.map_cons, EType.joinAll_cons]
              exact EType.kind_foldl_join (xs.map Item.etype) hx

/-- Functions of numbers pervade an array of whole numbers that is at hand. -/
theorem isPervious_ofGrid (hs : (Item.array g).IsSound) (h : (Item.array g).IsWhole) :
    (ofGrid g).IsPervious := by
  generalize hx : Item.array g = x at hs
  induction hs generalizing g with
  | scalar s => cases hx
  | list xs => cases hx
  | view ready cells => cases hx
  | @array g' ready items ih =>
      obtain rfl := Item.array.inj hx
      have hwhole : ∀ y ∈ g.items, y.IsWhole := by
        cases h with
        | array items _ => exact items
      have hinner : ∀ y, (ofGrid g).Has y → (∀ s, y ≠ .scalar s) → ∃ g', y = .array g' := by
        intro y hy hns
        cases hwhole y hy.mem with
        | number _ => exact absurd rfl (hns _)
        | array _ _ => exact ⟨_, rfl⟩
      refine .intro (fun e he => ?_) (fun y hy hns => ?_) fun y hy hns => ?_
      · cases he
        exact kind_etype_of_isWhole h
      · obtain ⟨g', rfl⟩ := hinner y hy hns
        exact ((ready.kept g rfl).items _ hy.mem).isArray_eq
      · obtain ⟨g', rfl⟩ := hinner y hy hns
        exact ih _ hy.mem (hwhole _ hy.mem) rfl

theorem AnswersAs.isPervious (h : w.AnswersAs v) (hv : v.IsPervious) : w.IsPervious := by
  refine isPervious_of_has (fun e he => hv.kind_ne_char (h.etype.symm.trans he)) fun x hx => ?_
  obtain ⟨t, gen, i, hs, hgen, hi, hx⟩ := hx
  exact hv.of_has ⟨t, gen, i, h.shape.symm.trans hs, h.generator.symm.trans hgen, hi, hx⟩

end View

namespace Item

variable {v values w : View Item}

open LazyApl.Path

variable {o : Int} {origin : Origin} {change : Replacement} {b : View Item} {x new node : Item}
  {p : Path}

/-- An array in which an item has been replaced is pervious exactly if the new item is simple or an
array that is. -/
theorem isPervious_replaceAlong (ho : origin.number = .ok (.int o)) (hb : b.IsPervious)
    (h : Leads o p (view b) x) (hp : p ≠ []) (hx : change.apply x = .ok new) :
    (replaceAlong change origin p b).IsPervious ↔
      ((∀ s, new ≠ .scalar s) → new.isArray = .ok true ∧ new.lift.IsPervious) := by
  induction p generalizing b with
  | nil => exact absurd rfl hp
  | cons step rest ih =>
      have hleads := h
      cases h with
      | @cons _ _ t _ old _ hne hfinds hs =>
          obtain ⟨gen, cells, hgen, hcells, heach⟩ :=
            generator_replaceAlong change ho hleads hfinds
          have hplace := hfinds.within.holds
          obtain ⟨gen', hgen', hold⟩ := bind_eq_ok.mp hfinds.cell
          obtain rfl := Except.ok.inj (hgen.symm.trans hgen')
          have hhas : b.Has old := ⟨t, gen, _, hfinds.shape, hgen, hplace, hold⟩
          -- the new item stands at the end of the path, and an array renewed further down before it
          have hrenewed : ∃ item, renewed change origin rest old = .ok item ∧
              (((∀ s, item ≠ .scalar s) → item.isArray = .ok true ∧ item.lift.IsPervious) ↔
                ((∀ s, new ≠ .scalar s) → new.isArray = .ok true ∧ new.lift.IsPervious)) := by
            cases hs with
            | nil => exact ⟨new, hx, Iff.rfl⟩
            | @cons step' rest' t' _ old' _ hne' hfinds' hs' =>
                have ht' := hfinds'.shape_ne_nil hne'
                have hold : ∀ s, old ≠ .scalar s := by
                  rintro s rfl
                  exact ht' (Extents.ofShape_inj (Except.ok.inj hfinds'.shape.symm))
                have hlift := hfinds'.lift ht'
                have hinner := ih (hb.of_has hhas hold).2 (.cons hne' hlift hs') (by simp)
                have haxes : (replaceAlong change origin (step' :: rest') old.lift).shape =
                    .ok (.ofShape t') := hlift.shape
                refine ⟨_, rfl, ⟨fun hitem => hinner.mp (hitem (by simp)).2, fun hnew _ => ?_⟩⟩
                exact ⟨View.isArray_of_shape haxes ht', hinner.mpr hnew⟩
          obtain ⟨item, hitem, hiff⟩ := hrenewed
          have hshape : (replaceAlong change origin (step :: rest) b).shape =
              .ok (.ofShape t) := hfinds.shape
          rw [← hiff]
          constructor
          · intro hw
            refine hw.of_has ⟨t, cells, _, hshape, hcells, hplace, ?_⟩
            rw [heach, hold]
            simp only [bind, Except.bind, if_true]
            exact hitem
          · intro hitem'
            refine View.isPervious_of_has (fun e he => ?_) fun z hz => ?_
            · cases he
              exact nofun
            · obtain ⟨u, cells', i, hu, hcells', hi, hz⟩ := hz
              obtain rfl := Extents.ofShape_inj (Except.ok.inj (hshape.symm.trans hu))
              obtain rfl := Except.ok.inj (hcells.symm.trans hcells')
              rw [heach] at hz
              obtain ⟨before, hbefore, hz⟩ := bind_eq_ok.mp hz
              split at hz
              · rename_i hi'
                rw [hi', hold] at hbefore
                cases hbefore
                cases hitem.symm.trans hz
                exact hitem'
              · cases hz
                exact hb.of_has ⟨_, gen, i, hfinds.shape, hgen, hi, hbefore⟩

end Item
end LazyApl
