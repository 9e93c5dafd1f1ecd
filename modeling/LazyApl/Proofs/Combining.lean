import LazyApl.Proofs.Operands
import LazyApl.Proofs.Pervadable
/-!
# Scalar functions of arrays that fit together

Arrays fit together if they have a common shape, but for those of a single cell, and if the arrays
that meet in their cells fit together in turn. A function of whole numbers combines such arrays to
one that can be rendered, however deep they are nested and however many there are.
-/
namespace LazyApl

open Outcome

namespace ResultType

theorem apply_numeric_all {es : List EType} (h : ∀ e ∈ es, e.kind ≠ .char) :
    ∃ u, numeric.apply (.ok es) = .ok u := by
  have happly : numeric.apply (.ok es) =
      if es.any (·.kind = .mixed) then .ok EType.mixed
      else if es.all EType.isNumeric then .ok (widest es) else .error (.domain .notNumbers) := rfl
  rw [happly]
  by_cases hmixed : es.any (·.kind = .mixed) = true
  · exact ⟨_, if_pos hmixed⟩
  · have hall : es.all EType.isNumeric = true := by
      rw [List.all_eq_true]
      intro e he
      have hchar := h e he
      have hm : e.kind ≠ .mixed := by
        intro hm
        exact hmixed (List.any_eq_true.mpr ⟨e, he, by simp [hm]⟩)
      unfold EType.isNumeric
      cases hk : e.kind <;> simp_all [Kind.isNumeric]
    exact ⟨_, by rw [if_neg hmixed, if_pos hall]⟩

end ResultType

namespace Item

/-- An item as an array at hand: a simple value is a scalar. -/
def asGrid : Item → Grid Item
  | array g => g
  | x => ⟨[], [x.counted], none⟩

end Item

namespace Grid

/-- The item of an array at a position; an array of a single cell goes with every position. -/
def itemAt (g : Grid Item) (i : Int) : Item :=
  g.items.getD (if Shape.size g.shape = 1 then 0 else i).toNat .nothing

/-- Arrays fit together: they have a common shape, and where arrays meet in their cells these fit
together in turn. -/
inductive FitTogether : List (Grid Item) → Prop
  | intro {gs : List (Grid Item)} {t : Shape}
      (common : Pervade.commonShape ((gs.map Grid.shape).map .ofShape) = .ok (.ofShape t))
      (cells : ∀ i, t.Holds i → (∃ g ∈ gs, (g.itemAt i).isGrid = true) →
        FitTogether (gs.map fun g => (g.itemAt i).asGrid)) : FitTogether gs

end Grid

namespace Item

/-- What shows whole numbers is an array of whole numbers as a view. -/
theorem ShowsWhole.isPervadable_lift {x y : Item} (h : x.ShowsWhole y) :
    x.lift.IsPervadable y.asGrid := by
  cases h with
  | array _ h => exact h
  | @number s s' n hn hn' =>
      have hlift : (scalar s).lift = View.ofGrid ⟨[], [int n], none⟩ := by
        cases s with
        | int m =>
            cases hn
            rfl
        | truth b =>
            cases hn
            rfl
        | _ => cases hn
      have hgrid : (scalar s').asGrid = ⟨[], [int n], none⟩ := by
        cases s' with
        | int m =>
            cases hn'
            rfl
        | truth b =>
            cases hn'
            rfl
        | _ => cases hn'
      have hready : (View.ofGrid ⟨[], [int n], none⟩).IsReady :=
        View.isReady_ofGrid ⟨rfl, List.forall_mem_singleton.mpr rfl⟩ Shape.isProper_nil nofun
      rw [hlift, hgrid]
      exact View.isPervadable_ofGrid
        (.array hready (List.forall_mem_singleton.mpr (.scalar (.int n))))
        (.array (List.forall_mem_singleton.mpr (.number rfl)) nofun)

end Item

namespace View

variable {vs : List (View Item)} {gs : List (Grid Item)} {ps : List (Shape × Gen Item)} {t : Shape}
  {f : CellFunction} {F : List Int → Int}

/-- The function answers on so many whole numbers with a whole number. -/
def ComputesOn (f : CellFunction) (n : Nat) (F : List Int → Int) : Prop :=
  ∀ (ss : List Scalar) (ns : List Int), List.Forall₂ (fun s n => s.whole? = some n) ss ns →
    ss.length = n → f (ss.map .scalar) = .ok (.int (F ns))

/-- The cells that are read show the items of an array at hand. -/
def ShowsItems (p : Shape × Gen Item) (g : Grid Item) : Prop :=
  p.1 = g.shape ∧ g.shape.IsProper ∧ ∀ i, g.shape.Holds i →
    ∃ x y, p.2.cell (.int i) = .ok x ∧ g.items[i.toNat]? = some y ∧ x.ShowsWhole y

theorem exists_readAs (h : List.Forall₂ IsPervadable vs gs) :
    ∃ ps, ReadAs vs ps ∧ List.Forall₂ ShowsItems ps gs := by
  induction h with
  | nil => exact ⟨[], .nil, .nil⟩
  | @cons v g vs gs hv _ ih =>
      obtain ⟨ps, hread, hshows⟩ := ih
      obtain ⟨hshape, hproper, gen, hgen, hcells⟩ := hv.cells
      refine ⟨(g.shape, gen) :: ps, .cons ⟨hshape, hgen⟩ hread, .cons ⟨rfl, hproper, ?_⟩ hshows⟩
      intro i hi
      obtain ⟨x, y, hx, _, hy, hxy⟩ := hcells i hi
      exact ⟨x, y, hx, hy, hxy⟩

theorem extents_of_showsItems (h : List.Forall₂ ShowsItems ps gs) :
    (ps.map fun p => Extents.ofShape p.1) = (gs.map Grid.shape).map .ofShape := by
  induction h with
  | nil => rfl
  | cons hp _ ih => rw [List.map_cons, List.map_cons, List.map_cons, hp.1, ih]

theorem isProper_of_showsItems (h : List.Forall₂ ShowsItems ps gs) :
    ∀ g ∈ gs, g.shape.IsProper := by
  induction h with
  | nil => simp
  | cons hp _ ih => exact List.forall_mem_cons.mpr ⟨hp.2.1, ih⟩

theorem ShowsItems.exists_taken {p : Shape × Gen Item} {g : Grid Item} (h : ShowsItems p g)
    (ht : g.shape.size = 1 ∨ g.shape = t) {i : Int} (hi : t.Holds i) :
    ∃ x, p.2.cell (.int (if p.1.size = 1 then 0 else i)) = .ok x ∧
      x.ShowsWhole (g.itemAt i) := by
  obtain ⟨hshape, _, hcells⟩ := h
  have hplace : g.shape.Holds (if g.shape.size = 1 then 0 else i) := by
    split
    · rename_i h1
      simp [Shape.Holds, h1]
    · rename_i h1
      rcases ht with h1' | rfl
      · exact absurd h1' h1
      · exact hi
  obtain ⟨x, y, hx, hy, hshows⟩ := hcells _ hplace
  refine ⟨x, by rw [hshape, hx], ?_⟩
  have hitem : g.itemAt i = y := by
    rw [Grid.itemAt, List.getD_eq_getElem?_getD, hy]
    rfl
  rw [hitem]
  exact hshows

theorem exists_takenAt (h : List.Forall₂ ShowsItems ps gs)
    (ht : ∀ g ∈ gs, g.shape.size = 1 ∨ g.shape = t) {i : Int} (hi : t.Holds i) :
    ∃ xs, takenAt ps i = .ok xs ∧
      List.Forall₂ Item.ShowsWhole xs (gs.map fun g => g.itemAt i) := by
  induction h with
  | nil => exact ⟨[], rfl, .nil⟩
  | cons hp _ ih =>
      obtain ⟨hg, hgs⟩ := List.forall_mem_cons.mp ht
      obtain ⟨x, hx, hshows⟩ := hp.exists_taken hg hi
      obtain ⟨xs, hxs, hall⟩ := ih hgs
      refine ⟨x :: xs, ?_, .cons hshows hall⟩
      rw [takenAt] at hxs ⊢
      rw [List.mapM_cons, hx, hxs]
      rfl

theorem anyArray_eq {xs ys : List Item} (h : List.Forall₂ Item.ShowsWhole xs ys) :
    Pervade.anyArray xs = .ok (ys.any Item.isGrid) := by
  induction h with
  | nil => rfl
  | @cons x y xs ys hx _ ih =>
      cases hx with
      | number _ _ =>
          rw [Pervade.anyArray, List.any_cons]
          exact ih
      | array harray _ =>
          rw [Pervade.anyArray, List.any_cons, harray]
          rfl

theorem exists_wholes {xs ys : List Item} (h : List.Forall₂ Item.ShowsWhole xs ys)
    (hys : ys.any Item.isGrid = false) : ∃ (ss : List Scalar) (ns : List Int),
      xs = ss.map .scalar ∧ List.Forall₂ (fun s n => s.whole? = some n) ss ns := by
  induction h with
  | nil => exact ⟨[], [], rfl, .nil⟩
  | @cons x y xs ys hx _ ih =>
      rw [List.any_cons, Bool.or_eq_false_iff] at hys
      obtain ⟨ss, ns, rfl, hall⟩ := ih hys.2
      cases hx with
      | @number s _ n hn _ => exact ⟨s :: ss, n :: ns, rfl, .cons hn hall⟩
      | array _ _ => exact absurd hys.1 (by simp [Item.isGrid])

theorem exists_etypes (h : List.Forall₂ IsPervadable vs gs) :
    ∃ es, vs.mapM View.etype = .ok es ∧ ∀ e ∈ es, e.kind ≠ .char := by
  induction h with
  | nil => exact ⟨[], rfl, by simp⟩
  | cons hv _ ih =>
      obtain ⟨es, hes, hall⟩ := ih
      obtain ⟨_, hyields, _⟩ := hv.sound.isReady.exists_yields hv.render
      obtain ⟨e, he⟩ := hyields.etype
      refine ⟨e :: es, ?_, List.forall_mem_cons.mpr ⟨hv.pervious.kind_ne_char he, hall⟩⟩
      rw [List.mapM_cons, he, hes]
      rfl

theorem isReady_pervade_of {result : ResultType}
    (hs : (pervade f result vs).shape = .ok (.ofShape t)) (ht : t.IsProper) :
    (pervade f result vs).IsReady := by
  refine ⟨fun e he => ?_, fun p hp => (isSettled_pervade_prototype hp).settle_eq, fun g hg => ?_⟩
  · exact ⟨t, Except.ok.inj (he.symm.trans hs), ht⟩
  · obtain ⟨facts, hfacts⟩ := isComputed_pervade f result vs
    rw [hfacts] at hg
    cases hg

theorem yields_pervade_of {result : ResultType} {y : Int → Item} {cells : Gen Item}
    (hs : (pervade f result vs).shape = .ok (.ofShape t)) (ht : t.IsProper)
    (he : ∃ e, (pervade f result vs).etype = .ok e)
    (hcells : (pervade f result vs).generator = .ok cells)
    (hy : ∀ i, t.Holds i → cells.cell (.int i) >>= Item.settle = .ok (y i)) :
    (pervade f result vs).Yields t y := by
  refine ⟨⟨hs, he, cells, hcells, hy⟩, isReady_pervade_of hs ht, fun h0 => ?_⟩
  obtain ⟨e, he⟩ := he
  rw [prototype_pervade, he, hs]
  simp only [bind, Except.bind, Extents.size_ofShape, h0]
  cases e.kind <;> exact ⟨_, rfl⟩

/-- What a function makes of items that show whole numbers can be rendered if it can combine the
arrays among them. -/
theorem exists_settled_cell {xs ys : List Item} (h : List.Forall₂ Item.ShowsWhole xs ys)
    (hf : ComputesOn f xs.length F)
    (hinner : ys.any Item.isGrid = true →
      ∃ t y, (pervade f .numeric (xs.map Item.lift)).Yields t y) :
    ∃ y, pervadedCells f .numeric xs >>= Item.settle = .ok y := by
  have hany := anyArray_eq h
  cases hys : ys.any Item.isGrid with
  | true =>
      rw [hys] at hany
      obtain ⟨t, y, hyields⟩ := hinner hys
      obtain ⟨g, hr, _⟩ := hyields.exists_render
      have hcell : pervadedCells f .numeric xs =
          .ok (.view (pervade f .numeric (xs.map Item.lift))) := by
        rw [pervadedCells, hany]
        rfl
      rw [hcell]
      exact ⟨_, settle_of_render hr⟩
  | false =>
      rw [hys] at hany
      obtain ⟨ss, ns, rfl, hall⟩ := exists_wholes h hys
      rw [List.length_map] at hf
      have hcell : pervadedCells f .numeric (ss.map .scalar) = .ok (.int (F ns)) := by
        rw [pervadedCells, hany]
        exact hf ss ns hall rfl
      rw [hcell]
      exact ⟨.int (F ns), by simp [bind, Except.bind, Item.settle]⟩

/-- Arrays of whole numbers that fit together are combined to an array that can be rendered. -/
theorem exists_yields_pervade (hc : Grid.FitTogether gs) (h : List.Forall₂ IsPervadable vs gs)
    (hf : ComputesOn f vs.length F) :
    ∃ t y, Pervade.commonShape ((gs.map Grid.shape).map .ofShape) = .ok (.ofShape t) ∧
      (pervade f .numeric vs).Yields t y := by
  -- level by level: arrays that meet in the cells are combined in turn
  induction hc generalizing vs with
  | @intro gs t common _ ih =>
      obtain ⟨ps, hread, hshows⟩ := exists_readAs h
      obtain ⟨hmem, hshapes⟩ := Pervade.commonShape_spec common
      obtain ⟨hshape, cells, hcells, heach⟩ :=
        hread.generator_pervade f .numeric
        ((congrArg _ (extents_of_showsItems hshows)).trans common)
      obtain ⟨es, hes, hchar⟩ := exists_etypes h
      have hetype : ∃ e, (pervade f .numeric vs).etype = .ok e := by
        rw [etype_pervade, hes]
        exact ResultType.apply_numeric_all hchar
      have hsettled (i : Int) (hi : t.Holds i) :
          ∃ y, cells.cell (.int i) >>= Item.settle = .ok y := by
        obtain ⟨xs, hxs, hall⟩ := exists_takenAt hshows
          (fun g hg => hshapes _ (List.mem_map_of_mem hg)) hi
        have hlen : xs.length = vs.length := by
          rw [hall.length_eq, List.length_map, h.length_eq]
        rw [heach, hxs]
        refine exists_settled_cell hall (hlen ▸ hf) fun hany => ?_
        obtain ⟨y, hy, hgrid⟩ := List.any_eq_true.mp hany
        obtain ⟨g, hg, rfl⟩ := List.mem_map.mp hy
        have hlifts : List.Forall₂ IsPervadable (xs.map Item.lift)
            (gs.map fun g => (g.itemAt i).asGrid) := by
          rw [List.forall₂_map_right_iff] at hall
          rw [List.forall₂_map_left_iff, List.forall₂_map_right_iff]
          exact hall.imp fun _ _ hxy => hxy.isPervadable_lift
        obtain ⟨t', y', _, hyields⟩ := ih i hi ⟨g, hg, hgrid⟩ hlifts
          (by rwa [List.length_map, hlen])
        exact ⟨t', y', hyields⟩
      have hitem : Nonempty Item := ⟨.nothing⟩
      choose! y hy using hsettled
      have ht : t.IsProper := by
        obtain ⟨g, hg, rfl⟩ := List.mem_map.mp hmem
        exact isProper_of_showsItems hshows g hg
      exact ⟨t, y, common, yields_pervade_of hshape ht hetype hcells hy⟩

end View
end LazyApl
