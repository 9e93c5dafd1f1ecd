import LazyApl.Proofs.Pervading
/-!
# Arrays that functions of whole numbers pervade

An array is pervadable if it is sound and pervious and renders to whole numbers at any depth. What
it hands out is a whole number or an array of the same kind, so a statement about such arrays goes
down from an array to the arrays in it. Every array of whole numbers at hand is of this kind.
-/
namespace LazyApl

open Outcome

namespace View

/-- An array that functions of whole numbers pervade, and what it renders to. -/
structure IsPervadable (v : View Item) (g : Grid Item) : Prop where
  sound : (Item.view v).IsSound
  pervious : v.IsPervious
  render : (Item.view v).render = .ok (.array g)
  whole : (Item.array g).IsWhole

end View

namespace Item

/-- An item as it is handed out and as it is rendered: both are the same whole number, or an array
that functions pervade is rendered. -/
inductive ShowsWhole : Item → Item → Prop
  | number {s s' : Scalar} {n : Int} (h : s.whole? = some n) (h' : s'.whole? = some n) :
      ShowsWhole (scalar s) (scalar s')
  | array {x : Item} {g : Grid Item} (isArray : x.isArray = .ok true)
      (h : x.lift.IsPervadable g) : ShowsWhole x (array g)

theorem exists_stored_of_whole {s : Scalar} {k : Kind}
    (h : ((scalar s).countedFor k).stored.IsWhole) :
    ∃ s' n, ((scalar s).countedFor k).stored = scalar s' ∧ s.whole? = some n ∧
      s'.whole? = some n := by
  obtain ⟨n, hn, _⟩ := whole_of_stored h id
  cases s with
  | int m => exact ⟨.int m, n, by simp [countedFor, counted, stored], hn, hn⟩
  | truth b =>
      unfold countedFor
      split
      · exact ⟨_, n, rfl, hn, hn⟩
      · exact ⟨_, n, rfl, hn, hn⟩
  | _ => cases hn

/-- What is an array as an item is one as a view. -/
theorem IsSound.isArray_lift {x : Item} (hx : x.IsSound) (ha : x.isArray = .ok true) :
    (Item.view x.lift).isArray = .ok true := by
  cases hx with
  | scalar s => simp [isArray] at ha
  | list xs => simp [isArray] at ha
  | @array g ready _ =>
      simp only [isArray, Except.ok.injEq, Bool.not_eq_true'] at ha
      have hbox := unboxed_of_isBox ha
      have harray : (Item.view (View.ofGrid g)).isArray = .ok g.unboxed.stored.isGrid :=
        View.isArray_ofGrid (ready.kept g rfl)
      have hstored : (Item.array g).stored = .array g := (stored_array g).trans hbox
      rw [hbox, hstored] at harray
      exact harray
  | view _ _ => exact ha

end Item

namespace View

variable {v w : View Item} {g : Grid Item} {f : CellFunction} {F : Int → Int}

theorem isPervadable_ofGrid (hs : (Item.array g).IsSound) (hw : (Item.array g).IsWhole) :
    (ofGrid g).IsPervadable g := by
  refine ⟨?_, isPervious_ofGrid hs hw, rfl, hw⟩
  cases hs with
  | array ready items => exact Item.isSound_ofGrid ready items

/-- What an array of this kind hands out is a whole number or an array of this kind. -/
theorem IsPervadable.cells (h : v.IsPervadable g) :
    v.shape = .ok (.ofShape g.shape) ∧ g.shape.IsProper ∧ ∃ gen, v.generator = .ok gen ∧
      ∀ i, g.shape.Holds i → ∃ x y, gen.cell (.int i) = .ok x ∧ x.IsSound ∧
        g.items[i.toNat]? = some y ∧ x.ShowsWhole y := by
  obtain ⟨y, hyields, hg⟩ := h.sound.isReady.exists_yields h.render
  obtain ⟨gen, hgen, hcell⟩ := hyields.cells
  refine ⟨hyields.shape, hyields.isProper, gen, hgen, fun i hi => ?_⟩
  obtain ⟨x, hx, hsettle⟩ := bind_eq_ok.mp (hcell i hi)
  obtain ⟨k, hk⟩ := hg.cells i hi
  have hsound : x.IsSound := by
    cases h.sound with
    | view _ cells => exact cells gen _ x hgen hx
  have hwhole : ((y i).countedFor k).stored.IsWhole := by
    cases h.whole with
    | array items _ => exact items _ (List.mem_of_getElem? hk)
  refine ⟨x, _, hx, hsound, hk, ?_⟩
  by_cases hs : ∃ s, x = .scalar s
  · obtain ⟨s, rfl⟩ := hs
    simp only [Item.settle, Except.ok.injEq] at hsettle
    rw [← hsettle] at hwhole ⊢
    obtain ⟨s', n, hstored, hn, hn'⟩ := Item.exists_stored_of_whole hwhole
    rw [hstored]
    exact .number hn hn'
  · obtain ⟨harray, hpervious⟩ :=
      h.pervious.of_has ⟨_, gen, i, hyields.shape, hgen, hi, hx⟩ fun s hx => hs ⟨s, hx⟩
    obtain ⟨g', hg', hkept, hr⟩ := hsound.exists_array harray hsettle
    rw [hg', Item.countedFor_eq_self (by simp), hkept.stored_eq] at hwhole ⊢
    exact .array harray ⟨hsound.lift harray, hpervious, hr, hwhole⟩

end View
end LazyApl
