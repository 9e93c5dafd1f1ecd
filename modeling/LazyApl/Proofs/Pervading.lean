import LazyApl.Primitive.Pervade
import LazyApl.Primitive.Function
import LazyApl.Proofs.CommonShapes
import LazyApl.Proofs.Pervious
import LazyApl.Proofs.SoundRendering
/-!
# Scalar functions pervade arrays that are not rendered

A function of whole numbers is carried into an array cell by cell, and into the arrays in its cells.
Carried into what an array renders to, it reaches every number. Carried into the array itself, it
does so exactly if the array is pervious: a number that is handed out as an array of its own is no
array to pervade, and no number to be applied to either.
-/
namespace LazyApl

open Outcome

namespace ResultType

theorem apply_numeric {e : EType} (h : e.kind ≠ .char) :
    ∃ u, numeric.apply (.ok [e]) = .ok u ∧ u.kind ≠ .char := by
  obtain ⟨k, low, high⟩ := e
  cases k with
  | char => exact absurd rfl h
  | _ => exact ⟨_, rfl, nofun⟩

theorem apply_numeric_char {e : EType} (h : e.kind = .char) :
    numeric.apply (.ok [e]) = .error (.domain .notNumbers) := by
  obtain ⟨k, low, high⟩ := e
  cases h
  rfl

end ResultType

namespace View

variable {v : View Item} {t : Shape} {f : CellFunction} {result : ResultType}

/-- What a function makes of a cell: it pervades an array, and is applied to anything else. -/
def pervadedCell (f : CellFunction) (result : ResultType) (x : Item) : Except Fault Item := do
  if ← x.isArray then return .view (pervade f result [x.lift]) else f [x]

/-- What a function makes of the items at one position. -/
def pervadedCells (f : CellFunction) (result : ResultType) (args : List Item) :
    Except Fault Item := do
  if ← Pervade.anyArray args then return .view (pervade f result (args.map Item.lift)) else f args

theorem shape_pervade (f : CellFunction) (result : ResultType) (vs : List (View Item)) :
    (pervade f result vs).shape = commonShape vs := by
  rw [pervade]
  rfl

theorem etype_pervade (f : CellFunction) (result : ResultType) (vs : List (View Item)) :
    (pervade f result vs).etype = result.apply (vs.mapM View.etype) := by
  rw [pervade]
  rfl

theorem generator_pervade (f : CellFunction) (result : ResultType) (vs : List (View Item)) :
    (pervade f result vs).generator = (do
      let _ ← (pervade f result vs).shape
      let gens ← Pervade.generators vs
      return .indexed fun i => Pervade.argumentsAt i gens >>= pervadedCells f result) := by
  rw [pervade]
  simp only [generator_computed, shape_computed, Lazy.get_keep]
  cases vs.mapM View.shape >>= Pervade.commonShape with
  | error e => rfl
  | ok t =>
      simp only [bind, Except.bind]
      split
      · rename_i he
        rw [he]
        rfl
      · rename_i gens he
        rw [he]
        refine congrArg (fun c => Except.ok (Gen.indexed c)) (funext fun i => ?_)
        split
        · rename_i ha
          rw [ha]
        · rename_i args ha
          rw [ha]
          simp only [pervadedCells]
          split
          · rename_i hb
            rw [hb]
            rfl
          · rename_i hb
            rw [hb]
            rfl
          · rename_i hb
            rw [hb]
            rfl

theorem prototype_pervade (f : CellFunction) (result : ResultType) (vs : List (View Item)) :
    (pervade f result vs).prototype = (do
      match (← (pervade f result vs).etype).kind with
      | .mixed =>
        if (← (← (pervade f result vs).shape).size).isZero then return .int 0
        else Item.fillOf (← (← (pervade f result vs).generator).cell 0)
      | .char => return .blank
      | _ => return .int 0) := by
  rw [pervade]
  rfl

theorem pervade_shape (f : CellFunction) (result : ResultType) (hs : v.shape = .ok (.ofShape t)) :
    (pervade f result [v]).shape = .ok (.ofShape t) := by
  rw [shape_pervade]
  simp [commonShape, hs, Pervade.commonShape_single, bind, Except.bind, pure, Except.pure]

theorem pervade_etype (f : CellFunction) (result : ResultType) (v : View Item) :
    (pervade f result [v]).etype = result.apply (do return [← v.etype]) := by
  rw [etype_pervade]
  simp only [List.mapM_cons, List.mapM_nil]
  rfl

theorem pervadedCells_single (f : CellFunction) (result : ResultType) (x : Item) :
    pervadedCells f result [x] = pervadedCell f result x := by
  have hany : Pervade.anyArray [x] = x.isArray := by
    simp only [Pervade.anyArray, bind, Except.bind, pure, Except.pure]
    cases x.isArray with
    | error e => rfl
    | ok b => cases b <;> rfl
  rw [pervadedCells, hany]
  rfl

theorem pervade_generator (f : CellFunction) (result : ResultType)
    (hs : v.shape = .ok (.ofShape t)) {gen : Gen Item} (hgen : v.generator = .ok gen) :
    ∃ cells, (pervade f result [v]).generator = .ok cells ∧ ∀ i, t.Holds i →
      cells.cell (.int i) = gen.cell (.int i) >>= pervadedCell f result := by
  have hgens : Pervade.generators [v] = .ok [(gen, (Number.int t.size).isOne)] := by
    simp [Pervade.generators, hgen, View.size, hs, bind, Except.bind, pure, Except.pure]
  refine ⟨.indexed fun i => Pervade.argumentsAt i [(gen, (Number.int t.size).isOne)] >>=
    pervadedCells f result, ?_, fun i hi => ?_⟩
  · rw [generator_pervade, pervade_shape f result hs, hgens]
    rfl
  -- An operand of a single cell is read at its only cell, which is then the place asked for.
  have hat : (if (Number.int t.size).isOne = true then 0 else Number.int i) = .int i := by
    by_cases h1 : t.size = 1
    · have h0 : i = 0 := by
        unfold Shape.Holds at hi
        omega
      simp [h1, h0]
    · simp [h1]
  rw [Gen.cell_indexed, Pervade.argumentsAt, hat]
  cases gen.cell (.int i) with
  | error e => rfl
  | ok x => exact pervadedCells_single f result x

theorem isComputed_pervade (f : CellFunction) (result : ResultType) (operands : List (View Item)) :
    (pervade f result operands).IsComputed := by
  rw [pervade]
  exact ⟨_, rfl⟩

theorem isSettled_pervade_prototype {operands : List (View Item)} {p : Item}
    (hp : (pervade f result operands).prototype = .ok p) : p.IsSettled := by
  rw [pervade] at hp
  simp only [prototype_computed] at hp
  obtain ⟨e, _, hp⟩ := bind_eq_ok.mp hp
  split at hp
  · obtain ⟨s, _, hp⟩ := bind_eq_ok.mp hp
    obtain ⟨n, _, hp⟩ := bind_eq_ok.mp hp
    split at hp
    · cases hp
      exact Item.isSettled_int 0
    · obtain ⟨gen, _, hp⟩ := bind_eq_ok.mp hp
      obtain ⟨x, _, hp⟩ := bind_eq_ok.mp hp
      obtain ⟨y, _, rfl⟩ := map_eq_ok.mp hp
      exact Item.isSettled_typify y
  · cases hp
    exact Item.isSettled_blank
  · cases hp
    exact Item.isSettled_int 0

theorem pervade_prototype_of_empty {e : EType} (hs : v.shape = .ok (.ofShape t)) (h0 : t.size = 0)
    (he : (pervade f result [v]).etype = .ok e) (hc : e.kind ≠ .char) :
    (pervade f result [v]).prototype = .ok (.int 0) := by
  have hshape := pervade_shape f result hs
  rw [pervade] at he hshape ⊢
  simp only [etype_computed, shape_computed, prototype_computed] at he hshape ⊢
  refine bind_eq_ok.mpr ⟨e, he, ?_⟩
  split
  · refine bind_eq_ok.mpr ⟨_, hshape, ?_⟩
    simp [h0, bind, Except.bind, pure, Except.pure]
  · rename_i hk
    exact absurd hk hc
  · rfl

theorem isReady_pervade (f : CellFunction) (result : ResultType)
    (hs : v.shape = .ok (.ofShape t)) (ht : t.IsProper) : (pervade f result [v]).IsReady := by
  refine ⟨fun e he => ?_, fun p hp => (isSettled_pervade_prototype hp).settle_eq, fun g hg => ?_⟩
  · exact ⟨t, Except.ok.inj (he.symm.trans (pervade_shape f result hs)), ht⟩
  · obtain ⟨facts, hfacts⟩ := isComputed_pervade f result [v]
    rw [hfacts] at hg
    cases hg

end View

namespace Item

mutual

/-- A function of whole numbers carried into an item to any depth. -/
def mapWhole (F : Int → Int) : Item → Item
  | scalar s => match s.whole? with
    | some n => int (F n)
    | none => scalar s
  | array ⟨shape, items, _⟩ =>
    array ⟨shape, mapWholeAll F items, if items.isEmpty then some (int 0) else none⟩
  | x => x

/-- A function of whole numbers carried into the items of a list. -/
def mapWholeAll (F : Int → Int) : List Item → List Item
  | [] => []
  | x :: xs => mapWhole F x :: mapWholeAll F xs

end

theorem mapWholeAll_eq (F : Int → Int) (xs : List Item) :
    mapWholeAll F xs = xs.map (mapWhole F) := by
  induction xs with
  | nil => rfl
  | cons x xs ih => rw [mapWholeAll, ih, List.map_cons]

theorem isGrid_mapWhole (F : Int → Int) (x : Item) : (x.mapWhole F).isGrid = x.isGrid := by
  cases x with
  | scalar s =>
      rw [mapWhole]
      split <;> rfl
  | _ => simp only [mapWhole, isGrid]

end Item

namespace Grid

/-- A function of whole numbers carried into the items of an array. -/
def mapWhole (F : Int → Int) (g : Grid Item) : Grid Item :=
  ⟨g.shape, g.items.map (Item.mapWhole F), if g.items.isEmpty then some (.int 0) else none⟩

theorem Collects.isEmpty_items {g : Grid Item} {t : Shape} {f : Int → Item} (h : g.Collects t f)
    (ht : t.IsProper) : g.items.isEmpty = decide (t.size = 0) := by
  have hlength := h.length_eq
  have hsize := Shape.size_nonneg ht
  have hiff : g.items.isEmpty = true ↔ t.size = 0 := by
    rw [List.isEmpty_iff, ← List.length_eq_zero_iff]
    omega
  rw [Bool.eq_iff_iff, hiff, decide_eq_true_iff]

end Grid

namespace Item

theorem mapWhole_array (F : Int → Int) (g : Grid Item) :
    (array g).mapWhole F = array (g.mapWhole F) := by
  obtain ⟨shape, items, fill⟩ := g
  rw [mapWhole, mapWholeAll_eq]
  rfl

theorem unboxed_mapWhole (F : Int → Int) {g : Grid Item} (hg : (array g).IsKept) :
    (g.mapWhole F).unboxed = array (g.mapWhole F) := by
  obtain ⟨shape, items, fill⟩ := g
  have hstored := hg.stored_eq
  rw [stored_array] at hstored
  cases shape with
  | cons n s => rfl
  | nil =>
      cases items with
      | nil => rfl
      | cons x xs =>
          cases xs with
          | cons y ys => rfl
          | nil =>
              have hx : x.isGrid = true := by
                by_contra hx
                simp only [Grid.unboxed, if_neg hx] at hstored
                rw [hstored] at hx
                exact hx rfl
              have hx' : (x.mapWhole F).isGrid = true := (isGrid_mapWhole F x).trans hx
              simp [Grid.unboxed, Grid.mapWhole, hx']

theorem not_isWhole_text (u : String) : ¬ (text u).stored.IsWhole := by
  intro h
  by_cases hu : u.length = 1
  · simp only [stored, if_pos hu] at h
    cases h with
    | number h => cases h
  · simp only [stored, if_neg hu, characters] at h
    cases h with
    | array items fill =>
        cases hchars : u.toList with
        | nil => exact fill (by simp [hchars]) rfl
        | cons c cs =>
            cases items (text (String.ofList [c])) (by simp [hchars]) with
            | number h => cases h

theorem whole_of_stored {s : Scalar} {k : Kind} (h : ((scalar s).countedFor k).stored.IsWhole)
    (F : Int → Int) : ∃ n, s.whole? = some n ∧
      ((scalar s).countedFor k).stored.mapWhole F = int (F n) := by
  cases s with
  | text u =>
      rw [countedFor_eq_self (by simp)] at h
      exact absurd h (not_isWhole_text u)
  | int n => exact ⟨n, rfl, by simp [countedFor, counted, stored, mapWhole]⟩
  | truth b =>
      refine ⟨if b then 1 else 0, rfl, ?_⟩
      unfold countedFor
      split <;> simp [counted, stored, mapWhole, Scalar.whole?]
  | _ =>
      rw [countedFor_eq_self (by simp)] at h
      cases h with
      | number h => cases h

end Item

namespace View

variable {v : View Item} {t : Shape} {f : CellFunction} {F : Int → Int}

/-- The function answers on whole numbers with whole numbers. -/
def Computes (f : CellFunction) (F : Int → Int) : Prop :=
  ∀ s n, s.whole? = some n → f [.scalar s] = .ok (.int (F n))

/-- The function is defined on simple values only. -/
def RefusesArrays (f : CellFunction) : Prop :=
  ∀ y : Item, (∀ s, y ≠ .scalar s) → ∀ z, f [y] ≠ .ok z

/-- A cell of whole numbers is pervaded to what the function makes of it once it is rendered. -/
theorem pervadedCell_spec {x y : Item} {k : Kind} (hx : x.IsSound) (hy : x.settle = .ok y)
    (hw : (y.countedFor k).stored.IsWhole) (hf : Computes f F)
    (harray : (∀ s, x ≠ .scalar s) → x.isArray = .ok true)
    (hinner : (∀ s, x ≠ .scalar s) → ∀ g, (Item.view x.lift).render = .ok (.array g) →
      (Item.array g).IsWhole →
      (Item.view (pervade f .numeric [x.lift])).render = .ok (.array (g.mapWhole F))) :
    pervadedCell f .numeric x >>= Item.settle = .ok ((y.countedFor k).stored.mapWhole F) ∧
      ∀ u, (((y.countedFor k).stored.mapWhole F).countedFor u).stored =
        (y.countedFor k).stored.mapWhole F := by
  by_cases hs : ∃ s, x = .scalar s
  · obtain ⟨s, rfl⟩ := hs
    simp only [Item.settle, Except.ok.injEq] at hy
    subst hy
    obtain ⟨n, hn, hmap⟩ := Item.whole_of_stored hw F
    rw [hmap]
    refine ⟨?_, fun u => ?_⟩
    · simp [pervadedCell, Item.isArray, hf s n hn, Item.settle, bind, Except.bind]
    · rw [Item.countedFor_eq_self (by simp)]
      rfl
  · have hns : ∀ s, x ≠ .scalar s := fun s hx => hs ⟨s, hx⟩
    have ha := harray hns
    obtain ⟨g, rfl, hkept, hr⟩ := hx.exists_array ha hy
    have hstored : ((Item.array g).countedFor k).stored = .array g := by
      rw [Item.countedFor_eq_self (by simp)]
      exact hkept.stored_eq
    rw [hstored] at hw ⊢
    rw [Item.mapWhole_array]
    have hbox := Item.unboxed_mapWhole F hkept
    refine ⟨?_, fun u => ?_⟩
    · have hsettle := settle_of_render (hinner hns g hr hw)
      rw [hbox] at hsettle
      simp only [pervadedCell, ha, bind, Except.bind, if_true, pure, Except.pure]
      exact hsettle
    · rw [Item.countedFor_eq_self (by simp), Item.stored_array, hbox]

/-- A computed array whose items are stored as they are renders to just these. -/
theorem render_of_stored {p : Item} {u : EType} {y : Int → Item} (hv : v.IsReady)
    (hc : v.IsComputed) (hy : v.Offers t y) (hu : v.etype = .ok u)
    (hp : t.size = 0 → v.prototype = .ok p)
    (hstored : ∀ i, t.Holds i → ((y i).countedFor u.kind).stored = y i) :
    (Item.view v).render =
      .ok (.array ⟨t, (upTo t.size).map y, if t.size = 0 then some p else none⟩) := by
  have hfill : (if t.size = 0 then some <$> v.prototype else .ok none) =
      Except.ok (if t.size = 0 then some p else none) := by
    split
    · rename_i h0
      rw [hp h0]
      rfl
    · rfl
  rw [hc.render_eq, Item.collect_settled hv hy.shape]
  simp only [Item.items_of_offers hy, hu, hfill, bind, Except.bind]
  have hof : Grid.of t (((upTo t.size).map y).map (Item.countedFor u.kind))
      (if t.size = 0 then some p else none) =
        ⟨t, (upTo t.size).map y, if t.size = 0 then some p else none⟩ := by
    unfold Grid.of
    rw [List.map_map, List.map_map]
    congr 1
    exact List.map_congr_left fun i hi => hstored i (mem_upTo.mp hi)
  rw [hof]
  rfl

/-- A function of whole numbers carries over to what an array renders to. -/
theorem IsPervious.render_pervade (h : v.IsPervious) (hv : (Item.view v).IsSound) {g : Grid Item}
    (hr : (Item.view v).render = .ok (.array g)) (hw : (Item.array g).IsWhole)
    (hf : Computes f F) :
    (Item.view (pervade f .numeric [v])).render = .ok (.array (g.mapWhole F)) := by
  induction h generalizing g with
  | @intro v hetype harray _ ih =>
      obtain ⟨y, hyields, hg⟩ := hv.isReady.exists_yields hr
      obtain ⟨k, hk⟩ := hg.exists_items
      obtain ⟨gen, hgen, hcell⟩ := hyields.cells
      obtain ⟨e, he⟩ := hyields.etype
      have hs := hyields.shape
      obtain ⟨u, hu, hchar⟩ := ResultType.apply_numeric (hetype e he)
      have hu : (pervade f .numeric [v]).etype = .ok u := by
        rw [pervade_etype, he]
        exact hu
      obtain ⟨cells, hcells, heach⟩ := pervade_generator f .numeric hs hgen
      have hitems : ∀ z ∈ g.items, z.IsWhole := by
        cases hw with
        | array items _ => exact items
      have hpervaded (i : Int) (hi : g.shape.Holds i) :
          cells.cell (.int i) >>= Item.settle = .ok (((y i).countedFor (k i)).stored.mapWhole F) ∧
          ∀ u, ((((y i).countedFor (k i)).stored.mapWhole F).countedFor u).stored =
            ((y i).countedFor (k i)).stored.mapWhole F := by
        obtain ⟨x, hx, hsettle⟩ := bind_eq_ok.mp (hcell i hi)
        have hhas : v.Has x := ⟨_, gen, i, hs, hgen, hi, hx⟩
        have hsound : x.IsSound := by
          cases hv with
          | view _ cells => exact cells gen _ x hgen hx
        have hwhole : ((y i).countedFor (k i)).stored.IsWhole := by
          refine hitems _ ?_
          rw [hk]
          exact List.mem_map_of_mem (mem_upTo.mpr hi)
        rw [heach i hi, hx]
        exact pervadedCell_spec hsound hsettle hwhole hf (harray x hhas) fun hns g' hr' hw' =>
          ih x hhas hns (hsound.lift (harray x hhas hns)) hr' hw'
      have hoffers : (pervade f .numeric [v]).Offers g.shape fun i =>
          ((y i).countedFor (k i)).stored.mapWhole F :=
        ⟨pervade_shape f .numeric hs, ⟨u, hu⟩, cells, hcells, fun i hi => (hpervaded i hi).1⟩
      have hrender := render_of_stored (isReady_pervade f .numeric hs hyields.isProper)
        (isComputed_pervade f .numeric [v]) hoffers hu
        (fun h0 => pervade_prototype_of_empty hs h0 hu hchar) fun i hi => (hpervaded i hi).2 u.kind
      rw [hrender]
      have hempty := hg.isEmpty_items hyields.isProper
      unfold Grid.mapWhole
      rw [hempty, hk, List.map_map]
      simp [Function.comp_def]

variable {g : Grid Item}

theorem exists_shape_of_render_pervade {result : ResultType}
    (hr : (Item.view (pervade f result [v])).render = .ok (.array g)) : ∃ e, v.shape = .ok e := by
  have hshape := shape_of_render hr
  rw [pervade] at hshape
  obtain ⟨shapes, hshapes, _⟩ := bind_eq_ok.mp hshape
  rw [List.mapM_cons] at hshapes
  obtain ⟨e, he, _⟩ := bind_eq_ok.mp hshapes
  exact ⟨e, he⟩

theorem IsReady.of_render_pervade (hv : v.IsReady)
    (hr : (Item.view (pervade f .numeric [v])).render = .ok (.array g)) :
    (∀ e, v.etype = .ok e → e.kind ≠ .char) ∧
      ∀ x, v.Has x → ∃ y, pervadedCell f .numeric x >>= Item.settle = .ok y := by
  obtain ⟨e, he⟩ := exists_shape_of_render_pervade hr
  obtain ⟨t, rfl, ht⟩ := hv.shape e he
  obtain ⟨y, hy, _⟩ := (isReady_pervade f .numeric he ht).exists_yields hr
  have hsame := Extents.ofShape_inj (Except.ok.inj (hy.shape.symm.trans (pervade_shape f _ he)))
  constructor
  · intro e he hc
    obtain ⟨u, hu⟩ := hy.etype
    rw [pervade_etype, he] at hu
    cases hu.symm.trans (ResultType.apply_numeric_char hc)
  · rintro x ⟨t', gen, i, hs, hgen, hi, hx⟩
    obtain rfl := Extents.ofShape_inj (Except.ok.inj (he.symm.trans hs))
    obtain ⟨cells, hcells, heach⟩ := pervade_generator f .numeric hs hgen
    obtain ⟨cells', hcells', hcell⟩ := hy.cells
    obtain rfl := Except.ok.inj (hcells.symm.trans hcells')
    have hsettle := hcell i (hsame ▸ hi)
    rw [heach i hi, hx] at hsettle
    exact ⟨y i, hsettle⟩

/-- An array is pervious if what pervades it can be rendered and the arrays that it hands out are
pervious. -/
theorem IsReady.isPervious (hv : v.IsReady)
    (hf : RefusesArrays f)
    (hr : (Item.view (pervade f .numeric [v])).render = .ok (.array g))
    (h : ∀ x, v.Has x → x.isArray = .ok true → ∀ g,
      (Item.view (pervade f .numeric [x.lift])).render = .ok (.array g) → x.lift.IsPervious) :
    v.IsPervious := by
  obtain ⟨hetype, hcells⟩ := hv.of_render_pervade hr
  refine isPervious_of_has hetype fun x hx hns => ?_
  obtain ⟨y, hy⟩ := hcells x hx
  obtain ⟨z, hz, hy⟩ := bind_eq_ok.mp hy
  obtain ⟨b, hb, hz⟩ := bind_eq_ok.mp hz
  cases b with
  | false => exact absurd hz (hf x hns z)
  | true =>
      cases hz
      obtain ⟨g, hg, _⟩ := render_of_settle hy
      exact ⟨hb, h x hx hb g hg⟩

theorem isPervious_lift {x : Item} (hx : x.IsSound)
    (hf : RefusesArrays f) (ha : x.isArray = .ok true)
    (hr : (Item.view (pervade f .numeric [x.lift])).render = .ok (.array g)) :
    x.lift.IsPervious := by
  induction hx generalizing g with
  | scalar s => simp [Item.isArray] at ha
  | list xs => simp [Item.isArray] at ha
  | array ready _ ih => exact ready.isPervious hf hr fun y hy ha g hg => ih y hy.mem ha hg
  | view ready _ ih =>
      refine ready.isPervious hf hr fun y hy ha g hg => ?_
      obtain ⟨_, gen, i, _, hgen, _, hx⟩ := hy
      exact ih gen _ y hgen hx ha hg

/-- Functions of whole numbers pervade an array, or are stopped, by what it hands out. A function
carries over to what an array renders to if the array is pervious. If the array is at hand nothing
else is asked of it. A function that refuses all but simple values is stopped by any other array. -/
theorem pervade_render (hv : (Item.view v).IsSound)
    (hr : (Item.view v).render = .ok (.array g)) (hw : (Item.array g).IsWhole)
    (hf : Computes f F) :
    (Item.view (pervade f .numeric [ofGrid g])).render = .ok (.array (g.mapWhole F)) ∧
    (v.IsPervious →
      (Item.view (pervade f .numeric [v])).render = .ok (.array (g.mapWhole F))) ∧
    (RefusesArrays f →
      ∀ h, (Item.view (pervade f .numeric [v])).render = .ok (.array h) → v.IsPervious) := by
  have hg := hv.render hr
  refine ⟨?_, fun h => h.render_pervade hv hr hw hf, fun hrefuse h hh => ?_⟩
  · have hsound : (Item.view (ofGrid g)).IsSound := by
      cases hg with
      | array ready items => exact Item.isSound_ofGrid ready items
    exact (isPervious_ofGrid hg hw).render_pervade hsound rfl hw hf
  · cases hv with
    | view ready cells =>
        refine ready.isPervious hrefuse hh fun x hx ha g hg => ?_
        obtain ⟨_, gen, i, _, hgen, _, hx⟩ := hx
        exact isPervious_lift (cells gen _ x hgen hx) hrefuse ha hg

theorem computes_neg : Computes (CellFunction.monadic Item.neg) fun n => -n := by
  intro s n h
  cases s with
  | int m =>
      cases h
      rfl
  | truth b =>
      cases h
      rfl
  | _ => cases h

theorem refusesArrays_neg : RefusesArrays (CellFunction.monadic Item.neg) := by
  intro y hy z
  cases y with
  | scalar s => exact absurd rfl (hy s)
  | _ => exact nofun

def numberAndPair : View Item :=
  ofGrid (Grid.ofList [.int 3, .array (Grid.ofInts [6, 7])])

/-- The number has been replaced by an item of the array as a pick hands it out. -/
def reassigned (k : Int) : View Item :=
  Item.replaceAlong ⟨some (.view (Item.pickAlong numberAndPair [[k]] (.int 0))), none⟩ (.int 0)
    [[0]] numberAndPair

theorem pair_isLiteral : (Item.list [.int 6, .int 7]).IsLiteral := by
  have number (n : Int) : (Item.int n).IsLiteral := .scalar (.int n)
  exact .list (by simp [number])

theorem numberAndPair_isSound : (Item.view numberAndPair).IsSound := by
  have number : (Item.int 3).IsLiteral := .scalar (.int 3)
  have h : (Item.list [.int 3, .list [.int 6, .int 7]]).IsLiteral :=
    .list (by simp [number, pair_isLiteral])
  exact h.isSound_lift

theorem pair_isWhole : (Item.array (Grid.ofInts [6, 7])).IsWhole := by
  refine .array (fun y hy => ?_) nofun
  rcases List.mem_pair.mp hy with rfl | rfl <;> exact .number rfl

theorem numberAndPair_isWhole :
    (Item.array ⟨[2], [.int 3, .array (Grid.ofInts [6, 7])], none⟩).IsWhole := by
  refine .array (fun y hy => ?_) nofun
  rcases List.mem_pair.mp hy with rfl | rfl
  · exact .number rfl
  · exact pair_isWhole

theorem reassigned_isSound {k : Int} {x : Item} (hx : x.IsSound)
    (h : Path.target (.int 0) 0 [[k]] (.view numberAndPair) = .ok x) :
    (Item.view (reassigned k)).IsSound :=
  numberAndPair_isSound.replaceAlong (hx.pickAlong h)

theorem reassigned_isPervious (k : Int) : (reassigned k).IsPervious ↔
    (Item.view (Item.pickAlong numberAndPair [[k]] (.int 0))).isArray = .ok true ∧
      (Item.pickAlong numberAndPair [[k]] (.int 0)).IsPervious := by
  have base : numberAndPair.IsPervious :=
    isPervious_ofGrid (numberAndPair_isSound.render rfl) numberAndPair_isWhole
  have leads : Path.Leads 0 [[0]] (.view numberAndPair) (.int 3) :=
    .cons (by simp) ⟨rfl, .cons ⟨le_rfl, by decide⟩ .nil, rfl⟩ (.nil _)
  rw [reassigned, Item.isPervious_replaceAlong rfl base leads (by simp) rfl]
  exact ⟨fun h => h (by simp [Replacement.placed]), fun h _ => h⟩

/-- The pair is pervaded where it has been put in place of the number. The number is not, since a
pick hands it out as an array of its own. -/
theorem reassigned_pervade :
    (∃ g, (Item.view (reassigned 0)).render = .ok (.array g) ∧
      (Item.view (pervade (CellFunction.monadic Item.neg) .numeric [ofGrid g])).render =
        .ok (.array (g.mapWhole fun n => -n)) ∧
      ∀ h, (Item.view (pervade (CellFunction.monadic Item.neg) .numeric [reassigned 0])).render ≠
        .ok (.array h)) ∧
    ∃ g, (Item.view (reassigned 1)).render = .ok (.array g) ∧
      (Item.view (pervade (CellFunction.monadic Item.neg) .numeric [reassigned 1])).render =
        .ok (.array (g.mapWhole fun n => -n)) := by
  have first : (Item.view (reassigned 0)).render =
      .ok (.array ⟨[2], [.int 3, .array (Grid.ofInts [6, 7])], none⟩) := rfl
  have second : (Item.view (reassigned 1)).render =
      .ok (.array ⟨[2], [.array (Grid.ofInts [6, 7]), .array (Grid.ofInts [6, 7])], none⟩) := rfl
  constructor
  · have sound := reassigned_isSound (k := 0) (.scalar (.int 3)) rfl
    obtain ⟨rendered, _, stopped⟩ :=
      pervade_render sound first numberAndPair_isWhole computes_neg
    refine ⟨_, first, rendered, fun h hh => ?_⟩
    have scalar : (Item.view (Item.pickAlong numberAndPair [[0]] (.int 0))).isArray =
        .ok false := rfl
    have pervious := (reassigned_isPervious 0).mp (stopped refusesArrays_neg h hh)
    exact nomatch scalar.symm.trans pervious.1
  · have sound := reassigned_isSound (k := 1) pair_isLiteral.stored_vectorOf.2 rfl
    have whole : (Item.array
        ⟨[2], [.array (Grid.ofInts [6, 7]), .array (Grid.ofInts [6, 7])], none⟩).IsWhole := by
      refine .array (fun y hy => ?_) nofun
      rcases List.mem_pair.mp hy with rfl | rfl <;> exact pair_isWhole
    have picked : (Item.pickAlong numberAndPair [[1]] (.int 0)).IsPervious := by
      have answers : (Item.pickAlong numberAndPair [[1]] (.int 0)).AnswersAs
          (ofGrid (Grid.ofInts [6, 7])) := ⟨⟨_, rfl⟩, rfl, rfl, rfl, rfl⟩
      exact answers.isPervious (isPervious_ofGrid pair_isLiteral.stored_vectorOf.2 pair_isWhole)
    have pervious := (reassigned_isPervious 1).mpr ⟨rfl, picked⟩
    exact ⟨_, second,
      (pervade_render sound second whole computes_neg).2.1 pervious⟩

end View
end LazyApl
