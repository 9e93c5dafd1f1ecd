import LazyApl.Platform.Usual
import LazyApl.Proofs.Combining
import LazyApl.Proofs.Renumbering
/-!
# Scalar functions under transforms

A transform that shows cells only takes the same positions from all arrays of one shape. So a scalar
function can be carried into arrays before or after a transform of them: at every position it meets
the same items.
-/
namespace LazyApl

open Outcome

namespace View

variable {vs ws : List (View Item)} {gs : List (Grid Item)} {ps qs : List (Shape × Gen Item)}
  {t u : Shape} {steps : List Step} {f : CellFunction} {result : ResultType}
  {F : List Int → Int} {p : Int → Int}

/-- The cells of the one list of arrays are those of the other list at some positions. -/
def TakesFrom (u t : Shape) (p : Int → Int) (q q' : Shape × Gen Item) : Prop :=
  q.1 = u ∧ q'.1 = t ∧ ∀ i, u.Holds i → q.2.cell (.int i) = q'.2.cell (.int (p i))

/-- Where every cell is one of the other array, a single cell is the one of a single cell, so both
are taken at the same position. -/
theorem takenAt_eq (h : List.Forall₂ (TakesFrom u t p) qs ps)
    (hp : ∀ i, u.Holds i → t.Holds (p i)) {i : Int} (hi : u.Holds i) :
    takenAt qs i = takenAt ps (p i) := by
  have single {s : Shape} {j : Int} (hj : s.Holds j) : (if s.size = 1 then 0 else j) = j := by
    split
    · unfold Shape.Holds at hj
      omega
    · rfl
  induction h with
  | nil => rfl
  | cons hq _ ih =>
      obtain ⟨hu, ht, hcell⟩ := hq
      rw [takenAt, takenAt] at ih ⊢
      rw [List.mapM_cons, List.mapM_cons, ih, hu, ht, single hi, single (hp i hi), hcell i hi]

theorem ReadAs.commonShape (h : ReadAs vs ps) (hv : ∀ v ∈ vs, v.shape = .ok (.ofShape t))
    (hne : vs ≠ []) : Pervade.commonShape (ps.map fun q => .ofShape q.1) = .ok (.ofShape t) := by
  have hshapes : vs.mapM View.shape = .ok ((vs.map fun _ => t).map .ofShape) := by
    rw [List.map_map]
    exact mapM_ok hv
  rw [Except.ok.inj (h.mapM_shape.symm.trans hshapes)]
  refine Pervade.commonShape_of_forall (by simpa using hne) fun s hs => ?_
  obtain ⟨_, _, rfl⟩ := List.mem_map.mp hs
  rfl

/-- Arrays of one shape, each standing on a root. -/
def AllStand (vs : List (View Item)) (t : Shape) : Prop :=
  ∀ v ∈ vs, ∃ root r, StandsOn root r v t

theorem AllStand.shape (h : AllStand vs t) : ∀ v ∈ vs, v.shape = .ok (.ofShape t) := by
  intro v hv
  obtain ⟨root, r, hstands⟩ := h v hv
  exact hstands.shape_eq

theorem AllStand.isProper (h : AllStand vs t) (hne : vs ≠ []) : t.IsProper := by
  obtain ⟨v, hv⟩ := List.exists_mem_of_ne_nil vs hne
  obtain ⟨root, r, hstands⟩ := h v hv
  exact (hstands.stands.keeps Item.fillOf).proper

theorem AllStand.through (h : AllStand vs t) (ht : t.IsProper)
    (hsteps : Tower.Renumbers t steps u) : AllStand (vs.map (·.through steps)) u := by
  intro w hw
  obtain ⟨v, hv, rfl⟩ := List.mem_map.mp hw
  obtain ⟨root, r, hstands⟩ := h v hv
  obtain ⟨_, _, _, hall⟩ := exists_positions hsteps ht
  exact ⟨root, r, (hall hstands).1⟩

theorem exists_readAs_through (h : AllStand vs t) (hread : ReadAs vs ps)
    (hall : ∀ {root : Root Item} {r : Shape} {v : View Item}, StandsOn root r v t →
      StandsOn root r (v.through steps) u ∧ (v.through steps).Renumbered v u p) :
    ∃ qs, ReadAs (vs.map (·.through steps)) qs ∧ List.Forall₂ (TakesFrom u t p) qs ps := by
  induction hread with
  | nil => exact ⟨[], .nil, .nil⟩
  | @cons v q vs ps hv _ ih =>
      obtain ⟨⟨root, r, hstands⟩, hrest⟩ := List.forall_mem_cons.mp h
      obtain ⟨qs, hqs, htakes⟩ := ih hrest
      obtain ⟨habove, hrenumbered⟩ := hall hstands
      obtain ⟨cells, hcells, heach⟩ := hrenumbered.cells _ hv.2
      have hq : q.1 = t := Extents.ofShape_inj (Except.ok.inj (hv.1.symm.trans hstands.shape_eq))
      exact ⟨(u, cells) :: qs, .cons ⟨habove.shape_eq, hcells⟩ hqs, .cons ⟨rfl, hq, heach⟩ htakes⟩

/-- A scalar function of transformed arrays has the same cells, item by item and failure by failure,
as the transformed result of the function. This holds for every function of any number of items. -/
theorem pervade_through (hne : vs ≠ []) (h : AllStand vs t) (hread : ReadAs vs ps)
    (hsteps : Tower.Renumbers t steps u) (f : CellFunction) (result : ResultType) :
    (pervade f result vs).shape = .ok (.ofShape t) ∧
      (pervade f result (vs.map (·.through steps))).shape = .ok (.ofShape u) ∧
      ((pervade f result vs).through steps).shape = .ok (.ofShape u) ∧
      ∃ cells cells', (pervade f result (vs.map (·.through steps))).generator = .ok cells ∧
        ((pervade f result vs).through steps).generator = .ok cells' ∧
        ∀ i, u.Holds i → cells.cell (.int i) = cells'.cell (.int i) := by
  have ht := h.isProper hne
  obtain ⟨_, p, hp, hall⟩ := exists_positions hsteps ht
  obtain ⟨qs, hqs, htakes⟩ := exists_readAs_through h hread hall
  have hthrough : vs.map (·.through steps) ≠ [] := by simpa using hne
  obtain ⟨hshape, cells, hcells, heach⟩ :=
    hqs.generator_pervade f result (hqs.commonShape (h.through ht hsteps).shape hthrough)
  obtain ⟨hbelow, gen, hgen, hpervaded⟩ :=
    hread.generator_pervade f result (hread.commonShape h.shape hne)
  obtain ⟨hstands, hrenumbered⟩ :=
    hall ((isComputed_pervade f result vs).standsOn hbelow ht)
  obtain ⟨cells', hcells', htaken⟩ := hrenumbered.cells gen hgen
  refine ⟨hbelow, hshape, hstands.shape_eq, cells, cells', hcells, hcells', fun i hi => ?_⟩
  rw [heach, htaken i hi, hpervaded, takenAt_eq htakes hp hi]

theorem Yields.exists_prototype {y : Int → Item} (h : (pervade f result vs).Yields t y) :
    ∃ q, (pervade f result vs).prototype = .ok q := by
  obtain ⟨e, he⟩ := h.etype
  obtain ⟨gen, hgen, hcell⟩ := h.cells
  by_cases h0 : t.size = 0
  · exact h.prototype h0
  · rw [prototype_pervade, he, h.shape, hgen]
    have hfirst : t.Holds 0 := ⟨le_rfl, by
      have := Shape.size_nonneg h.isProper
      omega⟩
    obtain ⟨x, hx, hsettle⟩ := bind_eq_ok.mp (hcell 0 hfirst)
    have hzero : gen.cell 0 = .ok x := hx
    simp only [bind, Except.bind, Extents.size_ofShape, Number.isZero_int, beq_iff_eq, h0, if_false,
      hzero, Item.fillOf, hsettle]
    cases e.kind <;> exact ⟨_, rfl⟩

/-- What an array yields, another one yields that shows its cells at some positions. -/
theorem Renumbered.yields {v w : View Item} {y : Int → Item} (h : w.Renumbered v u p)
    (hv : v.Yields t y) (hw : w.shape = .ok (.ofShape u)) (hready : w.IsReady)
    (hp : ∀ i, u.Holds i → t.Holds (p i)) (hfill : ∃ q, v.prototype = .ok q) :
    w.Yields u fun i => y (p i) := by
  obtain ⟨gen, hgen, hcell⟩ := hv.cells
  obtain ⟨cells, hcells, heach⟩ := h.cells gen hgen
  refine ⟨⟨hw, h.etype hv.etype, cells, hcells, fun i hi => ?_⟩, hready, fun _ => ?_⟩
  · rw [heach i hi]
    exact hcell _ (hp i hi)
  · rw [h.prototype]
    exact hfill

/-- A function of whole numbers yields the same of arrays that have been transformed as it does if
its result is. -/
theorem exists_yields_through (hc : Grid.FitTogether gs) (h : List.Forall₂ IsPervadable vs gs)
    (hne : vs ≠ []) (hstand : AllStand vs t) (hf : ComputesOn f vs.length F)
    (hsteps : Tower.Renumbers t steps u)
    (he : ∃ e, (pervade f .numeric (vs.map (·.through steps))).etype = .ok e) :
    ∃ y, (pervade f .numeric (vs.map (·.through steps))).Yields u y ∧
      ((pervade f .numeric vs).through steps).Yields u y := by
  obtain ⟨s, y, _, hyields⟩ := exists_yields_pervade hc h hf
  obtain ⟨ps, hread, _⟩ := exists_readAs h
  obtain ⟨hbelow, hshape, _, cells, cells', hcells, hcells', heach⟩ :=
    pervade_through hne hstand hread hsteps f .numeric
  obtain rfl := Extents.ofShape_inj (Except.ok.inj (hyields.shape.symm.trans hbelow))
  have ht := hyields.isProper
  obtain ⟨hu, p, hp, hall⟩ := exists_positions hsteps ht
  obtain ⟨hstands, hrenumbered⟩ :=
    hall ((isComputed_pervade f .numeric vs).standsOn hyields.shape ht)
  have hready : ((pervade f .numeric vs).through steps).IsReady := by
    refine hstands.isReady ?_
    obtain ⟨facts, hfacts⟩ := isComputed_pervade f .numeric vs
    rw [hfacts] at hyields ⊢
    exact hyields.ready
  have hthrough := hrenumbered.yields hyields hstands.shape_eq hready hp hyields.exists_prototype
  refine ⟨_, yields_pervade_of hshape hu he hcells fun i hi => ?_, hthrough⟩
  obtain ⟨gen, hgen, hcell⟩ := hthrough.cells
  obtain rfl := Except.ok.inj (hcells'.symm.trans hgen)
  rw [heach i hi]
  exact hcell i hi

/-- An array that has come about from a root by transforms and by handing out windows, and the array
of whole numbers that it renders to. -/
structure RendersWhole (v : View Item) (g : Grid Item) : Prop where
  sound : (Item.view v).IsSound
  grown : ∃ root r, Grown (fun v w => Raises v w ∨ HandsOut v w) root r v
  render : (Item.view v).render = .ok (.array g)
  whole : (Item.array g).IsWhole

theorem RendersWhole.exists_standsOn {v : View Item} {g : Grid Item} (h : v.RendersWhole g) :
    ∃ root r, StandsOn root r v g.shape := by
  obtain ⟨root, r, hgrown⟩ := h.grown
  obtain ⟨s, hs⟩ := hgrown.exists_standsOn
  obtain ⟨y, hyields, _⟩ := h.sound.isReady.exists_yields h.render
  obtain rfl := Extents.ofShape_inj (Except.ok.inj (hs.shape_eq.symm.trans hyields.shape))
  exact ⟨root, r, hs⟩

theorem allStand_of_rendersWhole (h : List.Forall₂ RendersWhole vs gs)
    (hs : ∀ g ∈ gs, g.shape = t) : AllStand vs t := by
  induction h with
  | nil => simp [AllStand]
  | cons hv _ ih =>
      obtain ⟨rfl, hrest⟩ := List.forall_mem_cons.mp hs
      exact List.forall_mem_cons.mpr ⟨hv.exists_standsOn, ih hrest⟩

theorem RendersWhole.isPervadable_ofGrid {v : View Item} {g : Grid Item} (h : v.RendersWhole g) :
    (ofGrid g).IsPervadable g :=
  View.isPervadable_ofGrid (h.sound.render h.render) h.whole

end View

namespace Renumbering

open View

variable {T : Renumbering} {vs ws : List (View Item)} {gs : List (Grid Item)} {t : Shape}
  {f : CellFunction} {F : List Int → Int}

/-- A function of whole numbers has an element type for arrays of whole numbers at hand, also once
these have been transformed. -/
theorem exists_etype_ofGrid {steps : List Step} {u : Shape} (hs : ∀ g ∈ gs, g.shape = t)
    (hw : ∀ g ∈ gs, (Item.array g).IsWhole) (hputs : Puts t steps)
    (hsteps : Tower.Renumbers t steps u) (f : CellFunction) :
    ∃ e, (pervade f .numeric ((gs.map ofGrid).map (·.through steps))).etype = .ok e := by
  have hetypes : ((gs.map ofGrid).map (·.through steps)).mapM View.etype =
      .ok (gs.map Grid.etype) := by
    rw [List.map_map, mapM_eq_ok, List.forall₂_map_left_iff, List.forall₂_map_right_iff,
      List.forall₂_same]
    intro g hg
    obtain rfl := hs g hg
    exact hputs.etype_ofGrid hsteps
  rw [etype_pervade, hetypes]
  refine ResultType.apply_numeric_all fun e he => ?_
  obtain ⟨g, hg, rfl⟩ := List.mem_map.mp he
  exact kind_etype_of_isWhole (hw g hg)

section

variable [Platform]

/-- The transform makes the array of the other one, which has a shape and hands out cells. -/
def Makes (T : Renumbering) (v w : View Item) : Prop :=
  T.apply (.view v) = .ok w ∧ (∃ e, w.shape = .ok e) ∧ ∃ gen, w.generator = .ok gen

/-- The function of the transformed arrays renders to what the transformed result of the function
renders to. -/
def Commutes (T : Renumbering) (f : CellFunction) (vs ws : List (View Item)) : Prop :=
  ∃ w a b, T.apply (.view (pervade f .numeric vs)) = .ok w ∧
    (Item.view (pervade f .numeric ws)).render = .ok (.array a) ∧
    (Item.view w).render = .ok (.array b) ∧ Item.Alike (.array a) (.array b)

theorem apply_array (T : Renumbering) (g : Grid Item) :
    T.apply (.array g) = T.apply (.view (ofGrid g)) := by
  cases T <;> rfl

theorem eq_through {steps : List Step} (h : List.Forall₂ T.Makes vs ws)
    (hv : ∀ v ∈ vs, T.apply (.view v) = .ok (v.through steps)) :
    ws = vs.map (·.through steps) := by
  induction h with
  | nil => rfl
  | cons hw _ ih =>
      obtain ⟨hown, hrest⟩ := List.forall_mem_cons.mp hv
      rw [List.map_cons, ← ih hrest, Except.ok.inj (hw.1.symm.trans hown)]

/-- A function of whole numbers commutes with a transform of arrays that it pervades exactly if it
has an element type for the transformed arrays. -/
theorem commutes_iff {steps : List Step} {u : Shape} (hc : Grid.FitTogether gs)
    (h : List.Forall₂ IsPervadable vs gs) (hne : vs ≠ []) (hstand : AllStand vs t)
    (hf : ComputesOn f vs.length F) (hsteps : Tower.Renumbers t steps u)
    (hT : ∀ v : View Item, v.shape = .ok (.ofShape t) →
      T.apply (.view v) = .ok (v.through steps)) :
    T.Commutes f vs (vs.map (·.through steps)) ↔
      ∃ e, (pervade f .numeric (vs.map (·.through steps))).etype = .ok e := by
  obtain ⟨ps, hread, _⟩ := exists_readAs h
  obtain ⟨hbelow, hshape, _⟩ := pervade_through hne hstand hread hsteps f .numeric
  obtain ⟨hu, _⟩ := exists_positions hsteps (hstand.isProper hne)
  constructor
  · rintro ⟨w, a, b, _, ha, _, _⟩
    obtain ⟨y, hy, _⟩ := (isReady_pervade_of hshape hu).exists_yields ha
    exact hy.etype
  · intro he
    obtain ⟨y, hy, hy'⟩ := exists_yields_through hc h hne hstand hf hsteps he
    obtain ⟨a, ha, hca⟩ := hy.exists_render
    obtain ⟨b, hb, hcb⟩ := hy'.exists_render
    exact ⟨_, a, b, hT _ hbelow, ha, hb, hca.alike hcb fun _ _ => rfl⟩

/-- A function of whole numbers commutes with a transform of arrays of one shape that creates no
pad, however deep the arrays are nested. For arrays at hand nothing else is asked for. For other
arrays it does if they are pervious, exactly where the function has an element type for what the
transform makes of them: a section of a section may go back to characters. -/
theorem pervade_renumbered (hv : List.Forall₂ RendersWhole vs gs) (hne : vs ≠ [])
    (hs : ∀ g ∈ gs, g.shape = t) (hc : Grid.FitTogether gs) (hf : ComputesOn f vs.length F)
    (hT : T.CreatesNoPad t) (hw : List.Forall₂ T.Makes vs ws) :
    (∃ us, List.Forall₂ (fun g u => T.apply (.array g) = .ok u) gs us ∧
      T.Commutes f (gs.map ofGrid) us) ∧
    ((∀ v ∈ vs, v.IsPervious) →
      (T.Commutes f vs ws ↔ ∃ e, (pervade f .numeric ws).etype = .ok e)) := by
  have hstand := allStand_of_rendersWhole hv hs
  obtain ⟨v, w, hmem, happly, ⟨e, he⟩, gen, hgen⟩ : ∃ v w, v ∈ vs ∧ T.Makes v w := by
    cases hw with
    | nil => exact absurd rfl hne
    | cons hmakes _ => exact ⟨_, _, List.mem_cons_self, hmakes⟩
  obtain ⟨root, r, hv₀⟩ := hstand v hmem
  obtain ⟨steps, u, hputs, hsteps, hall⟩ := exists_renumbers hv₀ hT happly he hgen
  have hgrids : ∀ g ∈ gs, (ofGrid g).IsPervadable g :=
    ((List.forall₂_and_left _ _).mp (hv.flip.imp fun g v h => ⟨h.isPervadable_ofGrid, h⟩)).1
  refine ⟨⟨(gs.map ofGrid).map (·.through steps), ?_, ?_⟩, fun hpervious => ?_⟩
  · rw [List.map_map, List.forall₂_map_right_iff, List.forall₂_same]
    intro g hg
    rw [apply_array]
    exact hall _ (congrArg (fun s => Except.ok (Extents.ofShape s)) (hs g hg))
  · have hlen : vs.length = (gs.map ofGrid).length := by rw [List.length_map, hv.length_eq]
    have hgne : gs.map ofGrid ≠ [] := by
      rw [← List.length_pos_iff, ← hlen]
      exact List.length_pos_iff.mpr hne
    have hself : List.Forall₂ IsPervadable (gs.map ofGrid) gs := by
      rw [List.forall₂_map_left_iff, List.forall₂_same]
      exact hgrids
    have hgstand : AllStand (gs.map ofGrid) t := by
      intro v hv
      obtain ⟨g, hg, rfl⟩ := List.mem_map.mp hv
      obtain rfl := hs g hg
      exact ⟨.concrete g, g.shape, rfl, .root rfl (hgrids g hg).cells.2.1⟩
    rw [commutes_iff hc hself hgne hgstand (hlen ▸ hf) hsteps hall]
    exact exists_etype_ofGrid hs (fun g hg => (hgrids g hg).whole) hputs hsteps f
  · obtain rfl := eq_through hw fun v hv => hall v (hstand.shape v hv)
    have h : List.Forall₂ IsPervadable vs gs :=
      ((List.forall₂_and_left _ _).mpr ⟨hpervious, hv⟩).imp
        fun v g h => ⟨h.2.sound, h.1, h.2.render, h.2.whole⟩
    exact commutes_iff hc h hne hstand hf hsteps hall

end

theorem computesOn_add : ComputesOn (CellFunction.dyadic Item.add) 2 List.sum := by
  intro ss ns h hlen
  obtain ⟨s, s', rfl⟩ := List.length_eq_two.mp hlen
  obtain ⟨n, m, rfl⟩ := List.length_eq_two.mp (h.length_eq.symm.trans hlen)
  obtain ⟨hs, hs'⟩ : s.whole? = some n ∧ s'.whole? = some m := by simpa using h
  have hsum : [n, m].sum = n + m := by simp
  rw [hsum]
  cases s <;> cases hs <;> cases s' <;> cases hs' <;> rfl

theorem tens_fitTogether : Grid.FitTogether
    [⟨[2], [.int 3, .array (Grid.ofInts [6, 7])], none⟩, Grid.ofInts [10, 20]] := by
  have pair {i : Int} (hi : Shape.Holds [2] i) : i = 0 ∨ i = 1 := by
    have hsize : Shape.size [2] = 2 := rfl
    unfold Shape.Holds at hi
    omega
  refine .intro (t := [2]) rfl fun i hi hany => ?_
  rcases pair hi with rfl | rfl
  · obtain ⟨g, hg, hgrid⟩ := hany
    rcases List.mem_pair.mp hg with rfl | rfl <;> cases hgrid
  · refine .intro (t := [2]) rfl fun j hj hinner => ?_
    obtain ⟨g, hg, hgrid⟩ := hinner
    rcases pair hj with rfl | rfl <;> rcases List.mem_pair.mp hg with rfl | rfl <;> cases hgrid

open scoped Usual in
/-- The sum of two arrays in reverse order. -/
theorem sum_reversed : (rotate none none false (.int 0)).Commutes (CellFunction.dyadic Item.add)
    [numberAndPair, ofGrid (Grid.ofInts [10, 20])]
    [Item.rotate (.view numberAndPair) none none false (.int 0),
      Item.rotate (.array (Grid.ofInts [10, 20])) none none false (.int 0)] := by
  have grid {g : Grid Item} (hs : (Item.array g).IsSound) (hw : (Item.array g).IsWhole)
      (hg : g.shape.IsProper) : (ofGrid g).RendersWhole g :=
    ⟨(isPervadable_ofGrid hs hw).sound, ⟨_, g.shape, .root rfl hg⟩, rfl, hw⟩
  have tens : (Item.list [.int 10, .int 20]).IsLiteral :=
    .list (by simp [show ∀ n, (Item.int n).IsLiteral from fun n => .scalar (.int n)])
  have tensWhole : (Item.array (Grid.ofInts [10, 20])).IsWhole := by
    refine .array (fun y hy => ?_) nofun
    rcases List.mem_pair.mp hy with rfl | rfl <;> exact .number rfl
  have proper : Shape.IsProper [2] := by simp [Shape.IsProper]
  have first := grid (numberAndPair_isSound.render rfl) numberAndPair_isWhole proper
  have second := grid tens.stored_vectorOf.2 tensWhole proper
  have shapes : ∀ g ∈ [⟨[2], [.int 3, .array (Grid.ofInts [6, 7])], none⟩, Grid.ofInts [10, 20]],
      g.shape = [2] := by
    intro g hg
    rcases List.mem_pair.mp hg with rfl | rfl <;> rfl
  have commutes := pervade_renumbered (T := rotate none none false (.int 0))
    (.cons first (.cons second .nil)) (List.cons_ne_nil _ _) shapes tens_fitTogether
    computesOn_add ⟨0, rfl⟩
    (.cons ⟨rfl, ⟨_, rfl⟩, _, rfl⟩ (.cons ⟨rfl, ⟨_, rfl⟩, _, rfl⟩ .nil))
  refine (commutes.2 fun v hv => ?_).mpr ?_
  · rcases List.mem_pair.mp hv with rfl | rfl
    · exact isPervious_ofGrid (numberAndPair_isSound.render rfl) numberAndPair_isWhole
    · exact isPervious_ofGrid tens.stored_vectorOf.2 tensWhole
  · rw [etype_pervade]
    exact ⟨_, rfl⟩

end Renumbering
end LazyApl
