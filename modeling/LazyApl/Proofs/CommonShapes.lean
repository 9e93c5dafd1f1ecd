import LazyApl.Primitive.Pervade
import LazyApl.Proofs.Rendering
import LazyApl.Proofs.Windows
import Mathlib.Algebra.Group.Int.Units
import Mathlib.Data.List.Perm.Basic
import Mathlib.Order.Bounds.Basic
/-!
# The common shape of operands

Operands of a scalar function have a shape in common if all that have more or fewer cells than one
have the same shape; a single cell goes with each of them. Single cells among themselves have the
shape of the one with the most axes. It is found by looking for the first operand of either kind,
but which shape it is depends only on what operands there are, and not on their order.
-/
namespace LazyApl

open Outcome

namespace Shape

theorem eq_replicate_of_size {s : Shape} (hs : s.IsProper) (h1 : s.size = 1) :
    s = List.replicate s.length 1 := by
  induction s with
  | nil => rfl
  | cons n s ih =>
      obtain ⟨hn, hproper⟩ := isProper_cons.mp hs
      rw [size_cons] at h1
      rcases Int.eq_one_or_neg_one_of_mul_eq_one' h1 with ⟨rfl, hsize⟩ | ⟨rfl, _⟩
      · rw [List.length_cons, List.replicate_succ, ← ih hproper hsize]
      · omega

end Shape

namespace Pervade

variable {ts us : List Shape} {s t u : Shape} {e : Extents}

theorem plural_ofShape (ts : List Shape) :
    plural (ts.map .ofShape) = .ok ((ts.filter fun s => s.size ≠ 1).map .ofShape) := by
  induction ts with
  | nil => rfl
  | cons s ts ih =>
      by_cases h1 : s.size = 1 <;>
        simp [plural, isSingle, ih, h1, bind, Except.bind, pure, Except.pure]

theorem longest_mem (s : Extents) (ss : List Extents) : longest s ss ∈ s :: ss := by
  induction ss generalizing s with
  | nil => simp [longest]
  | cons r ss ih =>
      rw [longest]
      have h := ih (if s.length < r.length then r else s)
      split at h
      · rename_i hlt
        rw [if_pos hlt]
        exact List.mem_cons_of_mem _ h
      · rename_i hlt
        rw [if_neg hlt]
        rcases List.mem_cons.mp h with h | h
        · rw [h]
          exact List.mem_cons_self
        · exact List.mem_cons_of_mem _ (List.mem_cons_of_mem _ h)

theorem length_le_longest (s : Extents) (ss : List Extents) :
    ∀ r ∈ s :: ss, r.length ≤ (longest s ss).length := by
  induction ss generalizing s with
  | nil => simp [longest]
  | cons t ss ih =>
      rw [longest]
      by_cases hlt : s.length < t.length
      · rw [if_pos hlt]
        obtain ⟨ht, hss⟩ := List.forall_mem_cons.mp (ih t)
        exact List.forall_mem_cons.mpr ⟨by omega, List.forall_mem_cons.mpr ⟨ht, hss⟩⟩
      · rw [if_neg hlt]
        obtain ⟨hs, hss⟩ := List.forall_mem_cons.mp (ih s)
        exact List.forall_mem_cons.mpr ⟨hs, List.forall_mem_cons.mpr ⟨by omega, hss⟩⟩

theorem commonShape_of_singles (h : ∀ r ∈ s :: ts, r.size = 1) :
    commonShape ((s :: ts).map .ofShape) = .ok (longest (.ofShape s) (ts.map .ofShape)) := by
  have hnone : (s :: ts).filter (fun r => r.size ≠ 1) = [] := by
    simpa using h
  simp only [commonShape, plural_ofShape, hnone, bind, Except.bind]
  rfl

theorem mem_plural_iff (h : (ts.filter fun s => s.size ≠ 1) = s :: us) {r : Shape} :
    r ∈ s :: us ↔ r ∈ ts ∧ r.size ≠ 1 := by
  rw [← h]
  simp

theorem commonShape_of_plural (h : (ts.filter fun s => s.size ≠ 1) = s :: us) :
    commonShape (ts.map .ofShape) = .ok e ↔ e = .ofShape s ∧ ∀ r ∈ us, r = s := by
  simp only [commonShape, plural_ofShape, h, List.map_cons, bind, Except.bind]
  split
  · rename_i hnone
    have hall : ∀ r ∈ us, r = s := by
      intro r hr
      simpa using List.find?_eq_none.mp hnone _ (List.mem_map_of_mem hr)
    exact ⟨fun he => ⟨(Except.ok.inj he).symm, hall⟩, fun he => congrArg Except.ok he.1.symm⟩
  · rename_i hsome
    refine iff_of_false (fun he => ?_) fun ⟨_, hall⟩ => ?_
    · split at he <;> cases he
    · obtain ⟨r, hr, rfl⟩ := List.mem_map.mp (List.mem_of_find?_eq_some hsome)
      have hne := List.find?_some hsome
      simp [hall r hr] at hne

/-- One of some shapes goes with all of them: those of more or fewer cells than one are this shape,
and if it has a single cell none has more axes. -/
structure IsCommon (ts : List Shape) (t : Shape) : Prop where
  mem : t ∈ ts
  agree : ∀ s ∈ ts, s.size ≠ 1 → s = t
  longest : t.size = 1 → ∀ s ∈ ts, s.length ≤ t.length

theorem IsCommon.size_eq_one (h : IsCommon ts t) (h1 : t.size = 1) : ∀ s ∈ ts, s.size = 1 := by
  intro s hs
  by_contra hne
  exact hne (h.agree s hs hne ▸ h1)

theorem IsCommon.perm (h : IsCommon ts t) (hp : ts.Perm us) : IsCommon us t :=
  ⟨hp.mem_iff.mp h.mem, fun s hs => h.agree s (hp.mem_iff.mpr hs),
    fun h1 s hs => h.longest h1 s (hp.mem_iff.mpr hs)⟩

/-- No other shape goes with all: among single cells the number of axes tells the shape. -/
theorem IsCommon.unique (hts : ∀ s ∈ ts, s.IsProper) (h : IsCommon ts t) (h' : IsCommon ts u) :
    t = u := by
  by_cases h1 : t.size = 1
  · have hu1 := h.size_eq_one h1 u h'.mem
    have hlength : t.length = u.length :=
      le_antisymm (h'.longest hu1 t h.mem) (h.longest h1 u h'.mem)
    calc t = List.replicate t.length 1 := Shape.eq_replicate_of_size (hts t h.mem) h1
      _ = List.replicate u.length 1 := by rw [hlength]
      _ = u := (Shape.eq_replicate_of_size (hts u h'.mem) hu1).symm
  · exact h'.agree t h.mem h1

/-- The shape that is found goes with all, whichever operand comes first. -/
theorem exists_isCommon (h : commonShape (ts.map .ofShape) = .ok e) :
    ∃ t, e = .ofShape t ∧ IsCommon ts t := by
  cases hplural : ts.filter fun s => s.size ≠ 1 with
  | nil =>
      have hsingle : ∀ s ∈ ts, s.size = 1 := by simpa using hplural
      cases ts with
      | nil => cases h
      | cons s rest =>
          have hlongest := Except.ok.inj ((commonShape_of_singles hsingle).symm.trans h)
          have hmem := longest_mem (.ofShape s) (rest.map .ofShape)
          have hle := length_le_longest (.ofShape s) (rest.map .ofShape)
          rw [hlongest, ← List.map_cons] at hmem hle
          obtain ⟨t, ht, rfl⟩ := List.mem_map.mp hmem
          refine ⟨t, rfl, ht, fun r hr hne => absurd (hsingle r hr) hne, fun _ r hr => ?_⟩
          simpa using hle _ (List.mem_map_of_mem hr)
  | cons s rest =>
      obtain ⟨rfl, hall⟩ := (commonShape_of_plural hplural).mp h
      obtain ⟨hs, hs1⟩ := (mem_plural_iff hplural).mp List.mem_cons_self
      refine ⟨s, rfl, hs, fun r hr hne => ?_, fun h1 => absurd h1 hs1⟩
      rcases List.mem_cons.mp ((mem_plural_iff hplural).mpr ⟨hr, hne⟩) with rfl | hr
      · rfl
      · exact hall r hr

theorem exists_commonShape (hne : ts ≠ [])
    (h : ∀ s ∈ ts, ∀ t ∈ ts, s.size ≠ 1 → t.size ≠ 1 → s = t) :
    ∃ e, commonShape (ts.map .ofShape) = .ok e := by
  cases hplural : ts.filter fun s => s.size ≠ 1 with
  | nil =>
      obtain ⟨s, rest, rfl⟩ := List.exists_cons_of_ne_nil hne
      exact ⟨_, commonShape_of_singles (by simpa using hplural)⟩
  | cons s rest =>
      obtain ⟨hs, hs1⟩ := (mem_plural_iff hplural).mp List.mem_cons_self
      refine ⟨_, (commonShape_of_plural hplural).mpr ⟨rfl, fun r hr => ?_⟩⟩
      obtain ⟨hr, hr1⟩ := (mem_plural_iff hplural).mp (List.mem_cons_of_mem s hr)
      exact h r hr s hs hr1 hs1

theorem commonShape_eq_ok (hts : ∀ s ∈ ts, s.IsProper) :
    commonShape (ts.map .ofShape) = .ok (.ofShape t) ↔ IsCommon ts t := by
  constructor
  · intro h
    obtain ⟨u, hu, hcommon⟩ := exists_isCommon h
    rwa [Extents.ofShape_inj hu]
  · intro h
    have hagree : ∀ r ∈ ts, ∀ s ∈ ts, r.size ≠ 1 → s.size ≠ 1 → r = s := fun r hr s hs hr1 hs1 =>
      (h.agree r hr hr1).trans (h.agree s hs hs1).symm
    obtain ⟨e, he⟩ := exists_commonShape (List.ne_nil_of_mem h.mem) hagree
    obtain ⟨u, rfl, hcommon⟩ := exists_isCommon he
    rwa [h.unique hts hcommon]

theorem commonShape_spec (h : commonShape (ts.map .ofShape) = .ok (.ofShape t)) :
    t ∈ ts ∧ ∀ s ∈ ts, s.size = 1 ∨ s = t := by
  obtain ⟨u, hu, hcommon⟩ := exists_isCommon h
  obtain rfl := Extents.ofShape_inj hu
  exact ⟨hcommon.mem, fun s hs => or_iff_not_imp_left.mpr (hcommon.agree s hs)⟩

theorem commonShape_of_forall (hne : ts ≠ []) (h : ∀ s ∈ ts, s = t) :
    commonShape (ts.map .ofShape) = .ok (.ofShape t) := by
  obtain ⟨e, he⟩ := exists_commonShape hne fun r hr s hs _ _ => (h r hr).trans (h s hs).symm
  obtain ⟨u, rfl, hcommon⟩ := exists_isCommon he
  rwa [h u hcommon.mem] at he

theorem commonShape_single (t : Shape) : commonShape [.ofShape t] = .ok (.ofShape t) :=
  commonShape_of_forall (List.cons_ne_nil t []) (by simp)

end Pervade

namespace View

/-- The common shape of operands: that of a scalar function of them, whichever function it is. -/
def commonShape (vs : List (View Item)) : Except Fault Extents := do
  Pervade.commonShape (← vs.mapM View.shape)

/-- The extents of an array, if they can be asked for, are those of a shape. -/
def IsProper (v : View Item) : Prop :=
  ∀ e, v.shape = .ok e → ∃ s : Shape, e = .ofShape s ∧ s.IsProper

variable {vs ws : List (View Item)} {v : View Item} {ts : List Shape} {s : Shape} {e : Extents}

theorem isProper_ofGrid {g : Grid Item} (hg : g.shape.IsProper) : (ofGrid g).IsProper := by
  intro e he
  exact ⟨g.shape, (Except.ok.inj he).symm, hg⟩

theorem size_eq_ok_one (hs : v.shape = .ok (.ofShape s)) :
    v.size = .ok (.int 1) ↔ s.size = 1 := by
  simp [View.size, hs, bind, Except.bind]

theorem exists_shapes {es : List Extents} (hv : ∀ v ∈ vs, v.IsProper)
    (h : vs.mapM View.shape = .ok es) :
    ∃ ts : List Shape, es = ts.map .ofShape ∧ ∀ s ∈ ts, s.IsProper := by
  refine Extents.exists_shapes fun e he => ?_
  obtain ⟨v, hm, hs⟩ := mem_of_mapM h he
  exact hv v hm e hs

theorem exists_mem_shapes (h : vs.mapM View.shape = .ok (ts.map .ofShape)) (hv : v ∈ vs) :
    ∃ s ∈ ts, v.shape = .ok (.ofShape s) := by
  obtain ⟨e, he, hs⟩ := exists_mem_of_mapM h hv
  obtain ⟨s, hmem, rfl⟩ := List.mem_map.mp he
  exact ⟨s, hmem, hs⟩

theorem exists_mem_operands (h : vs.mapM View.shape = .ok (ts.map .ofShape)) (hs : s ∈ ts) :
    ∃ v ∈ vs, v.shape = .ok (.ofShape s) :=
  mem_of_mapM h (List.mem_map_of_mem hs)

theorem exists_perm_shapes (hp : vs.Perm ws) (h : vs.mapM View.shape = .ok (ts.map .ofShape)) :
    ∃ us : List Shape, ts.Perm us ∧ ws.mapM View.shape = .ok (us.map .ofShape) := by
  have hall := List.forall₂_map_right_iff.mp (mapM_eq_ok.mp h)
  obtain ⟨us, hus, hperm⟩ := List.perm_comp_forall₂ hp.symm hall
  exact ⟨us, hperm.symm, mapM_eq_ok.mpr (List.forall₂_map_right_iff.mpr hus)⟩

theorem commonShape_eq_ok_iff (hv : ∀ v ∈ vs, v.IsProper) :
    commonShape vs = .ok e ↔
      ∃ ts t, vs.mapM View.shape = .ok (ts.map .ofShape) ∧ (∀ s ∈ ts, s.IsProper) ∧
        e = .ofShape t ∧ Pervade.IsCommon ts t := by
  constructor
  · intro h
    obtain ⟨es, hes, h⟩ := bind_eq_ok.mp h
    obtain ⟨ts, rfl, hts⟩ := exists_shapes hv hes
    obtain ⟨t, rfl, ht⟩ := Pervade.exists_isCommon h
    exact ⟨ts, t, hes, hts, rfl, ht⟩
  · rintro ⟨ts, t, hes, hts, rfl, ht⟩
    exact bind_eq_ok.mpr ⟨_, hes, (Pervade.commonShape_eq_ok hts).mpr ht⟩

theorem commonShape_of_perm (hp : vs.Perm ws) (hv : ∀ v ∈ vs, v.IsProper)
    (h : commonShape vs = .ok e) : commonShape ws = .ok e := by
  obtain ⟨ts, t, hshapes, hts, he, ht⟩ := (commonShape_eq_ok_iff hv).mp h
  obtain ⟨us, hperm, hus⟩ := exists_perm_shapes hp hshapes
  have hws : ∀ w ∈ ws, w.IsProper := fun w hw => hv w (hp.mem_iff.mpr hw)
  have hproper : ∀ s ∈ us, s.IsProper := fun s hs => hts s (hperm.mem_iff.mpr hs)
  exact (commonShape_eq_ok_iff hws).mpr ⟨us, t, hus, hproper, he, ht.perm hperm⟩

theorem shape_of_commonShape (hv : ∀ v ∈ vs, v.IsProper) (h : commonShape vs = .ok e)
    (hm : v ∈ vs) (hsize : v.size ≠ .ok (.int 1)) : v.shape = .ok e := by
  obtain ⟨ts, t, hshapes, _, rfl, ht⟩ := (commonShape_eq_ok_iff hv).mp h
  obtain ⟨s, hs, hshape⟩ := exists_mem_shapes hshapes hm
  rw [hshape, ht.agree s hs (mt (size_eq_ok_one hshape).mpr hsize)]

theorem exists_eq_replicate_of_commonShape (hv : ∀ v ∈ vs, v.IsProper)
    (h : commonShape vs = .ok e) (hsize : ∀ v ∈ vs, v.size = .ok (.int 1)) :
    ∃ r : Nat, IsGreatest {n | ∃ v ∈ vs, v.rank = .ok n} (r : Int) ∧
      e = .ofShape (List.replicate r 1) := by
  obtain ⟨ts, t, hshapes, hts, rfl, ht⟩ := (commonShape_eq_ok_iff hv).mp h
  obtain ⟨v, hm, hshape⟩ := exists_mem_operands hshapes ht.mem
  have h1 : t.size = 1 := (size_eq_ok_one hshape).mp (hsize v hm)
  refine ⟨t.length, ⟨⟨v, hm, rank_of_shape hshape⟩, ?_⟩, ?_⟩
  · rintro n ⟨w, hw, hrank⟩
    obtain ⟨s, hs, hshape⟩ := exists_mem_shapes hshapes hw
    obtain rfl := Except.ok.inj ((rank_of_shape hshape).symm.trans hrank)
    exact Int.ofNat_le.mpr (ht.longest h1 s hs)
  · rw [← Shape.eq_replicate_of_size (hts t ht.mem) h1]

/-- Operands have a common shape if all that have more or fewer cells than one have the same. -/
theorem exists_commonShape_iff (hne : vs ≠ []) (hv : ∀ v ∈ vs, v.IsProper) :
    (∃ e, commonShape vs = .ok e) ↔
      (∀ v ∈ vs, ∃ e, v.shape = .ok e) ∧
        ∀ v ∈ vs, ∀ w ∈ vs, v.size ≠ .ok (.int 1) → w.size ≠ .ok (.int 1) →
          v.shape = w.shape := by
  constructor
  · rintro ⟨e, he⟩
    obtain ⟨ts, t, hshapes, _, _, _⟩ := (commonShape_eq_ok_iff hv).mp he
    refine ⟨fun v hm => ?_, fun v hm w hm' h1 h1' => ?_⟩
    · obtain ⟨s, _, hshape⟩ := exists_mem_shapes hshapes hm
      exact ⟨_, hshape⟩
    · rw [shape_of_commonShape hv he hm h1, shape_of_commonShape hv he hm' h1']
  · rintro ⟨hshape, hagree⟩
    obtain ⟨es, hes⟩ := exists_mapM hshape
    obtain ⟨ts, rfl, _⟩ := exists_shapes hv hes
    have hnil : ts ≠ [] := by
      obtain ⟨v, hm⟩ := List.exists_mem_of_ne_nil vs hne
      obtain ⟨s, hs, _⟩ := exists_mem_shapes hes hm
      exact List.ne_nil_of_mem hs
    have hsame : ∀ s ∈ ts, ∀ t ∈ ts, s.size ≠ 1 → t.size ≠ 1 → s = t := by
      intro s hs t ht hs1 ht1
      obtain ⟨v, hm, hvs⟩ := exists_mem_operands hes hs
      obtain ⟨w, hm', hwt⟩ := exists_mem_operands hes ht
      have h := hagree v hm w hm' (mt (size_eq_ok_one hvs).mp hs1)
        (mt (size_eq_ok_one hwt).mp ht1)
      rw [hvs, hwt] at h
      exact Extents.ofShape_inj (Except.ok.inj h)
    obtain ⟨e, he⟩ := Pervade.exists_commonShape hnil hsame
    exact ⟨e, bind_eq_ok.mpr ⟨_, hes, he⟩⟩

/-- The order of operands does not matter for their common shape. Operands have one exactly if each
has a shape and all that have more or fewer cells than one have the same. It is then this shape or,
if each operand has a single cell, one place along each axis of the greatest number of axes. -/
theorem commonShape_perm (hne : vs ≠ []) (hp : vs.Perm ws) (hv : ∀ v ∈ vs, v.IsProper) :
    (∀ e, commonShape vs = .ok e ↔ commonShape ws = .ok e) ∧
    ((∃ e, commonShape vs = .ok e) ↔
      (∀ v ∈ vs, ∃ e, v.shape = .ok e) ∧
        ∀ v ∈ vs, ∀ w ∈ vs, v.size ≠ .ok (.int 1) → w.size ≠ .ok (.int 1) →
          v.shape = w.shape) ∧
    ∀ e, commonShape vs = .ok e →
      (∀ v ∈ vs, v.size ≠ .ok (.int 1) → v.shape = .ok e) ∧
      ((∀ v ∈ vs, v.size = .ok (.int 1)) →
        ∃ r : Nat, IsGreatest {n | ∃ v ∈ vs, v.rank = .ok n} (r : Int) ∧
          e = .ofShape (List.replicate r 1)) := by
  have hw : ∀ w ∈ ws, w.IsProper := fun w hm => hv w (hp.mem_iff.mpr hm)
  refine ⟨fun e => ⟨?_, ?_⟩, exists_commonShape_iff hne hv, fun e he => ⟨?_, ?_⟩⟩
  · exact commonShape_of_perm hp hv
  · exact commonShape_of_perm hp.symm hw
  · exact fun v hm hsize => shape_of_commonShape hv he hm hsize
  · exact exists_eq_replicate_of_commonShape hv he

/-- A number by itself, in a vector and in a matrix. -/
def singleCells : List (View Item) :=
  [ofGrid ⟨[], [.int 7], none⟩, ofGrid ⟨[1, 1], [.int 8], none⟩, ofGrid ⟨[1], [.int 9], none⟩]

def emptyRows : View Item := ofGrid ⟨[2, 0], [], some (.int 0)⟩

theorem isProper_singleCells : ∀ v ∈ singleCells, v.IsProper := by
  intro v hv
  simp only [singleCells, List.mem_cons, List.not_mem_nil, or_false] at hv
  rcases hv with rfl | rfl | rfl <;> exact isProper_ofGrid (by simp [Shape.IsProper])

/-- The single cells have the shape of the matrix in common, and go with the empty rows, from
either end. -/
theorem singleCells_commonShape_perm :
    (∀ v ∈ emptyRows :: singleCells, v.IsProper) ∧
    commonShape singleCells = .ok (.ofShape [1, 1]) ∧
    commonShape singleCells.reverse = .ok (.ofShape [1, 1]) ∧
    commonShape (emptyRows :: singleCells) = .ok (.ofShape [2, 0]) ∧
    commonShape (emptyRows :: singleCells).reverse = .ok (.ofShape [2, 0]) := by
  have hsingle : commonShape singleCells = .ok (.ofShape [1, 1]) := rfl
  have hempty : commonShape (emptyRows :: singleCells) = .ok (.ofShape [2, 0]) := rfl
  have hproper : ∀ v ∈ emptyRows :: singleCells, v.IsProper :=
    List.forall_mem_cons.mpr ⟨isProper_ofGrid (by simp [Shape.IsProper]), isProper_singleCells⟩
  refine ⟨hproper, hsingle, ?_, hempty, ?_⟩
  · have h := commonShape_perm (by simp [singleCells]) (List.reverse_perm singleCells).symm
      isProper_singleCells
    exact (h.1 _).mp hsingle
  · have h := commonShape_perm (by simp) (List.reverse_perm (emptyRows :: singleCells)).symm hproper
    exact (h.1 _).mp hempty

end View
end LazyApl
