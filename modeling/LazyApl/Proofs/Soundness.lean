import LazyApl.Proofs.ElementTypes
import LazyApl.Proofs.Yielding
/-!
# What renders is covered by its element type

Arrays are built from operands by index transforms, windows, joins and assignments, nested in each
other to any depth. If the type of each operand covers its cells and its fill is one, then the type
of the whole covers every item that it renders to. The types are never made from the cells, but
from types and fills alone.
-/
namespace LazyApl

open Outcome

namespace View

/-- A typed tower: the root answers as it should, and so does every level above it. -/
structure IsTyped (v : View Item) : Prop where
  root : v.root.facts.IsTyped
  level : (Level.ofSteps Item.fillOf v.root.facts v.steps).IsTyped v.root.facts
  kept : ∀ g, v.root = .concrete g → g.IsKept

variable {v w : View Item}

theorem IsTyped.facts (h : v.IsTyped) : v.facts.IsTyped := h.level.facts h.root

theorem isTyped_of_root {root : Root Item} (h : root.facts.IsTyped)
    (hk : ∀ g, root = .concrete g → g.IsKept) : (⟨root, []⟩ : View Item).IsTyped :=
  ⟨h, h.level, hk⟩

theorem IsComputed.isTyped (hc : w.IsComputed) (h : w.facts.IsTyped) : w.IsTyped := by
  obtain ⟨f, rfl⟩ := hc
  exact isTyped_of_root h fun g hg => by cases hg

theorem IsTyped.under (h : v.IsTyped) {x : Step} (hx : x.IsLegal v.shape) :
    (v.under x).IsTyped := by
  have hshape : v.shape = (Level.ofSteps Item.fillOf v.root.facts v.steps).stage.shape.get :=
    Tower.shape_facts
  rw [hshape] at hx
  exact ⟨h.root, h.level.above hx, h.kept⟩

end View

namespace Item

def HasExtents (x : Item) : Prop :=
  ∃ u : Shape, (view x.lift).shapeOf = .ok (.ofShape u) ∧ u.IsProper

theorem exists_legal_of_select {v w : View Item} {indices : List (Option Item)} {origin : Origin}
    (ho : origin.IsWhole) (hi : ∀ y ∈ indices, ∀ z ∈ y, z.HasExtents)
    (h : select (.view v) indices origin = .ok w) :
    ∃ x : Step, w = v.under x ∧ x.IsLegal v.shape := by
  refine ⟨_, select_eq_ok h, ho, fun t ht => ?_, fun y hy z hz => ?_⟩
  · obtain ⟨ys, hys, _⟩ := bind_eq_ok.mp h
    obtain ⟨rank, hrank, hys⟩ := bind_eq_ok.mp hys
    have hr := (View.rank_of_shape ht).symm.trans hrank
    obtain rfl := Except.ok.inj hr
    split at hys
    · cases hys
    · rename_i hlen
      rw [List.length_map]
      omega
  · obtain ⟨y', hy', rfl⟩ := List.mem_map.mp hy
    obtain ⟨z', hz', rfl⟩ := Option.map_eq_some_iff.mp hz
    exact ⟨isCounted_asArgument z' "index", hi y' hy' z' hz'⟩

end Item

namespace View

variable {v w : View Item}

/-- What a transform puts on top of an array is legal, also where the array has no shape. -/
theorem Raises.exists_legal (h : Raises v w) :
    (∃ x, w = v.under x ∧ x.IsLegal v.shape) ∨ ∃ dims x, Shape.IsProper dims ∧
      w = (v.under (.reshape .reshape dims)).under x ∧ ∀ source, x.IsLegal source := by
  cases h with
  | reshape hw =>
      obtain ⟨_, _, hw⟩ := bind_eq_ok.mp hw
      obtain ⟨_, _, hw⟩ := bind_eq_ok.mp hw
      obtain ⟨dims, hd, hw⟩ := bind_eq_ok.mp hw
      obtain rfl := Except.ok.inj hw
      exact .inl ⟨_, rfl, Item.newShape_isProper hd⟩
  | ravel hw =>
      obtain ⟨_, _, hw⟩ := bind_eq_ok.mp hw
      obtain ⟨dims, hd, hw⟩ := bind_eq_ok.mp hw
      obtain rfl := Except.ok.inj hw
      exact .inl ⟨_, rfl, Item.newShape_isProper hd⟩
  | table hw =>
      obtain ⟨dims, hd, rfl⟩ := Item.table_eq_ok hw
      exact .inl ⟨_, rfl, hd⟩
  | cut ho hw =>
      rcases Item.cut_eq_ok ho hw with ⟨counts, axes, rfl, _⟩ | ⟨_, counts, rfl, _⟩
      · exact .inl ⟨_, rfl, trivial⟩
      · exact .inr ⟨_, _, Shape.isProper_ones counts, rfl, fun _ => trivial⟩
  | permute hw =>
      obtain ⟨axes, rfl⟩ := Item.permute_eq_ok hw
      exact .inl ⟨_, rfl, trivial⟩
  | @rotate amount axis first origin ho =>
      refine .inl ⟨_, rfl, fun y hy => ?_, ho⟩
      obtain ⟨x, _, rfl⟩ := Option.map_eq_some_iff.mp hy
      exact Item.isCounted_asArgument x "rotation"
  | replicate hw =>
      obtain ⟨counts, isScalar, rfl | ⟨dims, hd, rfl⟩⟩ := Item.replicate_eq_ok hw
      · exact .inl ⟨_, rfl, trivial⟩
      · exact .inr ⟨dims, _, hd, rfl, fun _ => trivial⟩
  | select ho _ hi hw =>
      refine .inl (Item.exists_legal_of_select ⟨_, ho⟩ (fun y hy z hz => ?_) hw)
      obtain ⟨k, hk, rfl⟩ := List.getElem_of_mem hy
      obtain ⟨u, _, hu, _, hp, _⟩ := hi.get (by rw [hi.length_eq]; exact hk) hk z hz
      exact ⟨u, hu, hp⟩

/-- Arrays built from typed operands by index transforms, windows, joins and assignments without a
function. -/
inductive Built : View Item → Prop
  /-- An array of which the own type covers the own cells, and of which the fill is one. An array
  at hand stores its cells. -/
  | operand {root : Root Item} (typed : root.facts.IsTyped)
      (kept : ∀ g, root = .concrete g → g.IsKept) : Built ⟨root, []⟩
  /-- A reshape, take, drop, permutation, rotation or replication. -/
  | raise {v w : View Item} (base : Built v) (h : Raises v w) : Built w
  /-- A selection. Its indices may turn out not to be in range. -/
  | select {v w : View Item} {indices : List (Option Item)} {origin : Origin} (base : Built v)
      (ho : origin.IsWhole) (hi : ∀ y ∈ indices, ∀ z ∈ y, z.HasExtents)
      (h : Item.select (.view v) indices origin = .ok w) : Built w
  /-- A window that lies within the array. -/
  | window {v w : View Item} {t : Shape} (base : Built v) (hv : v.shape = .ok (.ofShape t))
      (h : w.IsWindowOf v t) : Built w
  | catenate {arrays : List (View Item)} {axis : Option Item} {first : Bool} {origin : Origin}
      {w : View Item} (parts : ∀ v ∈ arrays, Built v)
      (h : Item.catenate (arrays.map .view) axis first origin = .ok w) : Built w
  | amend {v values w : View Item} {indices : List (Option Item)} {origin : Origin}
      (base : Built v) (assigned : Built values)
      (h : Item.amend (.view v) indices ⟨some values, none⟩ origin = .ok w) : Built w
  | amendMasked [Platform] {v values : View Item} (base : Built v) (assigned : Built values)
      (mask : Item) : Built (Item.amendMasked (.view v) mask (.view values) none)

/-- What is built from typed operands is typed. -/
theorem Built.isTyped (h : Built w) : w.IsTyped := by
  induction h with
  | operand typed kept => exact isTyped_of_root typed kept
  | raise _ hw hv =>
      rcases hw.exists_legal with ⟨x, rfl, hx⟩ | ⟨dims, x, hd, rfl, hx⟩
      · exact hv.under hx
      · have hreshaped := hv.under (x := .reshape .reshape dims) hd
        exact hreshaped.under (hx _)
  | select _ ho hi hw hv =>
      obtain ⟨x, rfl, hx⟩ := Item.exists_legal_of_select ho hi hw
      exact hv.under hx
  | @window v w t _ hv hw ih =>
      obtain ⟨o, dims, rfl, hf⟩ := hw
      exact ih.under ⟨t, o, dims, hv, rfl, rfl, hf⟩
  | @catenate arrays axis first origin w _ hw ih =>
      have hfacts := Item.catenate_isTyped (fun v hv => (ih v hv).facts) hw
      have hc : w.IsComputed := by
        cases arrays with
        | nil => cases hw
        | cons front rest => exact ⟨_, (Except.ok.inj hw).symm⟩
      exact hc.isTyped hfacts
  | amend _ _ hw hv hvalues =>
      have hfacts := Item.amend_isTyped hv.facts hvalues.facts hw
      obtain ⟨_, _, hw⟩ := bind_eq_ok.mp hw
      exact IsComputed.isTyped ⟨_, (Except.ok.inj hw).symm⟩ hfacts
  | amendMasked _ _ mask hv hvalues =>
      exact IsComputed.isTyped ⟨_, rfl⟩ (Item.amendMasked_isTyped hv.facts hvalues.facts mask)

theorem shows_of_settled (h : v.facts.IsTyped) {gen : Gen Item} {i : Int} {x : Item}
    (hg : v.settled.generator .now = .ok gen) (hx : gen.cell (.int i) = .ok x) :
    v.facts.Shows i x := by
  have hs := settles fun p hp => (h.fill p hp).settle_eq
  cases hraw : v.generator with
  | error e =>
      rw [hraw, hg] at hs
      cases hs
  | ok raw =>
      rw [hraw, hg] at hs
      obtain ⟨_, hgen, heach⟩ := hs
      obtain rfl := Except.ok.inj hgen
      obtain ⟨z, hz, hzx⟩ := bind_eq_ok.mp ((heach _).symm.trans hx)
      exact ⟨raw, z, hraw, hz, hzx⟩

/-- Every item that an array built from typed operands renders to is covered by the element type of
the array. -/
theorem Built.covers_items (h : Built w) {g : Grid Item}
    (hr : (Item.view w).render = .ok (.array g)) :
    ∃ t, w.etype = .ok t ∧ ∀ x ∈ g.items, t.covers x = true := by
  have htyped := h.isTyped
  by_cases hv : ∃ g', w = ofGrid g'
  · obtain ⟨g', rfl⟩ := hv
    cases hr
    have hk := htyped.kept g rfl
    exact ⟨g.etype, rfl, fun x hx => Grid.covers_of_mem hk.items hx⟩
  · rw [render_eq hv] at hr
    obtain ⟨g', hcollect, hg⟩ := map_eq_ok.mp hr
    cases hg
    obtain ⟨e, he, _⟩ := bind_eq_ok.mp hcollect
    have hshape := (shape_settled w).symm.trans he
    obtain ⟨s, rfl, hs⟩ := htyped.facts.shape e hshape
    obtain ⟨gen, xs, t, fill, hgen, hxs, ht, _, rfl⟩ := (Tower.collect_eq_ok he).mp hcollect
    rw [etype_settled] at ht
    refine ⟨t, ht, fun x hx => ?_⟩
    obtain ⟨y, hy, rfl⟩ := List.mem_map.mp hx
    obtain ⟨z, hz, rfl⟩ := List.mem_map.mp hy
    obtain ⟨i, hi, hcell⟩ := mem_of_mapM hxs hz
    have hshows := shows_of_settled htyped.facts hgen hcell
    exact EType.covers_countedFor
      (htyped.facts.covers s t i z hshape ht (mem_upTo.mp hi) hshows)

theorem built_ofInts (ns : List Int) : Built (ofGrid (Grid.ofInts ns)) := by
  have hk : (Grid.ofInts ns).IsKept := Grid.isKept_ofNumbers (by simp)
  have hs : (Grid.ofInts ns).shape.IsProper := by simp [Grid.ofInts, Grid.of, Shape.IsProper]
  refine .operand (hk.isTyped hs fun p hp => ?_) fun g hg => ?_
  · cases hp
  · cases hg
    exact hk

/-- Five cells taken of a vector in which one cell has been assigned to: its type is made for the
pads and for the new cell. -/
theorem take_amended_covered :
    ∃ v w g t, Item.amend (.view (ofGrid (Grid.ofInts [1, 2, 3]))) [some (.int 1)]
        ⟨some (ofGrid (Grid.ofInts [9])), none⟩ (.int 0) = .ok v ∧
      Item.take (.view v) (.int 5) none (.int 0) = .ok w ∧
      (Item.view w).render = .ok (.array g) ∧ g.items = [1, 9, 3, 0, 0].map Item.int ∧
      w.etype = .ok t ∧ (t.low, t.high) = (some (.int 0), some (.int 9)) ∧
      ∀ x ∈ g.items, t.covers x = true := by
  have amend : Item.amend (.view (ofGrid (Grid.ofInts [1, 2, 3]))) [some (.int 1)]
    ⟨some (ofGrid (Grid.ofInts [9])), none⟩ (.int 0) = .ok _ := rfl
  have amended := Built.amend (built_ofInts _) (built_ofInts _) amend
  have taken := Built.raise amended (.cut ⟨0, rfl⟩
    (by rfl : Item.take (.view _) (.int 5) none (.int 0) = .ok _))
  obtain ⟨t, ht, hcovers⟩ := taken.covers_items rfl
  refine ⟨_, _, _, t, rfl, rfl, rfl, rfl, ht, ?_, hcovers⟩
  cases ht
  rfl

end View
end LazyApl
