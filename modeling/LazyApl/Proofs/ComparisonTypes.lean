import LazyApl.Platform.Usual
import LazyApl.Vocabulary
import LazyApl.Proofs.Combining
import LazyApl.Proofs.Covering
/-!
# The element type of comparisons

A comparison makes zeros and ones, and where an operand hands out an array it makes an array of
them, to any depth. It declares the type of truth values in either case. So the type that it
declares covers the items at just those positions for which no operand hands out an array.
-/
namespace LazyApl

open Outcome

namespace Item

variable {x : Item} {g : Grid Item}

/-- Zero or one, or an array of such items. -/
inductive IsBits : Item → Prop
  | bit (b : Bool) : IsBits (ofBool b)
  | array {g : Grid Item} (items : ∀ y ∈ g.items, IsBits y) : IsBits (array g)

theorem IsBits.covers_iff (h : x.IsBits) : EType.bit.covers x = true ↔ x.isGrid = false := by
  cases h with
  | bit b => cases b <;> exact iff_of_true rfl rfl
  | array items => exact iff_of_false nofun nofun

theorem IsBits.unboxed (h : ∀ y ∈ g.items, y.IsBits) : g.unboxed.IsBits := by
  unfold Grid.unboxed
  split
  · rename_i y _ hitems
    split
    · exact .array h
    · exact h y (by simp [hitems])
  · exact .array h

theorem IsBits.stored_countedFor (h : x.IsBits) (k : Kind) : (x.countedFor k).stored.IsBits := by
  have hne : ∀ b, x ≠ truth b := by
    rintro b rfl
    cases h
  rw [countedFor_eq_self hne]
  cases h with
  | bit b => exact .bit b
  | @array g items => exact stored_array g ▸ IsBits.unboxed items

end Item

namespace Pervade

variable {es : List Extents} {vs : List (View Item)} {gens : List (Gen Item × Bool)}
  {args : List Item} {i : Int}

theorem isSingle_of_mem_plural {ps : List Extents} (h : plural es = .ok ps) :
    ∀ e ∈ ps, isSingle e = .ok false := by
  induction es generalizing ps with
  | nil =>
      cases h
      simp
  | cons s es ih =>
      obtain ⟨b, hb, h⟩ := bind_eq_ok.mp h
      obtain ⟨qs, hqs, h⟩ := bind_eq_ok.mp h
      cases b with
      | true =>
          cases h
          exact ih hqs
      | false =>
          cases h
          exact List.forall_mem_cons.mpr ⟨hb, ih hqs⟩

theorem eq_nil_of_commonShape (h : commonShape es = .ok []) : ∀ e ∈ es, e = [] := by
  obtain ⟨ps, hps, h⟩ := bind_eq_ok.mp h
  cases ps with
  | nil =>
      cases es with
      | nil => simp
      | cons s es =>
          intro e he
          have hlength := length_le_longest s es e he
          rw [Except.ok.inj h] at hlength
          exact List.length_eq_zero_iff.mp (Nat.le_zero.mp hlength)
  | cons s ps =>
      have hsingle := isSingle_of_mem_plural hps s List.mem_cons_self
      have hs : s = [] := by
        simp only at h
        split at h
        · exact Except.ok.inj h
        · split at h <;> cases h
      rw [hs] at hsingle
      cases hsingle

theorem anyArray_iff {b : Bool} (h : anyArray args = .ok b) :
    b = true ↔ ∃ x ∈ args, x.isArray = .ok true := by
  induction args with
  | nil =>
      cases h
      simp
  | cons x xs ih =>
      obtain ⟨c, hc, h⟩ := bind_eq_ok.mp h
      cases c with
      | true =>
          cases h
          exact iff_of_true rfl ⟨x, List.mem_cons_self, hc⟩
      | false =>
          rw [ih h, List.exists_mem_cons_iff, hc]
          simp

end Pervade

namespace View

variable {f : CellFunction} {result : ResultType} {vs : List (View Item)} {v : View Item}
  {g : Grid Item} {i : Int} {args : List Item} {y : Item}

/-- The item that an operand hands out for a position; one of a single cell hands out that cell for
every position. -/
def operandAt (v : View Item) (i : Int) : Except Fault Item := do
  let cells ← v.generator
  let count ← v.size
  cells.cell (if count.isOne then 0 else .int i)

/-- Some operand hands out an array for the position. -/
def MeetsArray (vs : List (View Item)) (i : Int) : Prop :=
  ∃ v ∈ vs, ∃ x, v.operandAt i = .ok x ∧ x.isArray = .ok true

theorem mapM_operandAt {gens : List (Gen Item × Bool)} (hg : Pervade.generators vs = .ok gens)
    (ha : Pervade.argumentsAt (.int i) gens = .ok args) : vs.mapM (·.operandAt i) = .ok args := by
  induction vs generalizing gens args with
  | nil =>
      cases hg
      cases ha
      rfl
  | cons v vs ih =>
      obtain ⟨cells, hcells, hg⟩ := bind_eq_ok.mp hg
      obtain ⟨count, hcount, hg⟩ := bind_eq_ok.mp hg
      obtain ⟨rest, hrest, hg⟩ := bind_eq_ok.mp hg
      cases hg
      obtain ⟨x, hx, ha⟩ := bind_eq_ok.mp ha
      obtain ⟨xs, hxs, ha⟩ := bind_eq_ok.mp ha
      cases ha
      have hhead : v.operandAt i = .ok x := by
        rw [operandAt, hcells, hcount]
        exact hx
      rw [List.mapM_cons, hhead, ih hrest hxs]
      rfl

/-- What a scalar function makes of arguments: an array made of all of them together if there is an
array among them, and what it answers on them otherwise. -/
theorem pervadedCells_cases (h : pervadedCells f result args >>= Item.settle = .ok y) :
    (Pervade.anyArray args = .ok true ∧
      ∃ g, (Item.view (pervade f result (args.map Item.lift))).render = .ok (.array g) ∧
        y = g.unboxed) ∨
    (Pervade.anyArray args = .ok false ∧ f args >>= Item.settle = .ok y) := by
  obtain ⟨x, hx, hy⟩ := bind_eq_ok.mp h
  obtain ⟨b, hb, hx⟩ := bind_eq_ok.mp hx
  cases b with
  | true =>
      cases hx
      exact .inl ⟨hb, render_of_settle hy⟩
  | false => exact .inr ⟨hb, bind_eq_ok.mpr ⟨x, hx, hy⟩⟩

theorem exists_items_pervade (hr : (Item.view (pervade f result vs)).render = .ok (.array g)) :
    g.items.length = g.shape.size.toNat ∧ ∃ gens e, Pervade.generators vs = .ok gens ∧
      ∀ i, g.shape.Holds i → ∃ args y, Pervade.argumentsAt (.int i) gens = .ok args ∧
        pervadedCells f result args >>= Item.settle = .ok y ∧
        g.items[i.toNat]? = some (y.countedFor e).stored := by
  have hshape := shape_of_render hr
  obtain ⟨cells, e, hcells, _, hlen, hitems⟩ :=
    (isComputed_pervade f result vs).exists_items hshape hr
  rw [generator_pervade] at hcells
  obtain ⟨_, _, hcells⟩ := bind_eq_ok.mp hcells
  obtain ⟨gens, hgens, hcells⟩ := bind_eq_ok.mp hcells
  cases hcells
  refine ⟨hlen, gens, e.kind, hgens, fun i hi => ?_⟩
  obtain ⟨x, y, hx, hy, hitem⟩ := hitems i hi
  obtain ⟨args, hargs, hx⟩ := bind_eq_ok.mp hx
  exact ⟨args, y, hargs, bind_eq_ok.mpr ⟨x, hx, hy⟩, hitem⟩

theorem exists_position (hr : (Item.view (pervade f result vs)).render = .ok (.array g))
    (hy : y ∈ g.items) : ∃ i, g.shape.Holds i ∧ g.items[i.toNat]? = some y := by
  obtain ⟨hlen, _⟩ := exists_items_pervade hr
  obtain ⟨n, hn, rfl⟩ := List.getElem_of_mem hy
  refine ⟨n, ?_, List.getElem?_eq_getElem hn⟩
  unfold Shape.Holds
  omega

/-- A scalar function of operands that can be read renders to what it makes at each position, if
this is stored as it is. -/
theorem ReadAs.render_pervade {ps : List (Shape × Gen Item)} {t : Shape} {u : EType}
    {y : Int → Item} (h : ReadAs vs ps)
    (ht : Pervade.commonShape (ps.map fun p => .ofShape p.1) = .ok (.ofShape t)) (hp : t.IsProper)
    (h0 : t.size ≠ 0)
    (hy : ∀ i, t.Holds i → takenAt ps i >>= pervadedCells f (.fixed u) >>= Item.settle = .ok (y i))
    (hstored : ∀ i, t.Holds i → ((y i).countedFor u.kind).stored = y i) :
    (Item.view (pervade f (.fixed u) vs)).render = .ok (.array ⟨t, (upTo t.size).map y, none⟩) := by
  obtain ⟨hshape, cells, hcells, heach⟩ := h.generator_pervade f (.fixed u) ht
  have hetype : (pervade f (.fixed u) vs).etype = .ok u := etype_pervade f (.fixed u) vs
  have hoffers : (pervade f (.fixed u) vs).Offers t y :=
    ⟨hshape, ⟨u, hetype⟩, cells, hcells, fun i hi => heach i ▸ hy i hi⟩
  have hr := render_of_stored (p := .nothing) (isReady_pervade_of hshape hp)
    (isComputed_pervade f (.fixed u) vs) hoffers hetype (fun h => absurd h h0) hstored
  rwa [if_neg h0] at hr

/-- The function answers with zeros and ones. -/
def AnswersBits (f : CellFunction) : Prop := ∀ args z, f args = .ok z → ∃ b, z = Item.ofBool b

theorem answersBits_test (test : Item → Item → Except Fault Bool) :
    AnswersBits (CellFunction.test test) := by
  intro args z h
  rcases args with _ | ⟨a, _ | ⟨x, _ | ⟨_, _⟩⟩⟩
  · cases h
  · cases h
  · obtain ⟨b, _, hz⟩ := bind_eq_ok.mp h
    cases hz
    exact ⟨b, rfl⟩
  · cases h

theorem AnswersBits.exists_eq (hf : AnswersBits f) (h : f args >>= Item.settle = .ok y) :
    ∃ b, y = Item.ofBool b := by
  obtain ⟨z, hz, hy⟩ := bind_eq_ok.mp h
  obtain ⟨b, rfl⟩ := hf args z hz
  cases hy
  exact ⟨b, rfl⟩

theorem AnswersBits.isBits (hf : AnswersBits f)
    (hr : (Item.view (pervade f result vs)).render = .ok (.array g)) : ∀ y ∈ g.items, y.IsBits := by
  -- level by level: where arrays meet, the items are arrays of what is made one level below
  induction acc_allDescend vs generalizing g with
  | intro vs _ ih =>
      obtain ⟨_, gens, k, hgens, hitems⟩ := exists_items_pervade hr
      intro z hz
      obtain ⟨i, hi, hzi⟩ := exists_position hr hz
      obtain ⟨args, y, hargs, hy, hitem⟩ := hitems i hi
      have hbits : y.IsBits := by
        rcases pervadedCells_cases hy with ⟨hany, g', hr', rfl⟩ | ⟨_, hy⟩
        · exact .unboxed (ih _ (Pervade.allDescend_argumentsAt hgens hargs hany) hr')
        · obtain ⟨b, rfl⟩ := hf.exists_eq hy
          exact .bit b
      obtain rfl := Option.some.inj (hzi.symm.trans hitem)
      exact hbits.stored_countedFor k

theorem isSound_operandAt (hv : (Item.view v).IsSound) (hx : v.operandAt i = .ok y) :
    y.IsSound := by
  obtain ⟨cells, hcells, hx⟩ := bind_eq_ok.mp hx
  obtain ⟨count, _, hx⟩ := bind_eq_ok.mp hx
  cases hv with
  | view _ sound => exact sound cells _ y hcells hx

theorem isArray_operandAt (hs : v.shape = .ok []) (ha : (Item.view v).isArray = .ok true)
    (hy : v.operandAt 0 = .ok y) : y.isArray = .ok true := by
  obtain ⟨cells, hcells, hy⟩ := bind_eq_ok.mp hy
  obtain ⟨count, _, hy⟩ := bind_eq_ok.mp hy
  have hy : cells.cell 0 = .ok y := by
    split at hy <;> exact hy
  exact isArray_of_isArray_scalar hs ha hcells hy

/-- What is made of operands of which one is an array is an array, in no box. -/
theorem unboxed_pervade (hr : (Item.view (pervade f result vs)).render = .ok (.array g))
    (hv : v ∈ vs) (hsound : (Item.view v).IsSound) (ha : (Item.view v).isArray = .ok true) :
    g.unboxed = .array g := by
  -- only a scalar can be a box, and then the array that its operand hands out is met one level
  -- below
  induction acc_allDescend vs generalizing g v with
  | intro vs _ ih =>
      by_cases hnil : g.shape = []
      · obtain ⟨hlen, gens, k, hgens, hitems⟩ := exists_items_pervade hr
        have hscalar : v.shape = .ok [] := by
          have hshape := shape_of_render hr
          rw [hnil, shape_pervade] at hshape
          obtain ⟨es, hes, hcommon⟩ := bind_eq_ok.mp hshape
          obtain ⟨e, he, hve⟩ := exists_mem_of_mapM hes hv
          rw [hve, Pervade.eq_nil_of_commonShape hcommon e he]
        obtain ⟨args, y, hargs, hy, hitem⟩ := hitems 0 (by simp [hnil, Shape.Holds])
        obtain ⟨x, hx, hoperand⟩ := exists_mem_of_mapM (mapM_operandAt hgens hargs) hv
        have hxa := isArray_operandAt hscalar ha hoperand
        have hxs := isSound_operandAt hsound hoperand
        rcases pervadedCells_cases hy with ⟨hany, g', hr', rfl⟩ | ⟨hany, _⟩
        · have hinner := ih _ (Pervade.allDescend_argumentsAt hgens hargs hany) hr'
            (List.mem_map_of_mem hx) (hxs.lift hxa) (hxs.isArray_lift hxa)
          rw [hinner, Item.countedFor_eq_self (by simp), Item.stored_array, hinner] at hitem
          have hitems : g.items = [.array g'] := by
            rw [hnil] at hlen
            obtain ⟨z, hz⟩ := List.length_eq_one_iff.mp hlen
            rw [hz] at hitem ⊢
            exact congrArg (fun z => [z]) (Option.some.inj hitem)
          simp [Grid.unboxed, hnil, hitems, Item.isGrid]
        · exact absurd ((Pervade.anyArray_iff hany).mpr ⟨x, hx, hxa⟩) Bool.false_ne_true
      · exact Grid.unboxed_of_shape hnil

/-- The type of truth values covers what is made at a position exactly if no operand hands out an
array for it. -/
theorem AnswersBits.covers_iff (hf : AnswersBits f) (hsound : ∀ v ∈ vs, (Item.view v).IsSound)
    (hr : (Item.view (pervade f result vs)).render = .ok (.array g)) (hi : g.shape.Holds i) :
    ∃ y, g.items[i.toNat]? = some y ∧ (EType.bit.covers y = true ↔ ¬ MeetsArray vs i) := by
  obtain ⟨_, gens, k, hgens, hitems⟩ := exists_items_pervade hr
  obtain ⟨args, y, hargs, hy, hitem⟩ := hitems i hi
  have hoperands := mapM_operandAt hgens hargs
  refine ⟨_, hitem, ?_⟩
  rw [(hf.isBits hr _ (List.mem_of_getElem? hitem)).covers_iff]
  rcases pervadedCells_cases hy with ⟨hany, g', hr', rfl⟩ | ⟨hany, hy⟩
  · obtain ⟨x, hx, hxa⟩ := (Pervade.anyArray_iff hany).mp rfl
    obtain ⟨v, hv, hvx⟩ := mem_of_mapM hoperands hx
    have hxs := isSound_operandAt (hsound v hv) hvx
    have hbox := unboxed_pervade hr' (List.mem_map_of_mem hx) (hxs.lift hxa) (hxs.isArray_lift hxa)
    rw [hbox, Item.countedFor_eq_self (by simp), Item.stored_array, hbox]
    exact iff_of_false (by simp [Item.isGrid]) (not_not_intro ⟨v, hv, x, hvx, hxa⟩)
  · obtain ⟨b, rfl⟩ := hf.exists_eq hy
    rw [Item.countedFor_eq_self (by simp [Item.ofBool])]
    refine iff_of_true rfl ?_
    rintro ⟨v, hv, x, hvx, hxa⟩
    obtain ⟨x', hx', hvx'⟩ := exists_mem_of_mapM hoperands hv
    obtain rfl := Except.ok.inj (hvx.symm.trans hvx')
    exact absurd ((Pervade.anyArray_iff hany).mpr ⟨x, hx', hxa⟩) Bool.false_ne_true

theorem AnswersBits.covers_all_iff (hf : AnswersBits f) (hsound : ∀ v ∈ vs, (Item.view v).IsSound)
    (hr : (Item.view (pervade f result vs)).render = .ok (.array g)) :
    (∀ y ∈ g.items, EType.bit.covers y = true) ↔ ∀ i, g.shape.Holds i → ¬ MeetsArray vs i := by
  constructor
  · intro hall i hi
    obtain ⟨y, hy, hiff⟩ := hf.covers_iff hsound hr hi
    exact hiff.mp (hall y (List.mem_of_getElem? hy))
  · intro hall y hy
    obtain ⟨i, hi, hitem⟩ := exists_position hr hy
    obtain ⟨z, hz, hiff⟩ := hf.covers_iff hsound hr hi
    obtain rfl := Option.some.inj (hitem.symm.trans hz)
    exact hiff.mpr (hall i hi)

end View

namespace Vocabulary

def comparisons : List String := ["=", "≠", "<", ">", "≤", "≥"]

theorem exists_comparison [Platform] {glyph : String} (h : glyph ∈ comparisons) :
    ∃ test : Tolerance → Item → Item → Except Fault Bool, dyadic glyph = .ok fun c _ a x =>
      .ok (View.pervade (CellFunction.test (test c.tolerance)) (.fixed EType.bit)
        [a.lift, x.lift]) := by
  simp only [comparisons, List.mem_cons, List.not_mem_nil, or_false] at h
  rcases h with rfl | rfl | rfl | rfl | rfl | rfl
  · exact ⟨Item.near, rfl⟩
  · exact ⟨denied Item.near, rfl⟩
  · exact ⟨Item.clearlyLess, rfl⟩
  · exact ⟨fun ct a b => Item.clearlyLess ct b a, rfl⟩
  · exact ⟨denied fun ct a b => Item.clearlyLess ct b a, rfl⟩
  · exact ⟨denied Item.clearlyLess, rfl⟩

/-- A comparison declares the type of truth values. What it renders to consists of zeros, ones and
arrays of them, to any depth. The type covers the items at just those positions for which no operand
hands out an array, so it covers all of them exactly if no operand hands out any. -/
theorem comparison_covers_iff [Platform] {glyph : String} (hglyph : glyph ∈ comparisons) :
    ∃ form, dyadic glyph = .ok form ∧ ∀ c axis a x, ∃ v, form c axis a x = .ok v ∧
      v.etype = .ok EType.bit ∧ ∀ g, (Item.view v).render = .ok (.array g) →
        (∀ y ∈ g.items, y.IsBits) ∧
        ((Item.view a.lift).IsSound → (Item.view x.lift).IsSound →
          (∀ i, g.shape.Holds i → ∃ y, g.items[i.toNat]? = some y ∧
            (EType.bit.covers y = true ↔ ¬ View.MeetsArray [a.lift, x.lift] i)) ∧
          ((∀ y ∈ g.items, EType.bit.covers y = true) ↔
            ∀ i, g.shape.Holds i → ¬ View.MeetsArray [a.lift, x.lift] i)) := by
  obtain ⟨test, hform⟩ := exists_comparison hglyph
  refine ⟨_, hform, fun c _ a x => ⟨_, rfl, ?_, fun g hr => ?_⟩⟩
  · rw [View.etype_pervade]
    rfl
  · have hf := View.answersBits_test (test c.tolerance)
    refine ⟨hf.isBits hr, fun ha hx => ?_⟩
    have hsound : ∀ v ∈ [a.lift, x.lift], (Item.view v).IsSound :=
      List.forall_mem_cons.mpr ⟨ha, List.forall_mem_singleton.mpr hx⟩
    exact ⟨fun i hi => hf.covers_iff hsound hr hi, hf.covers_all_iff hsound hr⟩

/-- The settings of a call without tolerance. -/
def strict : Setting := ⟨.int 0, .int 0, ⟨[], .shared 0, fun _ => none⟩⟩

def pairAndNumber : Item := .list [.list [.int 1, .int 2], .int 3]

/-- The first and the last number of a pair and a number. -/
def ends : Item := .list [.int 1, .int 3]

def strictlyEqual [Platform] (a x : Item) : View Item :=
  View.pervade (CellFunction.test (Item.near (.int 0))) (.fixed EType.bit) [a.lift, x.lift]

theorem holds_pair {i : Int} (hi : Shape.Holds [2] i) : i = 0 ∨ i = 1 := by
  have hi : 0 ≤ i ∧ i < 2 := hi
  omega

theorem render_pair_strictlyEqual [Platform] :
    (Item.view (strictlyEqual (.array (Grid.ofInts [1, 2])) (.int 1))).render =
      .ok (.array (Grid.ofInts [1, 0])) := by
  have read : View.ReadAs [(Item.array (Grid.ofInts [1, 2])).lift, (Item.int 1).lift]
      [([2], _), ([], _)] := .cons ⟨rfl, rfl⟩ (.cons ⟨rfl, rfl⟩ .nil)
  refine read.render_pervade (y := fun i => if i = 0 then .int 1 else .int 0) rfl
    (by simp [Shape.IsProper]) (by decide) (fun i hi => ?_) fun i hi => ?_
  · rcases holds_pair hi with rfl | rfl <;> rfl
  · rcases holds_pair hi with rfl | rfl <;> rfl

theorem render_pairAndNumber_strictlyEqual [Platform] :
    (Item.view (strictlyEqual pairAndNumber ends)).render =
      .ok (.array ⟨[2], [.array (Grid.ofInts [1, 0]), .int 1], none⟩) := by
  have read : View.ReadAs [pairAndNumber.lift, ends.lift] [([2], _), ([2], _)] :=
    .cons ⟨rfl, rfl⟩ (.cons ⟨rfl, rfl⟩ .nil)
  refine read.render_pervade (y := fun i => if i = 0 then .array (Grid.ofInts [1, 0]) else .int 1)
    rfl (by simp [Shape.IsProper]) (by decide) (fun i hi => ?_) fun i hi => ?_
  · rcases holds_pair hi with rfl | rfl
    · exact View.settle_of_render render_pair_strictlyEqual
    · rfl
  · rcases holds_pair hi with rfl | rfl <;> rfl

open scoped Usual in
/-- What is made for the pair is an array, which the type of truth values does not cover. -/
theorem pairAndNumber_equal_ends : "=" ∈ comparisons ∧ ∃ form v, dyadic "=" = .ok form ∧
    form strict none pairAndNumber ends = .ok v ∧ v.etype = .ok EType.bit ∧
    (Item.view v).render = .ok (.array ⟨[2], [.array (Grid.ofInts [1, 0]), .int 1], none⟩) ∧
    EType.bit.covers (.array (Grid.ofInts [1, 0])) = false := by
  have number (n : Int) : (Item.int n).IsLiteral := .scalar (.int n)
  have pair : (Item.list [.int 1, .int 2]).IsLiteral := .list (by simp [number])
  have nested : pairAndNumber.IsLiteral := .list (by simp [number, pair])
  have plain : ends.IsLiteral := .list (by simp [number])
  have glyph : "=" ∈ comparisons := by decide
  have rendered := render_pairAndNumber_strictlyEqual
  obtain ⟨form, hform, hmake⟩ := comparison_covers_iff glyph
  obtain ⟨v, hv, hetype, hcovers⟩ := hmake strict none pairAndNumber ends
  cases hform
  cases hv
  refine ⟨glyph, _, _, rfl, rfl, hetype, rendered, ?_⟩
  have hitems := ((hcovers _ rendered).2 nested.isSound_lift plain.isSound_lift).1
  obtain ⟨y, hy, hiff⟩ := hitems 0 (by decide)
  cases hy
  have hmeets : View.MeetsArray [pairAndNumber.lift, ends.lift] 0 :=
    ⟨pairAndNumber.lift, List.mem_cons_self, .array (Grid.ofInts [1, 2]), rfl, rfl⟩
  exact Bool.eq_false_iff.mpr fun h => hiff.mp h hmeets

end Vocabulary
end LazyApl
