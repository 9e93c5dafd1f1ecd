import LazyApl.Inspect
import LazyApl.Proofs.Asking
import LazyApl.Proofs.Joining
import LazyApl.Proofs.Picking
/-!
# What questions ask for

An array is made and asked again each time something has been drawn. So what can be known of it is a
question to the contents drawn so far, and such a question is honest if it asks for no more than it
may and keeps its answer, once it has one, while more is drawn. If the shape, the element type, the
fill and the cells of an array are honest questions, then so are those that are asked of it.
-/
namespace LazyApl

open Outcome

namespace Item

/-- An item that holds no view, to any depth. -/
inductive IsBare : Item → Prop
  | scalar (s : Scalar) : IsBare (scalar s)
  | list {xs : List Item} (items : ∀ x ∈ xs, IsBare x) : IsBare (list xs)
  | array {g : Grid Item} (items : ∀ x ∈ g.items, IsBare x)
      (fill : ∀ x, g.fill = some x → IsBare x) : IsBare (array g)

variable {x : Item}

theorem IsBare.settle_eq (h : x.IsBare) : x.settle = .ok x := by
  cases h <;> rfl

theorem exposedAll_eq {xs : List Item} (h : ∀ x ∈ xs, x.exposed = .ok x) :
    exposedAll xs = .ok xs := by
  induction xs with
  | nil => rfl
  | cons x xs ih =>
      rw [exposedAll, h x List.mem_cons_self, ih fun y hy => h y (List.mem_cons_of_mem x hy)]
      rfl

theorem exposed_array {g : Grid Item} (h : ∀ x ∈ g.items, x.exposed = .ok x) :
    (array g).exposed = .ok (array g) := by
  obtain ⟨shape, items, fill⟩ := g
  rw [exposed, exposedAll_eq h]
  rfl

theorem IsBare.exposed_eq (h : x.IsBare) : x.exposed = .ok x := by
  induction h with
  | scalar s => rfl
  | list _ ih =>
      rw [exposed, exposedAll_eq ih]
      rfl
  | array _ _ ih _ => exact exposed_array ih

theorem IsBare.counted (h : x.IsBare) : x.counted.IsBare := by
  cases h with
  | scalar s => cases s <;> exact .scalar _
  | list items => exact .list items
  | array items fill => exact .array items fill

theorem isBare_characters (s : String) : (characters s).IsBare := by
  refine .array (fun x hx => ?_) fun x hx => ?_
  · obtain ⟨c, _, rfl⟩ := List.mem_map.mp hx
    exact .scalar _
  · cases hx
    exact .scalar _

theorem IsBare.stored (h : x.IsBare) : x.stored.IsBare := by
  cases h with
  | scalar s =>
      cases s with
      | text t =>
          rw [Item.stored]
          split
          · exact .scalar _
          · exact isBare_characters t
      | _ => exact .scalar _
  | list items => exact .list items
  | @array g items fill =>
      rw [Item.stored]
      split
      · rename_i y _ hy
        split
        · exact .array items fill
        · exact items y (by simp [hy])
      · exact .array items fill

theorem typifyAll_eq_map (xs : List Item) : typifyAll xs = xs.map fun y => y.typify.stored := by
  induction xs with
  | nil => rfl
  | cons x xs ih => rw [typifyAll, ih, List.map_cons]

theorem IsBare.typify (h : x.IsBare) : x.typify.IsBare := by
  induction h with
  | scalar s => cases s <;> exact .scalar _
  | list _ _ => exact .scalar _
  | @array g _ fill_bare ih _ =>
      obtain ⟨shape, xs, fill⟩ := g
      rw [Item.typify, typifyAll_eq_map]
      refine .array (fun y hy => ?_) fun y hy => ?_
      · obtain ⟨z, hz, rfl⟩ := List.mem_map.mp hy
        exact (ih z hz).stored
      · dsimp only at hy
        split at hy
        · obtain rfl := Option.some.inj hy
          cases hf : fill with
          | none => exact .scalar _
          | some z => exact fill_bare z hf
        · cases hy

theorem IsBare.vectorOf (h : x.IsBare) : x.vectorOf.IsBare := by
  induction h with
  | scalar s =>
      rw [Item.vectorOf]
      · exact (IsBare.scalar s).counted
      · exact nofun
  | list _ ih =>
      rw [Item.vectorOf, vectorsOf_eq_map]
      refine .array (fun y hy => ?_) nofun
      obtain ⟨z, hz, rfl⟩ := List.mem_map.mp hy
      obtain ⟨x, hx, rfl⟩ := List.mem_map.mp hz
      exact (ih x hx).stored
  | array items fill _ _ =>
      rw [Item.vectorOf]
      · exact .array items fill
      · exact nofun

theorem IsBare.ofScalar (h : x.IsBare) : (Item.array (Grid.ofScalar x)).IsBare := by
  refine .array (fun y hy => ?_) nofun
  obtain rfl := List.mem_singleton.mp hy
  exact h.stored

theorem IsBare.exists_lift (h : x.IsBare) :
    ∃ g, x.lift = View.ofGrid g ∧ (Item.array g).IsBare := by
  have hv := h.vectorOf
  cases h with
  | array items fill => exact ⟨_, rfl, .array items fill⟩
  | _ =>
      unfold lift
      dsimp only
      split
      · rename_i g hg
        exact ⟨g, rfl, hg ▸ hv⟩
      · rename_i t ht
        split
        · exact ⟨_, rfl, (IsBare.scalar _).ofScalar⟩
        · exact ⟨_, rfl, isBare_characters t⟩
      · exact ⟨_, rfl, hv.ofScalar⟩

theorem settledGen_eq_map (gen : Except Fault (Gen Item)) :
    settledGen gen = settledCells <$> gen := by
  cases gen <;> rfl

end Item

namespace View

variable {A : Requests} {w : View Item} {g : Grid Item}

/-- What an array asks for when it is asked for its parts. Neither what it hands out nor its fill
has to be rendered. -/
structure AsksOnly (A : Requests) (w : View Item) : Prop where
  shape : Outcome.AsksOnly A w.shape
  etype : Outcome.AsksOnly A w.etype
  prototype : Outcome.AsksOnly A w.prototype
  generator : Outcome.AsksOnly A w.generator
  cells : ∀ gen, w.generator = .ok gen → ∀ i, Outcome.AsksOnly A (gen.cell i)
  bare : ∀ gen, w.generator = .ok gen → ∀ i x, gen.cell i = .ok x → x.IsBare
  fill : ∀ x, w.prototype = .ok x → x.IsBare

theorem AsksOnly.settled (h : w.AsksOnly A) {gen : Gen Item} (hg : w.generator = .ok gen)
    (i : Number) : gen.cell i >>= Item.settle = gen.cell i := by
  cases hx : gen.cell i with
  | error e => rfl
  | ok x => exact (h.bare gen hg i x hx).settle_eq

theorem AsksOnly.mono {B : Requests} (h : w.AsksOnly A) (hA : ∀ label source draw,
    A label source draw → B label source draw) : w.AsksOnly B :=
  ⟨h.shape.mono hA, h.etype.mono hA, h.prototype.mono hA, h.generator.mono hA,
    fun gen hg i => (h.cells gen hg i).mono hA, h.bare, h.fill⟩

abbrev IsKnown (w : View Item) : Prop := w.AsksOnly fun _ _ _ => False

/-- An array at hand asks for nothing. -/
theorem asksOnly_ofGrid (h : (Item.array g).IsBare) : (ofGrid g).AsksOnly A := by
  have hitems : ∀ x ∈ g.items, x.IsBare := by
    cases h with
    | array items fill => exact items
  refine ⟨asksOnly_ok _, asksOnly_ok _, asksOnly_ok _, ?_, fun gen hg i => ?_,
    fun gen hg i x hx => ?_, fun x hx => ?_⟩
  · change Outcome.AsksOnly A g.generator
    unfold Grid.generator
    split <;> simp
  · change g.generator = .ok gen at hg
    unfold Grid.generator at hg
    split at hg
    · cases hg
      exact asksOnly_ok _
    · cases hg
    · cases hg
      exact asksOnly_pickBy _ _
  · exact hitems x (Root.mem_of_cell hg hx)
  · cases hx
    cases h with
    | array items fill =>
        unfold Grid.prototype
        split
        · rename_i hg
          cases hf : g.fill with
          | none => exact .scalar _
          | some y => exact fill y hf
        · rename_i y rest hg
          exact (items y (by simp [hg])).typify

end View

namespace Question

/-- The questions of what an array holds. -/
inductive IsBasic : Question → Prop
  | shape : IsBasic shape
  | etype : IsBasic etype
  | prototype : IsBasic prototype
  | items : IsBasic items
  | cell (place : Item) : IsBasic (cell place)
  | render : IsBasic render

end Question

namespace View

variable {A : Requests} {w w' : View Item}

/-- An array before and after more has been drawn: what it answered, it answers again. -/
structure KeptAs (w w' : View Item) : Prop where
  shape : Keeps Eq w.shape w'.shape
  etype : Keeps Eq w.etype w'.etype
  prototype : Keeps Eq w.prototype w'.prototype
  generator : Keeps Eq w.generator w'.generator

theorem KeptAs.refl (w : View Item) : w.KeptAs w := ⟨.refl _, .refl _, .refl _, .refl _⟩

theorem KeptAs.render (h : w.KeptAs w') (hw : w.IsComputed) (hw' : w'.IsComputed) :
    Keeps Eq (Item.view w).render (Item.view w').render := by
  rw [hw.render_eq, hw'.render_eq]
  simp only [Tower.collect, shape_settled, etype_settled, prototype_settled,
    hw.generator_settledGen, hw'.generator_settledGen, Item.settledGen_eq_map]
  refine Keeps.map (R := Eq) ?_ fun g g' hg => hg ▸ rfl
  apply h.shape.bind_eq
  intro e
  apply (h.generator.map fun gen gen' hg => congrArg Item.settledCells hg).bind_eq
  intro gen
  apply (Keeps.refl _).bind_eq
  intro n
  apply (Keeps.refl _).bind_eq
  intro xs
  apply h.etype.bind_eq
  intro t
  split
  · apply (h.prototype.map fun x y hx => congrArg some hx).bind_eq
    intro fill
    exact .refl _
  · exact .refl _

theorem KeptAs.items (h : w.KeptAs w') : Keeps Eq (Item.view w).items (Item.view w').items :=
  h.generator.bind_eq fun _ => h.shape.bind_eq fun _ => .refl _

/-- A computed array answers a question of what it holds as it did before. -/
theorem KeptAs.ask (h : w.KeptAs w') (hw : w.IsComputed) (hw' : w'.IsComputed) {p : Question}
    (hp : p.IsBasic) : Keeps Eq (p.ask (.view w)) (p.ask (.view w')) := by
  cases hp with
  | shape => exact h.shape.bind_eq fun e => .refl _
  | etype => exact h.etype.bind_eq fun t => .refl _
  | prototype => exact h.prototype.bind_eq fun x => .refl _
  | items => exact h.items.bind_eq fun xs => .refl _
  | cell place =>
      have hcell : Keeps Eq (Inspect.cellAt (.view w) place) (Inspect.cellAt (.view w') place) := by
        unfold Inspect.cellAt
        cases Inspect.position? place with
        | some i => exact h.generator.bind_eq fun gen => .refl _
        | none => exact h.generator.bind_eq fun gen => .refl _
      exact hcell.bind_eq fun x => .refl _
  | render => exact (h.render hw hw').bind_eq fun x => .refl _

theorem AsksOnly.asksOnly_items (h : w.AsksOnly A) : Outcome.AsksOnly A (Item.view w).items := by
  apply AsksOnly.bind h.generator
  intro gen hg
  apply AsksOnly.bind h.shape
  intro e _
  apply asksOnly_bind (Extents.asksOnly_count e)
  intro n
  apply AsksOnly.mapM
  intro i _
  rw [h.settled hg]
  exact h.cells gen hg _

theorem AsksOnly.isBare_items (h : w.AsksOnly A) {xs : List Item}
    (hx : (Item.view w).items = .ok xs) : (Item.list xs).IsBare := by
  obtain ⟨gen, hg, hx⟩ := bind_eq_ok.mp hx
  obtain ⟨e, _, hx⟩ := bind_eq_ok.mp hx
  obtain ⟨n, _, hx⟩ := bind_eq_ok.mp hx
  apply Item.IsBare.list
  intro x hmem
  obtain ⟨i, _, hi⟩ := mem_of_mapM hx hmem
  rw [h.settled hg] at hi
  exact h.bare gen hg _ x hi

/-- While an array is rendered it hands out what it hands out otherwise. -/
theorem AsksOnly.cell_settled (h : w.AsksOnly A) {gen : Gen Item}
    (hg : Item.settledGen w.generator = .ok gen) (i : Number) :
    ∃ gen', w.generator = .ok gen' ∧ gen.cell i = gen'.cell i := by
  have hs := Item.settles_gen w.generator
  cases hw : w.generator with
  | error e =>
      rw [hw] at hg
      cases hg
  | ok gen' =>
      rw [hw] at hs hg
      obtain ⟨cells, hcells, hcell⟩ := hs
      cases hg.symm.trans hcells
      exact ⟨gen', rfl, (hcell i).trans (h.settled hw i)⟩

theorem AsksOnly.asksOnly_collect (h : w.AsksOnly A) (hw : w.IsComputed) :
    Outcome.AsksOnly A (Tower.collect w.settled) := by
  simp only [Tower.collect, shape_settled, etype_settled, prototype_settled,
    hw.generator_settledGen]
  apply asksOnly_bind h.shape
  intro e
  apply AsksOnly.bind
  · rw [Item.settledGen_eq_map]
    exact asksOnly_map.mpr h.generator
  intro gen hg
  apply asksOnly_bind (Extents.asksOnly_count e)
  intro n
  apply asksOnly_bind
  · apply AsksOnly.mapM
    intro i _
    obtain ⟨gen', hg', hcell⟩ := h.cell_settled hg (.int i)
    rw [hcell]
    exact h.cells gen' hg' _
  intro xs
  apply asksOnly_bind h.etype
  intro t
  split
  · exact asksOnly_bind (asksOnly_map.mpr h.prototype) fun fill => by simp
  · simp

theorem AsksOnly.exposed_render (h : w.AsksOnly A) (hw : w.IsComputed) {x : Item}
    (hx : (Item.view w).render = .ok x) : x.exposed = .ok x := by
  rw [hw.render_eq] at hx
  obtain ⟨g, hg, rfl⟩ := map_eq_ok.mp hx
  obtain ⟨_, gen, xs, k, hgen, hitems, hxs⟩ := Tower.items_of_collect hg
  rw [hw.generator_settledGen] at hgen
  apply Item.exposed_array
  rw [hitems]
  intro y hy
  obtain ⟨z, hz, rfl⟩ := List.mem_map.mp hy
  obtain ⟨x, hx, rfl⟩ := List.mem_map.mp hz
  obtain ⟨i, hi⟩ := hxs x hx
  obtain ⟨gen', hg', hcell⟩ := h.cell_settled hgen i
  have hbare := h.bare gen' hg' i x (hcell.symm.trans hi)
  unfold Item.countedFor
  split
  · exact hbare.counted.stored.exposed_eq
  · exact hbare.stored.exposed_eq

/-- Questions of what a computed array holds ask for no more than its parts. -/
theorem AsksOnly.ask (h : w.AsksOnly A) (hw : w.IsComputed) {p : Question} (hp : p.IsBasic) :
    Outcome.AsksOnly A (p.ask (.view w)) := by
  cases hp with
  | shape => exact asksOnly_bind h.shape fun e => asksOnly_pure _
  | etype => exact asksOnly_bind h.etype fun t => asksOnly_pure _
  | prototype =>
      apply AsksOnly.bind h.prototype
      intro x hx
      rw [(h.fill x hx).exposed_eq]
      exact asksOnly_pure _
  | items =>
      apply AsksOnly.bind h.asksOnly_items
      intro xs hx
      rw [(h.isBare_items hx).exposed_eq]
      exact asksOnly_pure _
  | cell place =>
      have hcell : Outcome.AsksOnly A (Inspect.cellAt (.view w) place) ∧
          ∀ x, Inspect.cellAt (.view w) place = .ok x → x.IsBare := by
        unfold Inspect.cellAt
        cases Inspect.position? place with
        | some i =>
            refine ⟨h.generator.bind fun gen hg => h.cells gen hg i, fun x hx => ?_⟩
            obtain ⟨gen, hg, hx⟩ := bind_eq_ok.mp hx
            exact h.bare gen hg i x hx
        | none =>
            refine ⟨asksOnly_bind h.generator fun gen => ?_, fun x hx => ?_⟩
            · cases gen <;> simp
            · obtain ⟨gen, hg, hx⟩ := bind_eq_ok.mp hx
              cases gen with
              | single y =>
                  cases hx
                  exact h.bare _ hg 0 x rfl
              | indexed f => cases hx
      apply AsksOnly.bind hcell.1
      intro x hx
      rw [(hcell.2 x hx).exposed_eq]
      exact asksOnly_pure _
  | render =>
      apply AsksOnly.bind
      · rw [hw.render_eq]
        exact asksOnly_map.mpr (h.asksOnly_collect hw)
      intro x hx
      rw [h.exposed_render hw hx]
      exact asksOnly_pure _

end View

namespace Item

variable {A : Requests} {xs ys : List Item} {w : View Item} (axis : Option Item) (first : Bool)
  (origin : Origin)

/-- An item before and after more has been drawn. -/
inductive KeptAs : Item → Item → Prop
  | refl (x : Item) : KeptAs x x
  | view {w w' : View Item} (h : w.KeptAs w') : KeptAs (view w) (view w')

theorem KeptAs.lift {x y : Item} (h : x.KeptAs y) : x.lift.KeptAs y.lift := by
  cases h with
  | refl => exact .refl _
  | view h => exact h

theorem asksOnly_catenate : Outcome.AsksOnly A (catenate xs axis first origin) := by
  cases xs <;> simp [catenate]

theorem exists_generator_of_catenate (hw : catenate xs axis first origin = .ok w) {gen : Gen Item}
    (hg : w.generator = .ok gen) {x : Item} (hx : x ∈ xs) : ∃ g, x.lift.generator = .ok g := by
  cases xs with
  | nil => cases hx
  | cons front rest =>
      obtain rfl := Except.ok.inj hw
      obtain ⟨_, _, hg⟩ := bind_eq_ok.mp hg
      obtain ⟨gens, hgens, _⟩ := bind_eq_ok.mp hg
      obtain ⟨g, _, hgen⟩ := exists_mem_of_mapM hgens (List.mem_map_of_mem hx)
      exact ⟨g, hgen⟩

/-- A join asks for no more than its parts. -/
theorem asksOnly_of_catenate (h : ∀ x ∈ xs, x.lift.AsksOnly A)
    (hw : catenate xs axis first origin = .ok w) : w.IsComputed ∧ w.AsksOnly A := by
  have hcells : ∀ gen, w.generator = .ok gen → (∀ i, Outcome.AsksOnly A (gen.cell i)) ∧
      ∀ i x, gen.cell i = .ok x → x.IsBare := by
    intro gen hg
    obtain ⟨j, between, shapes, gens, rfl, hgens⟩ := generator_of_catenate axis first origin hw hg
    refine ⟨Join.asksOnly_cells fun g hmem i => ?_, fun i x hx => ?_⟩
    · obtain ⟨y, hy, hgen⟩ := hgens g hmem
      exact (h y hy).cells g hgen i
    · obtain ⟨g, hmem, k, hk⟩ := Join.exists_cell hx
      obtain ⟨y, hy, hgen⟩ := hgens g hmem
      exact (h y hy).bare g hgen k x hk
  cases xs with
  | nil => cases hw
  | cons front rest =>
      have hparts : ∀ v ∈ (front :: rest).map lift, v.AsksOnly A := by
        intro v hv
        obtain ⟨x, hx, rfl⟩ := List.mem_map.mp hv
        exact h x hx
      have hshapes : Outcome.AsksOnly A (((front :: rest).map lift).mapM View.shape) :=
        .mapM fun v hv => (hparts v hv).shape
      have hetypes : Outcome.AsksOnly A (((front :: rest).map lift).mapM View.etype) :=
        .mapM fun v hv => (hparts v hv).etype
      have hgens : Outcome.AsksOnly A (((front :: rest).map lift).mapM View.generator) :=
        .mapM fun v hv => (hparts v hv).generator
      have hlayout := asksOnly_bind hshapes fun e => Join.asksOnly_layout origin e axis first
      have hfront := h front List.mem_cons_self
      obtain rfl := Except.ok.inj hw
      refine ⟨⟨_, rfl⟩, ?_, ?_, hfront.prototype, ?_, fun gen hg => (hcells gen hg).1,
        fun gen hg => (hcells gen hg).2, hfront.fill⟩
      · exact asksOnly_bind hlayout fun j => asksOnly_pure _
      · exact asksOnly_bind hetypes fun ts => asksOnly_pure _
      · apply asksOnly_bind hlayout
        intro j
        apply asksOnly_bind hgens
        intro gens
        apply asksOnly_bind hshapes
        intro e
        exact asksOnly_bind (Join.asksOnly_isBetween axis) fun between => asksOnly_pure _

/-- A join answers as before if its parts do. -/
theorem KeptAs.catenate (h : List.Forall₂ KeptAs xs ys) :
    Keeps (fun w w' => w.KeptAs w' ∧ w.IsComputed ∧ w'.IsComputed)
      (catenate xs axis first origin) (catenate ys axis first origin) := by
  cases h with
  | nil => exact .error _
  | @cons x y xs ys hfront hrest =>
      have hparts : List.Forall₂ View.KeptAs ((x :: xs).map Item.lift)
          ((y :: ys).map Item.lift) := by
        rw [List.forall₂_map_left_iff, List.forall₂_map_right_iff]
        exact (List.Forall₂.cons hfront hrest).imp fun a b hab => hab.lift
      have hshapes := Keeps.mapM_eq (hparts.imp fun v v' hv => hv.shape)
      have hlayout : Keeps Eq (((x :: xs).map Item.lift).mapM View.shape >>= fun e =>
          Join.layout e axis first origin) (((y :: ys).map Item.lift).mapM View.shape >>= fun e =>
          Join.layout e axis first origin) :=
        hshapes.bind_eq fun e => .refl _
      refine .ok ⟨⟨hlayout.bind_eq fun j => .refl _, ?_, hfront.lift.prototype, ?_⟩,
        ⟨_, rfl⟩, ⟨_, rfl⟩⟩
      · exact (Keeps.mapM_eq (hparts.imp fun v v' hv => hv.etype)).bind_eq fun ts => .refl _
      · apply hlayout.bind_eq
        intro j
        apply (Keeps.mapM_eq (hparts.imp fun v v' hv => hv.generator)).bind_eq
        intro gens
        exact hshapes.bind_eq fun e => .refl _

end Item
end LazyApl
