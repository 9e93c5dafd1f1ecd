import LazyApl.Primitive.Restructure
/-!
# Nesting is well-founded

The cells of a view, made into views themselves, have cells again, and so on; this ends after
finitely many levels along every path, since an item is built from its cells. Only a simple scalar
goes on for ever, because it is its own cell. For lists of operands it follows that descending into
the cells of all operands at once ends as well, as long as not all of them are simple scalars.
-/

namespace LazyApl

/-- Whether an item is a simple value that is stored as it is. -/
def Item.IsLeaf (x : Item) : Prop := ∃ s, x = .scalar s ∧ x.stored = x ∧ x.counted = x

namespace View

def IsLeaf (v : View Item) : Prop :=
  ∃ s, v = ⟨.concrete ⟨[], [.scalar s], none⟩, []⟩ ∧ (Item.scalar s).stored = .scalar s

/-- A cell of a view, as a view; a simple scalar has none in this sense. -/
def Inside (w v : View Item) : Prop :=
  ¬ v.IsLeaf ∧ ∃ cells i x, v.generator = .ok cells ∧ cells.cell i = .ok x ∧ w = x.lift

theorem acc_of_isLeaf {v : View Item} (h : v.IsLeaf) : Acc Inside v :=
  .intro v fun _ hw => absurd h hw.1

end View

def Item.Grounded (x : Item) : Prop := Acc View.Inside x.lift

namespace Item

theorem counted_eq (s : Scalar) : ∃ t, (scalar s).counted = scalar t ∧
    (∀ u, s = .text u → t = .text u) := by
  cases s <;> simp [counted]

theorem vectorOf_scalar (s : Scalar) : (scalar s).vectorOf = (scalar s).counted := by
  simp [vectorOf]

theorem stored_of_length_one {u : String} (h : u.length = 1) :
    (scalar (.text u)).stored = scalar (.text u) := by simp [stored, h]

theorem isLeaf_lift_char {u : String} (h : u.length = 1) : (text u).lift.IsLeaf := by
  refine ⟨.text u, ?_, stored_of_length_one h⟩
  simp [lift, vectorOf, counted, h, Grid.ofScalar, Grid.of, stored]

theorem isLeaf_lift_number {s : Scalar} (h : s.isText = false) : (scalar s).lift.IsLeaf := by
  cases s with
  | text u => simp [Scalar.isText] at h
  | _ => exact ⟨_, by simp [lift, vectorOf, counted, Grid.ofScalar, Grid.of, stored]; rfl,
      by simp [stored]⟩

theorem grounded_number {s : Scalar} (h : s.isText = false) : Grounded (scalar s) :=
  View.acc_of_isLeaf (isLeaf_lift_number h)

theorem grounded_char {u : String} (h : u.length = 1) : Grounded (text u) :=
  View.acc_of_isLeaf (isLeaf_lift_char h)

theorem mem_of_pickBy {xs : List Item} {i : Number} {x : Item} (h : pickBy xs i = .ok x) :
    x ∈ xs := by
  simp only [pickBy, bind, Except.bind] at h
  split at h
  · simp at h
  · simp only [pickAt] at h
    split at h
    · rename_i y hy
      simp only [Except.ok.injEq] at h
      subst h
      simp only [nth?] at hy
      repeat' split at hy
      all_goals first
        | exact List.mem_of_getElem? hy
        | simp at hy
    · simp at h

/-- The cells of an array at hand are its items. -/
theorem mem_of_cell {g : Grid Item} {cells : Gen Item} {i : Number} {x : Item}
    (hg : g.generator = .ok cells) (hx : cells.cell i = .ok x) : x ∈ g.items := by
  unfold Grid.generator at hg
  split at hg
  · rename_i y rest _ hi
    simp only [Except.ok.injEq] at hg
    subst hg
    simp only [Gen.cell_single, Except.ok.injEq] at hx
    simp [hi, hx]
  · simp at hg
  · simp only [Except.ok.injEq] at hg
    subst hg
    exact mem_of_pickBy hx

theorem acc_concrete {g : Grid Item} (h : ∀ x ∈ g.items, Grounded x) :
    Acc View.Inside ⟨.concrete g, []⟩ := by
  refine .intro _ fun w hw => ?_
  obtain ⟨_, cells, i, x, hc, hx, rfl⟩ := hw
  exact h x (mem_of_cell hc hx)

theorem grounded_ofText (u : String) : Acc View.Inside ⟨.concrete (Grid.ofText u), []⟩ := by
  refine acc_concrete fun x hx => ?_
  simp only [Grid.ofText, List.mem_map] at hx
  obtain ⟨c, _, rfl⟩ := hx
  exact grounded_char (by simp)

theorem grounded_text (u : String) : Grounded (text u) := by
  by_cases h : u.length = 1
  · exact grounded_char h
  · have : (text u).lift = ⟨.concrete (Grid.ofText u), []⟩ := by
      simp [lift, vectorOf, counted, h]
    unfold Grounded
    rw [this]
    exact grounded_ofText u

theorem grounded_scalar (s : Scalar) : Grounded (scalar s) := by
  cases s with
  | text u => exact grounded_text u
  | _ => exact grounded_number rfl

theorem grounded_array {g : Grid Item} (h : ∀ x ∈ g.items, Grounded x) : Grounded (array g) :=
  acc_concrete h

/-- What is stored of a grounded item is grounded. -/
theorem Grounded.stored {x : Item} (h : Grounded x) : Grounded x.stored := by
  cases x with
  | scalar s =>
    cases s with
    | text u =>
      simp only [Item.stored]
      split
      · exact h
      · exact grounded_ofText u
    | _ => exact h
  | list xs => exact h
  | view v => exact h
  | array g =>
    simp only [Item.stored]
    split
    · rename_i y hs hi
      split
      · exact h
      · by_cases hl : View.IsLeaf (array g).lift
        · obtain ⟨s, hv, hst⟩ := hl
          simp only [lift, View.mk.injEq, Root.concrete.injEq, and_true] at hv
          subst hv
          simp only [List.cons.injEq, and_true] at hi
          exact hi ▸ grounded_scalar s
        · refine Acc.inv h ⟨hl, .single y, 0, y, ?_, rfl, rfl⟩
          simp [View.generator, View.facts, lift, Root.facts, Grid.facts, Grid.generator, hs, hi]
    · exact h

mutual

theorem grounded_typify : (x : Item) → Grounded x.typify
  | array ⟨_, items, _⟩ => by
    simp only [typify]
    exact grounded_array (grounded_typifyAll items)
  | scalar s => by
    cases s <;> simp only [typify] <;> exact grounded_scalar _
  | list _ => by simp only [typify]; exact grounded_scalar _
  | view _ => by simp only [typify]; exact grounded_scalar _

theorem grounded_typifyAll : (xs : List Item) → ∀ y ∈ typifyAll xs, Grounded y
  | [] => by simp [typifyAll]
  | x :: xs => by
    simp only [typifyAll, List.mem_cons, forall_eq_or_imp]
    exact ⟨(grounded_typify x).stored, grounded_typifyAll xs⟩

end

theorem grounded_of_fillOf {x p : Item} (h : fillOf x = .ok p) : Grounded p := by
  simp only [fillOf] at h
  cases hx : x.settle with
  | error e => simp [hx, Functor.map, Except.map] at h
  | ok y =>
    simp only [hx, Functor.map, Except.map, Except.ok.injEq] at h
    exact h ▸ grounded_typify y

end Item

theorem Level.prototype_cases {fill : Item → Except Fault Item} {root : Facts Item} {p : Item}
    (steps : List Step) (h : (Level.ofSteps fill root steps).stage.prototype.get = .ok p) :
    root.prototype .now = .ok p ∨ ∃ x, fill x = .ok p := by
  induction steps with
  | nil => exact .inl h
  | cons s rest ih =>
    cases s with
    | window offset dims =>
      simp only [Level.ofSteps, Level.above, Lazy.get_keep] at h
      simp only [Level.windowFill, bind, Except.bind] at h
      repeat' split at h
      all_goals first
        | exact ih h
        | exact .inr ⟨_, h⟩
        | simp at h
    | _ => exact ih h

/-- A cell of a tower is a cell of its root, or its fill. -/
theorem Tower.cell_cases {fill : Item → Except Fault Item} {root : Facts Item}
    {steps : List Step} {cells : Gen Item} {i : Number} {x : Item}
    (hc : (Tower.facts fill root steps).generator .now = .ok cells) (hx : cells.cell i = .ok x) :
    (∃ below j, root.generator .now = .ok below ∧ below.cell j = .ok x) ∨
      root.prototype .now = .ok x ∨ ∃ y, fill y = .ok x := by
  cases steps with
  | nil => exact .inl ⟨cells, i, hc, hx⟩
  | cons s rest =>
    simp only [Tower.facts, Lazy.keep, Thunk.get, bind, Except.bind] at hc
    repeat' split at hc
    all_goals first
      | (simp only [reduceCtorEq] at hc)
      | skip
    rename_i _ chain _ _ below hb
    simp only [pure, Except.pure, Except.ok.injEq] at hc
    subst hc
    simp only [Gen.cell_indexed, Level.source, bind, Except.bind, pure, Except.pure] at hx
    repeat' split at hx
    all_goals first
      | (simp only [reduceCtorEq] at hx)
      | skip
    · rename_i y hy
      simp only [Except.ok.injEq] at hx
      subst hx
      repeat' split at hy
      all_goals simp only [reduceCtorEq, Except.ok.injEq, Option.some.injEq] at hy
      rename_i j _ _ z hz
      exact .inl ⟨below, j, hb, hy ▸ hz⟩
    · exact .inr (Level.prototype_cases _ hx)

namespace Item

mutual

theorem grounded_both : (x : Item) → Grounded x ∧ Grounded x.vectorOf
  | scalar s => by
    refine ⟨grounded_scalar s, ?_⟩
    obtain ⟨t, ht, _⟩ := counted_eq s
    rw [vectorOf_scalar, ht]
    exact grounded_scalar t
  | list xs => by
    have h : Grounded (list xs).vectorOf := by
      simp only [vectorOf]
      refine grounded_array fun y hy => ?_
      simp only [Grid.ofList, Grid.of, List.mem_map] at hy
      obtain ⟨z, hz, rfl⟩ := hy
      exact (grounded_vectors xs z hz).stored
    exact ⟨by simpa [Grounded, lift, vectorOf] using h, h⟩
  | array g => ⟨grounded_array (grounded_grid g).1, by
      simpa [vectorOf, counted] using grounded_array (grounded_grid g).1⟩
  | view v => ⟨acc_view v, by simp only [vectorOf, counted]; exact acc_view v⟩

theorem grounded_items : (xs : List Item) → ∀ x ∈ xs, Grounded x
  | [] => by simp
  | x :: xs => by
    simp only [List.mem_cons, forall_eq_or_imp]
    exact ⟨(grounded_both x).1, grounded_items xs⟩

theorem grounded_vectors : (xs : List Item) → ∀ y ∈ vectorsOf xs, Grounded y
  | [] => by simp [vectorsOf]
  | x :: xs => by
    simp only [vectorsOf, List.mem_cons, forall_eq_or_imp]
    exact ⟨(grounded_both x).2, grounded_vectors xs⟩

theorem grounded_fill : (fill : Option Item) → ∀ x ∈ fill, Grounded x
  | none => by simp
  | some x => by simpa using (grounded_both x).1

theorem grounded_grid : (g : Grid Item) →
    (∀ x ∈ g.items, Grounded x) ∧ ∀ x ∈ g.fill, Grounded x
  | ⟨_, items, fill⟩ => ⟨grounded_items items, grounded_fill fill⟩

theorem acc_view : (v : View Item) → Acc View.Inside v
  | ⟨r, steps⟩ => by
    refine .intro _ fun w hw => ?_
    obtain ⟨_, cells, i, x, hc, hx, rfl⟩ := hw
    rcases Tower.cell_cases hc hx with ⟨below, j, hb, hj⟩ | hp | ⟨y, hy⟩
    · exact (grounded_root r).1 below hb j x hj
    · exact (grounded_root r).2 x hp
    · exact grounded_of_fillOf hy

theorem grounded_root : (r : Root Item) →
    (∀ cells, r.facts.generator .now = .ok cells → ∀ i x, cells.cell i = .ok x → Grounded x) ∧
      ∀ x, r.facts.prototype .now = .ok x → Grounded x
  | .concrete g => by
    refine ⟨fun cells hc i x hx => ?_, fun x hx => ?_⟩
    · simp only [Root.facts, Grid.facts] at hc
      exact (grounded_grid g).1 x (mem_of_cell hc hx)
    · simp only [Root.facts, Grid.facts, Except.ok.injEq] at hx
      subst hx
      unfold Grid.prototype
      split
      · cases hf : g.fill with
        | none => exact grounded_scalar _
        | some y => exact (grounded_grid g).2 y (by simp [hf])
      · exact grounded_typify _
  | .computed f => grounded_facts f

theorem grounded_facts : (f : Facts Item) →
    (∀ cells, f.generator .now = .ok cells → ∀ i x, cells.cell i = .ok x → Grounded x) ∧
      ∀ x, f.prototype .now = .ok x → Grounded x
  | ⟨_, _, prototype, generator, _⟩ =>
    ⟨grounded_gen (generator .now), grounded_cell (prototype .now)⟩

theorem grounded_gen : (e : Except Fault (Gen Item)) →
    ∀ cells, e = .ok cells → ∀ i x, cells.cell i = .ok x → Grounded x
  | .error _ => by simp
  | .ok g => by
    intro cells hc
    simp only [Except.ok.injEq] at hc
    exact hc ▸ grounded_cells g

theorem grounded_cells : (g : Gen Item) → ∀ i x, g.cell i = .ok x → Grounded x
  | .single y => by
    intro i x hx
    simp only [Gen.cell_single, Except.ok.injEq] at hx
    exact hx ▸ (grounded_both y).1
  | .indexed f => fun i => grounded_cell (f i)

theorem grounded_cell : (e : Except Fault Item) → ∀ x, e = .ok x → Grounded x
  | .error _ => by simp
  | .ok y => by
    intro x hx
    simp only [Except.ok.injEq] at hx
    exact hx ▸ (grounded_both y).1

end

end Item

namespace View

theorem acc_inside (v : View Item) : Acc Inside v := Item.acc_view v

/-- One operand on the way down: to one of its cells, or from a simple scalar to a simple scalar. -/
def Descends (w v : View Item) : Prop := (w.IsLeaf ∧ v.IsLeaf) ∨ Inside w v

/-- Operands on the way down, one by one. -/
inductive Descent : List (View Item) → List (View Item) → Prop
  | nil : Descent [] []
  | cons {w v : View Item} {ws vs : List (View Item)} (h : Descends w v) (hs : Descent ws vs) :
      Descent (w :: ws) (v :: vs)

theorem Descent.length_eq {ws vs : List (View Item)} (h : Descent ws vs) :
    ws.length = vs.length := by
  induction h with
  | nil => rfl
  | cons _ _ ih => simp [ih]

/-- All operands on the way down, not all of them simple scalars. -/
def AllDescend (ws vs : List (View Item)) : Prop :=
  Descent ws vs ∧ ∃ v ∈ vs, ¬ v.IsLeaf

theorem acc_cons_of_isLeaf {vs : List (View Item)} (h : Acc AllDescend vs) :
    ∀ v : View Item, v.IsLeaf → Acc AllDescend (v :: vs) := by
  induction h with
  | intro vs _ ih =>
    intro v hv
    refine .intro _ fun ys hy => ?_
    obtain ⟨hd, u, hu, hn⟩ := hy
    cases hd with
    | @cons w _ ws _ hw hws =>
      have hl : w.IsLeaf := by
        rcases hw with h | h
        · exact h.1
        · exact absurd hv h.1
      rcases List.mem_cons.1 hu with rfl | hu
      · exact absurd hv hn
      · exact ih ws ⟨hws, u, hu, hn⟩ w hl

/-- Descending into all operands at once ends. -/
theorem acc_allDescend : ∀ vs : List (View Item), Acc AllDescend vs := by
  suffices h : ∀ n, ∀ vs : List (View Item), vs.length = n → Acc AllDescend vs from
    fun vs => h vs.length vs rfl
  intro n
  induction n with
  | zero =>
    intro vs hvs
    obtain rfl := List.length_eq_zero_iff.1 hvs
    exact .intro _ fun _ hy => by obtain ⟨_, _, hu, _⟩ := hy; simp at hu
  | succ n ih =>
    suffices h : ∀ v, Acc Inside v → ∀ vs : List (View Item), vs.length = n →
        Acc AllDescend (v :: vs) by
      intro vs hvs
      cases vs with
      | nil => simp at hvs
      | cons v vs => exact h v (acc_inside v) vs (by simpa using hvs)
    intro v hv
    induction hv with
    | intro v _ ihv =>
      intro vs hvs
      by_cases hl : v.IsLeaf
      · exact acc_cons_of_isLeaf (ih vs hvs) v hl
      · refine .intro _ fun ys hy => ?_
        obtain ⟨hd, _⟩ := hy
        cases hd with
        | @cons w _ ws _ hw hws =>
          rcases hw with h | h
          · exact absurd h.2 hl
          · exact ihv w h ws (by rw [hws.length_eq, hvs])

/-- A list of operands to be descended into all at once. -/
structure Operands where
  views : List (View Item)

instance : WellFoundedRelation Operands :=
  ⟨fun a b => AllDescend a.views b.views, InvImage.wf Operands.views ⟨acc_allDescend⟩⟩

end View
end LazyApl
