import LazyApl.Proofs.Raising
/-!
# Rendering reads the same tower

An array is rendered by reading its tower over a root whose cells are rendered when they are handed
out. Apart from the cells nothing changes by that: shape, element type, fill and chain of every
level are the same, since the only level that looks at cells is a window, which renders its first
cell anyway to make a fill of it.
-/
namespace LazyApl

open Outcome

@[ext] theorem Lazy.ext {α : Type} {x y : Lazy α} (h : x.get = y.get) : x = y := by
  obtain ⟨f⟩ := x
  obtain ⟨g⟩ := y
  congr 1
  funext d
  cases d
  exact h

namespace Level

theorem ofSteps_congr {fill fill' : Item → Except Fault Item} {root root' : Facts Item}
    (h : ofFacts root = ofFacts root') (hw : windowFill fill root = windowFill fill' root')
    (steps : List Step) : ofSteps fill root steps = ofSteps fill' root' steps := by
  induction steps with
  | nil => exact h
  | cons s rest ih =>
      rw [ofSteps, ofSteps, ih]
      cases s with
      | window offset dims => simp only [above, hw]
      | _ => rfl

end Level

namespace Item

theorem settledNth_eq (xs : List Item) (k : Nat) :
    settledNth xs k = match xs[k]? with
      | some x => x.settle
      | none => .error .offEnd := by
  induction xs generalizing k with
  | nil => rfl
  | cons x xs ih =>
      cases k with
      | zero => simp [settledNth]
      | succ k => simp [settledNth, ih]

/-- One generator hands out what another one hands out, rendered. -/
def Settles (g g' : Except Fault (Gen Item)) : Prop :=
  match g with
  | .error e => g' = .error e
  | .ok cells => ∃ cells', g' = .ok cells' ∧ ∀ i, cells'.cell i = cells.cell i >>= settle

theorem nth?_eq_placeIn {α : Type} (xs : List α) (i : Int) :
    nth? xs i = (placeIn xs.length i).bind fun k => xs[k]? := by
  unfold nth? placeIn
  split
  · split <;> rfl
  · rfl

theorem placeIn_bind {β : Type} {xs : List Item} {f : Item → Except Fault β}
    {nth : Nat → Except Fault β}
    (h : ∀ k, nth k = match xs[k]? with
      | some x => f x
      | none => .error .offEnd) (i : Number) :
    (do
      match placeIn xs.length (← i.index) with
      | some k => nth k
      | none => .error .offEnd) = pickBy xs i >>= f := by
  cases hi : i.index with
  | error e => simp [pickBy, hi, bind, Except.bind]
  | ok k =>
      simp only [pickBy, hi, bind, Except.bind, pickAt, nth?_eq_placeIn, h]
      cases placeIn xs.length k with
      | none => rfl
      | some j =>
          simp only [Option.bind_some]
          cases xs[j]? <;> rfl

theorem settles_grid (g : Grid Item) :
    Settles g.generator ((settledRoot (.concrete g)).generator .now) := by
  obtain ⟨shape, xs, fill⟩ := g
  cases shape with
  | nil =>
      cases xs with
      | nil => rfl
      | cons x xs => exact ⟨_, rfl, fun i => rfl⟩
  | cons n s => exact ⟨_, rfl, placeIn_bind (settledNth_eq xs)⟩

theorem settles_gen (g : Except Fault (Gen Item)) : Settles g (settledGen g) := by
  cases g with
  | error e => rfl
  | ok cells =>
      cases cells with
      | single x => exact ⟨_, rfl, fun i => rfl⟩
      | indexed f =>
          refine ⟨_, rfl, fun i => ?_⟩
          simp only [settledCells, Gen.cell_indexed]
          cases f i <;> rfl

theorem settles_root (root : Root Item) :
    Settles (root.facts.generator .now) ((settledRoot root).generator .now) := by
  cases root with
  | concrete g => exact settles_grid g
  | computed f =>
      obtain ⟨_, _, _, generator, _⟩ := f
      exact settles_gen (generator .now)

theorem source_settled {cells cells' : Gen Item} (h : ∀ i, cells'.cell i = cells.cell i >>= settle)
    (chain : List Link) (i : Number) :
    Level.source chain cells' i = (do
      match ← Level.source chain cells i with
      | some x => some <$> x.settle
      | none => return none) := by
  simp only [Level.source, h]
  cases Link.compose chain i with
  | error e => rfl
  | ok r =>
      cases r with
      | none => rfl
      | some j =>
          simp only [bind, Except.bind]
          cases cells.cell j with
          | error e => rfl
          | ok x =>
              cases x.settle <;> rfl

theorem windowFill_settled (root : Root Item) :
    Level.windowFill (fun x => .ok x.typify) (settledRoot root) =
      Level.windowFill fillOf root.facts := by
  have hfirst (ls : List Link) : (do
      match ← Level.source ls (← (settledRoot root).generator .now) 0 with
      | some x => Except.ok x.typify
      | none => .error .endless) = (do
      match ← Level.source ls (← root.facts.generator .now) 0 with
      | some x => fillOf x
      | none => .error .endless) := by
    have h := settles_root root
    cases hg : root.facts.generator .now with
    | error e =>
        rw [hg] at h
        rw [h]
        rfl
    | ok cells =>
        rw [hg] at h
        obtain ⟨cells', hc', hcell⟩ := h
        rw [hc']
        simp only [bind, Except.bind, source_settled hcell]
        cases Level.source ls cells 0 with
        | error e => rfl
        | ok r =>
            cases r with
            | none => rfl
            | some x =>
                simp only [fillOf]
                cases x.settle <;> rfl
  funext base shape chain
  unfold Level.windowFill
  congr 1
  funext e
  congr 1
  funext n
  split
  · rfl
  · congr 1
    funext ls
    exact hfirst ls

/-- Rendering changes nothing about a tower but its cells. -/
theorem ofSteps_settled (root : Root Item) (steps : List Step) :
    Level.ofSteps (fun x => .ok x.typify) (settledRoot root) steps =
      Level.ofSteps fillOf root.facts steps := by
  refine Level.ofSteps_congr ?_ (windowFill_settled root) steps
  cases root with
  | concrete g =>
      obtain ⟨_, _, _⟩ := g
      rfl
  | computed f =>
      obtain ⟨_, _, _, _, _⟩ := f
      rfl

end Item
end LazyApl
