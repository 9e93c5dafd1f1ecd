import LazyApl.Proofs.Raising
/-!
# Reading a tower step by step

The reading of a tower in which nothing is folded: each transform applies its own link to the array
directly below it, shows a cell of that array, and shows its own fill where the link leads nowhere.
For towers of index transforms over a root this reading and the folded one give the same items.
-/
namespace LazyApl

open Outcome Link

/-- An array as it is read step by step. -/
structure Reading where
  shape : Except Fault Extents
  prototype : Except Fault Item
  generator : Except Fault (Gen Item)

namespace Reading

def cell (x : Reading) (i : Number) : Except Fault Item := do (← x.generator).cell i

def ofFacts (f : Facts Item) : Reading := ⟨f.shape.get, f.prototype .now, f.generator .now⟩

/-- The fill of a transform. A window makes it of its own first item, any other transform takes it
from the array directly below. -/
def fillAbove (fill : Item → Except Fault Item) (s : Step) (below : Reading) : Except Fault Item :=
  match s with
  | .window _ _ => do
    let source ← below.shape
    if (← (← s.shapeOver source).size).isZero then below.prototype
    else
      match ← Level.source [← s.linkOver source] (← below.generator) 0 with
      | some x => fill x
      | none => .error .endless
  | _ => below.prototype

/-- A transform applied to the array directly below. -/
def above (fill : Item → Except Fault Item) (s : Step) (below : Reading) : Reading where
  shape := do s.shapeOver (← below.shape)
  prototype := fillAbove fill s below
  generator := do
    let own ← s.linkOver (← below.shape)
    let cells ← below.generator
    return .indexed fun i => do
      match ← Level.source [own] cells i with
      | some x => return x
      | none => fillAbove fill s below

def ofSteps (fill : Item → Except Fault Item) (root : Facts Item) : List Step → Reading
  | [] => ofFacts root
  | s :: rest => above fill s (ofSteps fill root rest)

/-- A generator has the cells of a chain of links over the cells of a root. If the chain or the
root fails, it fails. -/
def Mirrors (generator : Except Fault (Gen Item)) (chain : Except Fault (List Link))
    (root : Facts Item) (s : Shape) : Prop :=
  match chain, root.generator .now with
  | .ok ls, .ok cells => ∃ g, generator = .ok g ∧
      ∀ i, s.Holds i → g.cell (.int i) = Tower.shown cells (root.prototype .now) (reachAll ls i)
  | _, _ => ∀ g, generator ≠ .ok g

theorem Mirrors.of_error {generator : Except Fault (Gen Item)} {chain : Except Fault (List Link)}
    {root : Facts Item} {s : Shape}
    (h : ∀ ls cells, chain = .ok ls → root.generator .now ≠ .ok cells)
    (hg : ∀ g, generator ≠ .ok g) : Mirrors generator chain root s := by
  unfold Mirrors
  split
  · rename_i ls cells hc
    exact absurd hc (h ls cells rfl)
  · exact hg

/-- Two generators that mirror the same chain have the same cells. -/
theorem Mirrors.cell_eq {x y : Except Fault (Gen Item)} {chain : Except Fault (List Link)}
    {root : Facts Item} {s : Shape} (hx : Mirrors x chain root s) (hy : Mirrors y chain root s)
    {i : Int} (hi : s.Holds i) :
    (do (← x).cell (.int i)).toOption = (do (← y).cell (.int i)).toOption := by
  unfold Mirrors at hx hy
  split at hx
  · rename_i ls cells hc
    rw [hc] at hy
    obtain ⟨g, rfl, hg⟩ := hx
    obtain ⟨g', rfl, hg'⟩ := hy
    simp only [bind, Except.bind]
    rw [hg i hi, hg' i hi]
  · rename_i hne
    have hy' : ∀ g, y ≠ .ok g := by
      split at hy
      · rename_i ls cells hc
        exact absurd hc (hne ls cells rfl)
      · exact hy
    cases x with
    | ok g => exact absurd rfl (hx g)
    | error f =>
        cases y with
        | ok g => exact absurd rfl (hy' g)
        | error f' => rfl

theorem fillAbove_eq {fill : Item → Except Fault Item} {s : Step} {below : Reading}
    (hs : s.isWindow = false) : fillAbove fill s below = below.prototype := by
  cases s with
  | window offset dims => cases hs
  | _ => rfl

theorem generator_above_eq_ok {fill : Item → Except Fault Item} {s : Step} {below : Reading}
    {g : Gen Item} (h : (above fill s below).generator = .ok g) :
    ∃ e l cells, below.shape = .ok e ∧ s.linkOver e = .ok l ∧ below.generator = .ok cells := by
  obtain ⟨e, he, h⟩ := bind_eq_ok.mp h
  obtain ⟨l, hl, h⟩ := bind_eq_ok.mp h
  obtain ⟨cells, hc, _⟩ := bind_eq_ok.mp h
  exact ⟨e, l, cells, he, hl, hc⟩

theorem cell_above (fill : Item → Except Fault Item) {s : Step} {below : Reading} {t u : Shape}
    {l : Link} {cells : Gen Item} (hs : s.isWindow = false)
    (hshape : below.shape = .ok (.ofShape t))
    (hl : s.linkOver (.ofShape t) = .ok l) (hc : l.Carries u t)
    (hg : below.generator = .ok cells) :
    ∃ g, (above fill s below).generator = .ok g ∧
      ∀ i, u.Holds i → g.cell (.int i) = Tower.shown cells below.prototype (l.reach i) := by
  simp only [above, hshape, hl, hg, fillAbove_eq hs, bind, Except.bind, pure, Except.pure]
  refine ⟨_, rfl, fun i hi => ?_⟩
  rw [Gen.cell_indexed, Level.source, hc.compose_singleton hi]
  exact Tower.match_shown cells below.prototype (l.reach i)

/-- A transform on top of a reading that mirrors a chain mirrors a chain that follows that one. -/
theorem Mirrors.above {fill : Item → Except Fault Item} {s : Step} {below : Reading}
    {root : Facts Item} {chain chain' : Except Fault (List Link)} {t u r : Shape}
    (h : Mirrors below.generator chain root t) (hs : s.isWindow = false)
    (hshape : below.shape = .ok (.ofShape t)) (hp : below.prototype = root.prototype .now)
    (hl : s.Leads u t) (hf : Level.Follows chain' (s.linkOver (.ofShape t)) chain u r) :
    Mirrors (above fill s below).generator chain' root u := by
  -- the generator has cells only if the own link and the array below have
  have hgen {g : Gen Item} (hg : (Reading.above fill s below).generator = .ok g) :
      ∃ l cells, s.linkOver (.ofShape t) = .ok l ∧ below.generator = .ok cells := by
    obtain ⟨e, l, cells, he, hl, hc⟩ := generator_above_eq_ok hg
    rw [hshape] at he
    cases he
    exact ⟨l, cells, hl, hc⟩
  unfold Level.Follows at hf
  split at hf
  · rename_i l ls hown
    obtain ⟨ms, rfl, _, hreach⟩ := hf
    unfold Mirrors at h ⊢
    cases hroot : root.generator .now with
    | error f =>
        rw [hroot] at h
        intro g hg
        obtain ⟨_, cells, _, hc⟩ := hgen hg
        exact h cells hc
    | ok cells =>
        rw [hroot] at h
        obtain ⟨g, hg, hcell⟩ := h
        have hc := hl.2 l hown
        obtain ⟨g', hg', hcell'⟩ := cell_above fill hs hshape hown hc hg
        refine ⟨g', hg', fun i hi => ?_⟩
        rw [hcell' i hi, hreach i hi]
        cases hj : l.reach i with
        | none => exact hp
        | some j => exact hcell j (hc.holds hi hj)
  · rename_i hne
    refine Mirrors.of_error (fun ls _ hls => absurd hls (hf ls)) fun g hg => ?_
    obtain ⟨l, cells, hown, hc⟩ := hgen hg
    unfold Mirrors at h
    split at h
    · rename_i ls _ _
      exact hne l ls hown rfl
    · exact h cells hc

end Reading

namespace View

theorem Grown.standsOn {root : Root Item} {r : Shape} {v : View Item}
    (h : Grown Raises root r v) :
    ∃ s, StandsOn root r v s ∧ ∀ x ∈ v.steps, x.isWindow = false := by
  induction h with
  | root h hr => exact ⟨r, ⟨rfl, .root h hr⟩, by simp⟩
  | next _ hw he ih =>
      obtain ⟨t, ht, hn⟩ := ih
      obtain ⟨u, hu⟩ := ht.raised hw he
      refine ⟨u, hu, ?_⟩
      rcases hw.under ht.shape_eq with ⟨s, rfl, _, hs⟩ | ⟨dims, s, _, rfl, _, hs⟩
      · exact List.forall_mem_cons.mpr ⟨hs, hn⟩
      · exact List.forall_mem_cons.mpr ⟨hs, List.forall_mem_cons.mpr ⟨rfl, hn⟩⟩

end View
end LazyApl
