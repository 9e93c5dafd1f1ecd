import LazyApl.Proofs.Raising
import LazyApl.Proofs.Windows
/-!
# Indices stay in bounds

The chain of a tower is followed from a position of the top. Every link on the way is given a place
of its own result, all of whose extents are positive there, and what is reached is a position of
the root or nothing. The tower may hold windows wherever enclosing, splitting or partitioning has
handed them out.
-/
namespace LazyApl

open Outcome

namespace Place

/-- The place names a cell of an array of the given extents, none of which is zero. -/
def IsWithin (p : Place) (e : Extents) : Prop :=
  ∃ (s : Shape) (i : Int), e = .ofShape s ∧ p.Names s i ∧ ∀ n ∈ s, 0 < n

end Place

namespace Link

/-- The links of a chain that are applied on the way from a place, each with the place that it is
given. -/
def visits : List Link → Place → List (Link × Place)
  | [], _ => []
  | l :: ls, p =>
    (l, p) :: match l.apply p with
      | .ok (some q) => visits ls q
      | _ => []

theorem Chained.visits_isWithin {ls : List Link} {s u : Shape} (h : Chained ls s u) {p : Place}
    {i : Int} (hp : p.Names s i) : ∀ x ∈ visits ls p, x.2.IsWithin x.1.outShape := by
  induction h generalizing p i with
  | nil s => simp [visits]
  | @cons l ls s t u hl _ ih =>
      obtain ⟨r, hr, ha⟩ := hl.apply_names hp
      simp only [visits, hr]
      refine List.forall_mem_cons.mpr ⟨?_, ?_⟩
      · exact ⟨s, i, hl.out_eq, hp, Shape.extent_pos hl.proper hp.holds.size_pos⟩
      · cases r with
        | none => simp
        | some q =>
            cases hj : l.reach i with
            | none => simp [hj, Answers] at ha
            | some j =>
                rw [hj] at ha
                exact ih ha.1

end Link

namespace View

/-- The windows that splitting, enclosing and partitioning an array hand out as items. At least one
axis is enclosed; else the items are the cells themselves. -/
inductive HandsOut (v : View Item) : View Item → Prop
  | split {axis : Option Item} {origin : Origin} {w u : View Item} {s : Shape} {i : Int}
      (ho : origin.IsWhole) (hr : v.rank ≠ .ok 0) (h : Item.split (.view v) axis origin = .ok w)
      (hs : w.shape = .ok (.ofShape s)) (hi : s.Holds i) (hu : w.cell (.int i) = .ok (.view u)) :
      HandsOut v u
  | enclose {axes : Item} {as : List Int} {origin : Origin} {w u : View Item} {s : Shape} {i : Int}
      (ho : origin.IsWhole) (ha : axes.asInts "axis" = .ok as) (hne : as ≠ [])
      (h : Item.enclose (.view v) (some axes) origin = .ok w)
      (hs : w.shape = .ok (.ofShape s)) (hi : s.Holds i) (hu : w.cell (.int i) = .ok (.view u)) :
      HandsOut v u
  | partition [Platform] {style : Partition.Style} {keys : Item} {axis : Option Item}
      {origin : Origin} {w u : View Item} {s : Shape} {i : Int}
      (h : Item.partition style (.view v) keys axis origin = .ok w)
      (hs : w.shape = .ok (.ofShape s)) (hi : s.Holds i) (hu : w.cell (.int i) = .ok (.view u)) :
      HandsOut v u

/-- The view is a window that frames cells of an array of shape `t`. -/
def IsWindowOf (u v : View Item) (t : Shape) : Prop :=
  ∃ (o : Int) (dims : List (Int × Int)),
    u = v.under (.window (.int o) (Link.ofDims dims)) ∧ Link.Frames o dims t

theorem isWindowOf_encloseAxes {name : String} {as : List Int} {origin : Origin} {v u : View Item}
    {s t : Shape} {i : Int} (hv : v.shape = .ok (.ofShape t)) (ht : t.IsProper)
    (ho : origin.IsWhole) (hne : as ≠ [])
    (hs : (Item.encloseAxes name v as origin).shape = .ok (.ofShape s)) (hi : s.Holds i)
    (hu : (Item.encloseAxes name v as origin).cell (.int i) = .ok (.view u)) :
    u.IsWindowOf v t := by
  obtain ⟨o, ho⟩ := ho
  obtain ⟨g, hg, _⟩ := bind_eq_ok.mp hu
  obtain ⟨xs, hx⟩ := Item.innerAxes_of_generator hg
  have hrank := View.rank_of_shape hv
  rw [hrank] at hx
  obtain ⟨ns, rfl, hl, hn, hb⟩ := Enclose.innerAxes_spec ho hx
  obtain ⟨hshape, f, hg, hf⟩ := Item.encloseAxes_eq name hv hx
  have hns : ns ≠ [] := by
    rintro rfl
    exact hne (List.length_eq_zero_iff.mp hl.symm)
  rw [hshape] at hs
  obtain rfl := Extents.ofShape_inj (Except.ok.inj hs)
  simp only [cell, hg, bind, Except.bind, Gen.cell_indexed, hf, if_neg hns] at hu
  cases hu
  exact ⟨_, _, rfl, Enclose.frames ht hn hb hi⟩

theorem HandsOut.isWindowOf {v u : View Item} {t : Shape} (h : HandsOut v u)
    (hv : v.shape = .ok (.ofShape t)) (ht : t.IsProper) : u.IsWindowOf v t := by
  cases h with
  | @split axis origin w _ s i ho hr h hs hi hu =>
      obtain ⟨a, as, has, rfl, _⟩ := Item.split_eq_ok hr h
      exact isWindowOf_encloseAxes hv ht ho (Item.asInts_single_ne_nil has) hs hi hu
  | enclose ho ha hne h hs hi hu =>
      obtain ⟨as, has, h⟩ := bind_eq_ok.mp h
      rw [ha] at has
      cases has
      cases h
      exact isWindowOf_encloseAxes hv ht ho hne hs hi hu
  | @partition _ style keys axis origin w _ s i h hs hi hu =>
      obtain ⟨a, n, l, hp⟩ := Item.exists_parts hv h hs
      obtain ⟨w', hw', _, _, hshape, hg⟩ := hp.partition_eq hv
      rw [h] at hw'
      cases hw'
      rw [hs] at hshape
      obtain rfl := Extents.ofShape_inj (Except.ok.inj hshape)
      obtain ⟨p, hmem, hitem⟩ := Partition.item_eq ht hp.extent hi
      simp only [cell, hg, bind, Except.bind, Gen.cell_indexed, hitem v] at hu
      cases hu
      exact ⟨_, _, rfl, Partition.frames hp.extent
        (Shape.coordinates_within (ht.set (Int.natCast_nonneg _) a) hi) (hp.lies p hmem)⟩

theorem StandsOn.window {root : Root Item} {r t : Shape} {v u : View Item}
    (h : StandsOn root r v t) (hu : u.IsWindowOf v t) : ∃ s, StandsOn root r u s := by
  obtain ⟨o, dims, rfl, hf⟩ := hu
  exact h.under ⟨o, dims, rfl, rfl, hf⟩ rfl

/-- Every transform of a tower has a link over the array directly below it. -/
def HasLinks (root : Root Item) : List Step → Prop
  | [] => True
  | s :: rest => HasLinks root rest ∧
      ∃ e l, (⟨root, rest⟩ : View Item).shape = .ok e ∧ s.linkOver e = .ok l

theorem chain_of_hasLinks {root : Root Item} {r s : Shape} {steps : List Step}
    (h : Tower.Stands root.facts r steps s) (hl : HasLinks root steps) :
    ∃ ls, (Level.ofSteps Item.fillOf root.facts steps).stage.chain.get = .ok ls := by
  induction h with
  | root _ _ => exact ⟨[], rfl⟩
  | @above rest s t u h hs hu ih =>
      obtain ⟨hr, e, l, he, hown⟩ := hl
      obtain ⟨ls, hls⟩ := ih hr
      have hshape : (⟨root, rest⟩ : View Item).shape = .ok (.ofShape t) :=
        StandsOn.shape_eq ⟨rfl, h⟩
      rw [hshape] at he
      cases he
      have hf := (Level.advances_of_isSound Item.fillOf root.facts
        (h.keeps Item.fillOf) hs hu).follows
      rw [hown, hls] at hf
      obtain ⟨ms, hms, _⟩ := hf
      exact ⟨ms, hms⟩

theorem Grown.exists_standsOn {root : Root Item} {r : Shape} {v : View Item}
    (h : Grown (fun v w => Raises v w ∨ HandsOut v w) root r v) : ∃ s, StandsOn root r v s := by
  induction h with
  | root h hr => exact ⟨r, rfl, .root h hr⟩
  | next _ hw he ih =>
      obtain ⟨t, ht⟩ := ih
      rcases hw with hw | hw
      · exact ht.raised hw he
      · exact ht.window (hw.isWindowOf ht.shape_eq (ht.stands.keeps Item.fillOf).proper)

/-- The composed index of a tower stays in bounds. For every position of the top the chain leads to
a position of the root or to none, and on the way each link is given a place of its own result. -/
theorem Grown.compose_inBounds {root : Root Item} {r : Shape} {v : View Item}
    (h : Grown (fun v w => Raises v w ∨ HandsOut v w) root r v) :
    ∃ s : Shape, v.shape = .ok (.ofShape s) ∧ (HasLinks root v.steps → ∃ p, v.chain = .ok p) ∧
      ∀ links name, v.chain = .ok (links, name) → ∀ i, s.Holds i →
        (∃ j : Option Int, Link.compose links (.int i) = .ok (j.map .int) ∧ ∀ k ∈ j, r.Holds k) ∧
        ∀ x ∈ Link.visits links (.linear (.int i)), x.2.IsWithin x.1.outShape := by
  obtain ⟨s, hs⟩ := h.exists_standsOn
  have hshape := hs.shape_eq
  obtain ⟨_, steps⟩ := v
  obtain ⟨rfl, hst⟩ := hs
  refine ⟨s, hshape, fun hl => ?_, fun links name hc i hi => ?_⟩
  · obtain ⟨ls, hls⟩ := chain_of_hasLinks hst hl
    exact ⟨_, bind_eq_ok.mpr ⟨ls, hls, rfl⟩⟩
  obtain ⟨ls, hls, hc⟩ := bind_eq_ok.mp hc
  cases hc
  have hd := (hst.keeps Item.fillOf).descends links hls
  exact ⟨⟨Link.reachAll links i, hd.compose_eq hi, fun k hk => hd.reachAll_holds hi hk⟩,
    hd.visits_isWithin (.linear hi)⟩

/-- The second row of a matrix, as splitting hands it out, in reverse order. -/
def reversedRow : View Item :=
  let matrix : View Item := ⟨.concrete (Grid.of [2, 3] ([1, 2, 3, 4, 5, 6].map Item.int) none), []⟩
  Item.rotate (.view (matrix.under (.window (.int 3) [(.int 3, .int 1)]))) none none false (.int 0)

theorem reversedRow_inBounds :
    ∃ s : Shape, reversedRow.shape = .ok (.ofShape s) ∧
      (HasLinks reversedRow.root reversedRow.steps → ∃ p, reversedRow.chain = .ok p) ∧
      ∀ links name, reversedRow.chain = .ok (links, name) → ∀ i, s.Holds i →
        (∃ j : Option Int, Link.compose links (.int i) = .ok (j.map .int) ∧
          ∀ k ∈ j, Shape.Holds [2, 3] k) ∧
        ∀ x ∈ Link.visits links (.linear (.int i)), x.2.IsWithin x.1.outShape := by
  have root : Grown (fun v w => Raises v w ∨ HandsOut v w)
      (.concrete (Grid.of [2, 3] ([1, 2, 3, 4, 5, 6].map Item.int) none)) [2, 3] ⟨_, []⟩ :=
    .root rfl (by simp [Shape.IsProper])
  have whole : Scalar.IsWhole (.int 0) := ⟨0, rfl⟩
  have split : Item.split (.view ⟨.concrete (Grid.of [2, 3] ([1, 2, 3, 4, 5, 6].map Item.int) none),
      []⟩) none (.int 0) = .ok _ := rfl
  have row := root.next
    (.inr (.split (s := [2]) (i := 1) whole (by decide) split rfl (by decide) rfl)) rfl
  exact Grown.compose_inBounds (v := reversedRow) (row.next (.inl (.rotate whole)) rfl)

end View
end LazyApl
