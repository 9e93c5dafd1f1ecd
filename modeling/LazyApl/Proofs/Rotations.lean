import LazyApl.Proofs.Mirroring
/-!
# Rotations add up

A rotation by some amounts and then by others turns each line along the axis by the sum of its two
amounts. There may be a single amount for all lines or one for each, in either rotation, and two
single ones are folded into one link while the others are followed one after the other. The cells
come from the same places in all cases, so the arrays render alike.
-/
namespace LazyApl

open Outcome

namespace Turning

/-- The amounts by which the lines along an axis are turned: a single one for all of them, or one
for each. -/
inductive Amounts
  | all (k : Int)
  | each (ks : List Int)

namespace Amounts

/-- The amount of the line at a place among the lines. -/
def of : Amounts → Int → Int
  | all k, _ => k
  | each ks, j => ks.getD j.toNat 0

/-- Amounts are added item by item, and a single one to each of the others. -/
def add : Amounts → Amounts → Amounts
  | all k, all m => all (k + m)
  | all k, each ms => each (ms.map (k + ·))
  | each ks, all m => each (ks.map (· + m))
  | each ks, each ms => each (List.zipWith (· + ·) ks ms)

def neg : Amounts → Amounts
  | all k => all (-k)
  | each ks => each (ks.map (-·))

/-- There is a single amount, or one for each line of the given extents. -/
def Fits (u : Shape) : Amounts → Prop
  | all _ => True
  | each ks => (ks.length : Int) = u.size

variable {u : Shape} {K M : Amounts} {j : Int}

theorem Fits.lt_length {ks : List Int} (h : (each ks).Fits u) (hj : u.Holds j) :
    j.toNat < ks.length := by
  unfold Fits at h
  unfold Shape.Holds at hj
  omega

theorem of_add (hK : K.Fits u) (hM : M.Fits u) (hj : u.Holds j) :
    (K.add M).of j = K.of j + M.of j := by
  cases K with
  | all k =>
      cases M with
      | all m => rfl
      | each ms => simp [add, of, List.getD_eq_getElem?_getD, hM.lt_length hj]
  | each ks =>
      cases M with
      | all m => simp [add, of, List.getD_eq_getElem?_getD, hK.lt_length hj]
      | each ms =>
          simp [add, of, List.getD_eq_getElem?_getD, hK.lt_length hj, hM.lt_length hj]

theorem of_neg (hK : K.Fits u) (hj : u.Holds j) : K.neg.of j = -K.of j := by
  cases K with
  | all k => rfl
  | each ks => simp [neg, of, List.getD_eq_getElem?_getD, hK.lt_length hj]

end Amounts

variable {s : Shape} {a : Nat} {n : Int}

theorem turned_zero {c : List Int} (hc : s.Within c) (ha : s[a]? = some n) :
    turned a n 0 c = c := by
  obtain ⟨x, hx, hb, _⟩ := turn_uniform hc ha 0
  obtain ⟨hlt, rfl⟩ := List.getElem?_eq_some_iff.mp hx
  rw [turned, List.getD_eq_getElem?_getD, hx, Option.getD_some, Int.add_zero,
    Int.fmod_eq_of_lt hb.1 hb.2, List.set_getElem_self]

/-- The place from which a turn takes the cell at some coordinates, by the amount of its line. -/
def source (s : Shape) (a : Nat) (n : Int) (amount : Int → Int) (c : List Int) : List Int :=
  turned a n (amount (line s a c)) c

theorem source_within {c : List Int} (hc : s.Within c) (ha : s[a]? = some n) (k : Int → Int) :
    s.Within (source s a n k c) :=
  turned_within hc ha _

theorem source_source {c : List Int} (hc : s.Within c) (ha : s[a]? = some n) (k m : Int → Int) :
    source s a n k (source s a n m c) = source s a n (fun j => k j + m j) c := by
  rw [source, source, line_turned, turned_turned hc ha, source]

end Turning

open Turning

namespace Item

/-- An item lists the amounts for the lines of the given extents: it has a single cell, or these
extents. -/
def ListsAmounts (x : Item) (u : Shape) : Amounts → Prop
  | .all k => ∃ s : Shape, (view x.lift).shapeOf = .ok (.ofShape s) ∧ s.size = 1 ∧
      x.asInts "rotation" = .ok [k]
  | .each ks => (view x.lift).shapeOf = .ok (.ofShape u) ∧ x.asInts "rotation" = .ok ks

variable {x : Item} {u : Shape} {K : Amounts}

theorem ListsAmounts.fits (h : x.ListsAmounts u K) (hu : u.IsProper) : K.Fits u := by
  cases K with
  | all k => trivial
  | each ks =>
      obtain ⟨hs, hk⟩ := h
      obtain ⟨v, hv, hl⟩ := length_asInts hs hk
      obtain rfl := Extents.ofShape_inj hv
      have := Shape.size_nonneg hu
      unfold Amounts.Fits
      omega

/-- The amounts as an array at hand, or as a number. -/
def ofAmounts (u : Shape) : Amounts → Item
  | .all k => int k
  | .each ks => array (Grid.of u (ks.map int) none)

theorem listsAmounts_ofAmounts (h : K.Fits u) : (ofAmounts u K).ListsAmounts u K := by
  cases K with
  | all k => exact ⟨[], rfl, rfl, rfl⟩
  | each ks =>
      have hl : (ks.length : Int) = u.size := h
      exact ⟨rfl, asInts_ofNumbers (by omega) "rotation"⟩

end Item

namespace Rotation

variable {given : Option AxisArgument} {first : Bool} {origin : Origin} {s u : Shape} {a : Nat}
  {n k : Int} {ks : List Int} {x : Item} {K : Amounts}

theorem accepts_all (ha : s[a]? = some n)
    (haxis : axis given first origin (.ofShape s) = .ok (a : Int))
    (h : x.ListsAmounts u (.all k)) :
    (Step.rotate (some (x.asArgument "rotation")) given first origin).shapeOver (.ofShape s) =
        .ok (.ofShape s) ∧
      (Step.rotate (some (x.asArgument "rotation")) given first origin).linkOver (.ofShape s) =
        .ok ((uniform k).link (.ofShape s) a) := by
  obtain ⟨v, hv, h1, hk⟩ := h
  have hne : s ≠ [] := List.ne_nil_of_length_pos (List.getElem?_eq_some_iff.mp ha).1.pos
  have hone : (Extents.ofShape v).size = .ok (.int 1) := by rw [Extents.size_ofShape, h1]
  have hsingle : single (some (x.asArgument "rotation")) = .ok (some k) := by
    simp [single, Item.asArgument, hv, hone, hk, bind, Except.bind, pure, Except.pure]
  have hshape : shape (some (x.asArgument "rotation")) given first origin (.ofShape s) =
      .ok (.ofShape s) := by
    simp [shape, Item.asArgument, hv, hone, bind, Except.bind, pure, Except.pure]
  refine ⟨hshape, ?_⟩
  rw [Step.linkOver, hsingle]
  simp only [bind, Except.bind]
  rw [linkWith_of_ne_nil hne hshape, haxis]
  rfl

/-- Amounts for each line are accepted if they have the extents of the other axes, and unless there
is only one line, each line is turned by its own amount. -/
theorem accepts_each (ha : s[a]? = some n)
    (haxis : axis given first origin (.ofShape s) = .ok (a : Int))
    (h : x.ListsAmounts (s.eraseIdx a) (.each ks)) (h1 : Shape.size (s.eraseIdx a) ≠ 1) :
    (Step.rotate (some (x.asArgument "rotation")) given first origin).shapeOver (.ofShape s) =
        .ok (.ofShape s) ∧
      (Step.rotate (some (x.asArgument "rotation")) given first origin).linkOver (.ofShape s) =
        .ok ((perLine ks).link (.ofShape s) a) := by
  obtain ⟨hu, hk⟩ := h
  have hne : s ≠ [] := List.ne_nil_of_length_pos (List.getElem?_eq_some_iff.mp ha).1.pos
  have hsingle : single (some (x.asArgument "rotation")) = .ok none := by
    simp [single, Item.asArgument, hu, h1, bind, Except.bind, pure, Except.pure]
  have hothers : without (Extents.ofShape s) a = Extents.ofShape (s.eraseIdx a) := by
    simp [without, Extents.ofShape, List.eraseIdx_map]
  have hshape : shape (some (x.asArgument "rotation")) given first origin (.ofShape s) =
      .ok (.ofShape s) := by
    simp [shape, Item.asArgument, hu, haxis, hothers, bind, Except.bind, pure, Except.pure]
  refine ⟨hshape, ?_⟩
  rw [Step.linkOver, hsingle]
  simp only [bind, Except.bind]
  rw [linkWith_of_ne_nil hne hshape, haxis]
  simp [Item.asArgument, hk, bind, Except.bind, pure, Except.pure]

/-- A rotation by listed amounts is accepted, and takes each cell from where its line is turned. -/
theorem accepts (hs : s.IsProper) (ha : s[a]? = some n)
    (haxis : axis given first origin (.ofShape s) = .ok (a : Int))
    (hx : x.ListsAmounts (s.eraseIdx a) K) :
    (Step.rotate (some (x.asArgument "rotation")) given first origin).shapeOver (.ofShape s) =
        .ok (.ofShape s) ∧
      ∃ l, (Step.rotate (some (x.asArgument "rotation")) given first origin).linkOver
          (.ofShape s) = .ok l ∧
        ∀ c, s.Within c → l.reach (Shape.dot c s.strides) =
          some (Shape.dot (source s a n K.of c) s.strides) := by
  have hp : Shape.IsProper (s.eraseIdx a) := fun n hn => hs n (List.mem_of_mem_eraseIdx hn)
  have hfits := hx.fits hp
  cases K with
  | all k =>
      obtain ⟨hshape, hlink⟩ := accepts_all ha haxis hx
      refine ⟨hshape, _, hlink, fun c hc => ?_⟩
      rw [(maps_uniform hs ha k).reach_eq hc.holds, Shape.coordinates_dot hc]
      rfl
  | each ks =>
      by_cases h1 : Shape.size (s.eraseIdx a) = 1
      · -- the amount of the only line is a single amount
        obtain ⟨k, rfl⟩ : ∃ k, ks = [k] := by
          unfold Amounts.Fits at hfits
          exact List.length_eq_one_iff.mp (by omega)
        have hall : x.ListsAmounts (s.eraseIdx a) (.all k) := ⟨_, hx.1, h1, hx.2⟩
        obtain ⟨hshape, hlink⟩ := accepts_all ha haxis hall
        refine ⟨hshape, _, hlink, fun c hc => ?_⟩
        have hline : line s a c = 0 := by
          have := holds_line hc a
          unfold Shape.Holds at this
          omega
        rw [(maps_uniform hs ha k).reach_eq hc.holds, Shape.coordinates_dot hc, source, hline]
        rfl
      · obtain ⟨hshape, hlink⟩ := accepts_each ha haxis hx h1
        refine ⟨hshape, _, hlink, fun c hc => ?_⟩
        rw [(maps_perLine hs ha hfits).reach_eq hc.holds, Shape.coordinates_dot hc]
        rfl

end Rotation

namespace View

variable {root : Root Item} {r t : Shape} {v : View Item} {a : Nat} {n o : Int}
  {given : Option AxisArgument} {first : Bool} {origin : Origin} {x : Item} {K : Amounts}

theorem StandsOn.comesFrom_rotate (h : StandsOn root r v t) (ho : origin.number = .ok (.int o))
    (ha : t[a]? = some n) (haxis : Rotation.axis given first origin (.ofShape t) = .ok (a : Int))
    (hx : x.ListsAmounts (t.eraseIdx a) K) :
    ∃ f, ComesFrom root r t t (Item.rotate (.view v) (some x) given first origin) v f ∧
      (∀ c, t.Within c → f (Shape.dot c t.strides) =
        some (Shape.dot (source t a n K.of c) t.strides)) ∧
      (Item.rotate (.view v) (some x) given first origin).etype = v.etype := by
  have ht := (h.stands.keeps Item.fillOf).proper
  obtain ⟨hshape, l, hlink, hreach⟩ := Rotation.accepts ht ha haxis hx
  have hsound : (Step.rotate (some (x.asArgument "rotation")) given first origin).IsSound t := by
    refine ⟨fun y hy => ?_, o, ho⟩
    obtain rfl := Option.some.inj hy
    exact Item.isCounted_asArgument x "rotation"
  exact ⟨_, h.comesFrom_under hsound hshape hlink rfl, hreach, etype_under_of_keepsType rfl⟩

/-- A rotation of a rotation along the same axis shows each cell at the place from which its line is
turned by the sum of its amounts. -/
theorem StandsOn.comesFrom_rotate_rotate (h : StandsOn root r v t)
    (ho : origin.number = .ok (.int o)) (ha : t[a]? = some n)
    (haxis : Rotation.axis given first origin (.ofShape t) = .ok (a : Int)) {y : Item}
    {M : Amounts} (hx : x.ListsAmounts (t.eraseIdx a) K) (hy : y.ListsAmounts (t.eraseIdx a) M) :
    ∃ f, ComesFrom root r t t (Item.rotate (.view (Item.rotate (.view v) (some x) given first
        origin)) (some y) given first origin) v f ∧
      (∀ c, t.Within c → f (Shape.dot c t.strides) =
        some (Shape.dot (source t a n (fun j => K.of j + M.of j) c) t.strides)) ∧
      (Item.rotate (.view (Item.rotate (.view v) (some x) given first origin)) (some y) given first
        origin).etype = v.etype := by
  obtain ⟨f, hf, hplace, hetype⟩ := h.comesFrom_rotate ho ha haxis hx
  obtain ⟨f', hf', hplace', hetype'⟩ := hf.standsOn.comesFrom_rotate ho ha haxis hy
  refine ⟨_, hf.trans hf', fun c hc => ?_, hetype'.trans hetype⟩
  rw [hplace' c hc, Option.bind_some, hplace _ (source_within hc ha _), source_source hc ha]

variable {y : Item} {M : Amounts}

/-- To rotate by some amounts and then by others, each a single one or one for each line, renders
like to rotate by their sums, along any axis and over any extents. To rotate by amounts and back
renders like the array itself. Of an array that answers whatever it is asked all of these render. -/
theorem Grown.rotate_rotate (h : Grown (fun v w => Raises v w ∨ HandsOut v w) root r v)
    (hr : (⟨root, []⟩ : View Item).IsReady) (hv : v.shape = .ok (.ofShape t)) (hne : t ≠ [])
    (ho : origin.number = .ok (.int o))
    (haxis : Rotation.axis given first origin (.ofShape t) = .ok (a : Int))
    (hx : x.ListsAmounts (t.eraseIdx a) K) (hy : y.ListsAmounts (t.eraseIdx a) M) :
    ∃ once twice, Item.rotate (.view v) (some x) given first origin = once ∧
      Item.rotate (.view once) (some y) given first origin = twice ∧
      twice.shape = .ok (.ofShape t) ∧
      (∀ z : Item, z.ListsAmounts (t.eraseIdx a) (K.add M) →
        twice.RendersAlike (Item.rotate (.view v) (some z) given first origin)) ∧
      (M = K.neg → twice.RendersAlike v) ∧
      ∀ g, v.ShownAs g → ∃ w, (Item.view twice).render = .ok w := by
  obtain ⟨t', hs⟩ := h.exists_standsOn
  obtain rfl : t' = t := Extents.ofShape_inj (Except.ok.inj (hs.shape_eq.symm.trans hv))
  obtain ⟨_, n, ha', ha⟩ := Rotation.axis_bounds hne haxis
  obtain rfl := Int.natCast_inj.mp ha'
  have ht := (hs.stands.keeps Item.fillOf).proper
  have hp : Shape.IsProper (t'.eraseIdx a) := fun n hn => ht n (List.mem_of_mem_eraseIdx hn)
  have hK := hx.fits hp
  have hM := hy.fits hp
  obtain ⟨f, hf, hplace, hetype⟩ := hs.comesFrom_rotate_rotate ho ha haxis hx hy
  refine ⟨_, _, rfl, rfl, hf.standsOn.shape_eq, fun z hz => ?_, fun hback => ?_, fun g hg => ?_⟩
  · obtain ⟨f', hf', hplace', hetype'⟩ := hs.comesFrom_rotate ho ha haxis hz
    have hsame (i : Int) (hi : t'.Holds i) : f i = f' i := by
      have hc := Shape.coordinates_within ht hi
      have hj := holds_line hc a
      rw [← Shape.dot_coordinates ht hi, hplace _ hc, hplace' _ hc, source, source,
        Amounts.of_add hK hM hj]
    refine (hf.rendersAlike hf' hsame (under_ne_ofGrid _ _) (under_ne_ofGrid _ _)).2 ?_
    rw [hetype, hetype']
  -- an amount and its negative leave each cell of a line where it is
  · have hself (i : Int) (hi : t'.Holds i) : f i = some i := by
      have hc := Shape.coordinates_within ht hi
      have hj := holds_line hc a
      have hplace := hplace _ hc
      rw [source, hback, Amounts.of_neg hK hj, Int.add_right_neg, turned_zero hc ha,
        Shape.dot_coordinates ht hi] at hplace
      exact hplace
    exact hf.rendersAlike_source hs hr hself hetype (under_ne_ofGrid _ _)
  · obtain ⟨_, _, F, _, hyields, _⟩ := hg.exists_yields
    obtain rfl : g.shape = t' :=
      Extents.ofShape_inj (Except.ok.inj (hyields.shape.symm.trans hv))
    exact hf.exists_render hs hyields hg.fill (hetype ▸ hyields.etype) (under_ne_ofGrid _ _)

/-- Each row is turned by an amount of its own and then both are turned by one more, or back. -/
theorem numberedRows_rotate_rotate :
    (∃ once twice w, Item.rotate (.view numberedRows) (some (.array (Grid.ofInts [1, -1]))) none
        false (.int 0) = once ∧
      Item.rotate (.view once) (some (.int 4)) none false (.int 0) = twice ∧
      (Item.view twice).render =
        .ok (.array (Grid.of [2, 3] ([3, 1, 2, 4, 5, 6].map Item.int) none)) ∧
      (Item.view (Item.rotate (.view numberedRows) (some (.array (Grid.ofInts [5, 3]))) none false
        (.int 0))).render = .ok w ∧
      Item.Alike (.array (Grid.of [2, 3] ([3, 1, 2, 4, 5, 6].map Item.int) none)) w) ∧
    ∃ once twice w, Item.rotate (.view numberedRows) (some (.array (Grid.ofInts [1, -1]))) none
        false (.int 0) = once ∧
      Item.rotate (.view once) (some (.array (Grid.ofInts [-1, 1]))) none false (.int 0) = twice ∧
      (Item.view twice).render = .ok w ∧
      Item.Alike w (.array (Grid.of [2, 3] ([1, 2, 3, 4, 5, 6].map Item.int) none)) := by
  have ready : numberedRows.IsReady := isReady_ofNumbers (by simp [Shape.IsProper]) rfl
  have root : Grown (fun v w => Raises v w ∨ HandsOut v w)
      (.concrete (Grid.of [2, 3] ([1, 2, 3, 4, 5, 6].map Item.int) none)) [2, 3] numberedRows :=
    .root rfl (by simp [Shape.IsProper])
  have hrows (k m : Int) :
      (Item.array (Grid.ofInts [k, m])).ListsAmounts ([2, 3].eraseIdx 1) (.each [k, m]) :=
    Item.listsAmounts_ofAmounts (u := [2]) (K := .each [k, m]) rfl
  have hall : (Item.int 4).ListsAmounts ([2, 3].eraseIdx 1) (.all 4) :=
    Item.listsAmounts_ofAmounts (K := .all 4) trivial
  have origin : Scalar.number (.int 0) = .ok (.int 0) := rfl
  have axis : Rotation.axis none false (.int 0) (.ofShape [2, 3]) = .ok ((1 : Nat) : Int) := rfl
  obtain ⟨_, _, rfl, rfl, _, hsum, _, _⟩ :=
    root.rotate_rotate (t := [2, 3]) ready rfl (by simp) origin axis (hrows 1 (-1)) hall
  obtain ⟨_, _, rfl, rfl, _, _, hback, _⟩ :=
    root.rotate_rotate (t := [2, 3]) ready rfl (by simp) origin axis (hrows 1 (-1)) (hrows (-1) 1)
  obtain ⟨w, hw, halike⟩ := (hsum _ (hrows 5 3)).1
    (.array (Grid.of [2, 3] ([3, 1, 2, 4, 5, 6].map Item.int) none)) rfl
  obtain ⟨w', hw', halike'⟩ := (hback rfl).2 _ rfl
  exact ⟨⟨_, _, w, rfl, rfl, rfl, hw, halike⟩, _, _, w', rfl, rfl, hw', halike'⟩

end View
end LazyApl
