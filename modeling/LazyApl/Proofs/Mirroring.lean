import LazyApl.Proofs.Masking
import LazyApl.Proofs.Sections
import LazyApl.Proofs.Sources
/-!
# Sections from the end of an axis

A count that is negative takes or drops from the end of an axis. This is the section by the count
itself of the array reversed along the axis, reversed again: the fills change sides, and every
source cell keeps its place among the others.
-/
namespace LazyApl

open Outcome

namespace Span

variable {drop : Bool} {k n x : Int}

/-- The span seen from the other end of an axis of `n`. -/
def mirrored (s : Span) (n : Int) : Span := ⟨n - s.stop, n - s.start, s.after, s.before⟩

theorem extent_mirrored (s : Span) (n : Int) : (s.mirrored n).extent = s.extent := by
  unfold mirrored extent length
  dsimp only
  omega

theorem isPadded_mirrored (s : Span) (n : Int) : (s.mirrored n).isPadded = s.isPadded :=
  Bool.or_comm _ _

theorem locate_mirrored (s : Span) (n x : Int) :
    (s.mirrored n).locate x = (s.locate (s.extent - 1 - x)).map fun y => n - 1 - y := by
  unfold mirrored locate extent length
  dsimp only
  by_cases h : x - s.after < 0 ∨ n - s.start - (n - s.stop) ≤ x - s.after
  · rw [if_pos h, if_pos (by omega)]
    rfl
  · rw [if_neg h, if_neg (by omega), Option.map_some]
    congr 1
    omega

theorem cut_neg (hk : 0 < k) : cut drop (-k) n = (cut drop k n).mirrored n := by
  cases drop with
  | true =>
      simp only [cut, Span.drop, mirrored, if_true, if_pos hk.le, if_neg (by omega : ¬ 0 ≤ -k)]
      congr 1 <;> omega
  | false =>
      simp only [cut, take, mirrored, Bool.false_eq_true, if_false, if_pos hk.le,
        if_neg (by omega : ¬ 0 ≤ -k)]
      congr 1 <;> omega

theorem take_zero (hn : 0 ≤ n) : take 0 n = whole 0 := by
  simp [take, whole, hn]

theorem drop_zero (hn : 0 ≤ n) : Span.drop 0 n = whole n := by
  simp [Span.drop, whole, hn]

/-- A section from the end shows as many cells as the one from the beginning, with fills if that one
has some, and locates each of them where that one locates its mirror image. -/
theorem cut_neg_spec (drop : Bool) (hk : 0 ≤ k) (hn : 0 ≤ n) :
    (cut drop (-k) n).extent = (cut drop k n).extent ∧
      (cut drop (-k) n).isPadded = (cut drop k n).isPadded ∧
      ∀ x, 0 ≤ x → x < (cut drop k n).extent → (cut drop (-k) n).locate x =
        ((cut drop k n).locate ((cut drop k n).extent - 1 - x)).map fun y => n - 1 - y := by
  rcases hk.lt_or_eq with hk | rfl
  · rw [cut_neg hk]
    exact ⟨extent_mirrored _ n, isPadded_mirrored _ n, fun x _ _ => locate_mirrored _ n x⟩
  · refine ⟨rfl, rfl, fun x h0 hx => ?_⟩
    cases drop with
    | true =>
        simp only [cut, if_true, neg_zero, drop_zero hn, extent_whole] at hx ⊢
        rw [locate_whole h0 hx, locate_whole (by omega) (by omega), Option.map_some]
        congr 1
        omega
    | false =>
        simp only [cut, Bool.false_eq_true, if_false, take_zero hn, extent_whole] at hx
        omega

end Span

namespace View

variable {root : Root Item} {r t : Shape} {v : View Item} {a : Nat} {n o count : Int}
  {origin : Origin}

/-- A reversal along an axis shows each cell at the mirror image of its place. -/
theorem StandsOn.reverse (h : StandsOn root r v t) (ho : origin.number = .ok (.int o))
    (ha : t[a]? = some n) (first : Bool) :
    ∃ f, ComesFrom root r t t
        (Item.rotate (.view v) none (some (.whole (o + a))) first origin) v f ∧
      (∀ c, t.Within c → f (Shape.dot c t.strides) =
        some (Shape.dot (c.set a (n - 1 - c.getD a 0)) t.strides)) ∧
      (Item.rotate (.view v) none (some (.whole (o + a))) first origin).etype = v.etype := by
  have ht := (h.stands.keeps Item.fillOf).proper
  obtain ⟨hlt, hget⟩ := List.getElem?_eq_some_iff.mp ha
  have hne : t ≠ [] := List.ne_nil_of_length_pos (by omega)
  have haxis : Rotation.axis (some (.whole (o + a))) first origin (.ofShape t) = .ok (a : Int) := by
    have hlocated : (AxisArgument.whole (o + a)).located t.length origin = .ok (.int (o + a - o)) :=
      AxisArgument.located_eq ho (by omega)
    simp [Rotation.axis, Rotation.located, hlocated, bind, Except.bind]
  have hlink : (Step.rotate none (some (.whole (o + a))) first origin).linkOver (.ofShape t) =
      .ok (Turning.reversal.link (.ofShape t) a) := by
    have hlink : Rotation.linkWith none (some (.whole (o + a))) first origin (.ofShape t) none =
        (Rotation.axis (some (.whole (o + a))) first origin (.ofShape t) >>= fun a =>
          .ok (Turning.reversal.link (.ofShape t) a)) := Rotation.linkWith_of_ne_nil hne rfl
    rw [haxis] at hlink
    exact hlink
  refine ⟨_, h.comesFrom_under (y := .rotate none (some (.whole (o + a))) first origin)
    ⟨by simp, o, ho⟩ rfl hlink rfl, fun c hc => ?_, etype_under_of_keepsType rfl⟩
  rw [(Turning.maps_reversal ht ha).reach_eq hc.holds, Shape.coordinates_dot hc]
  rfl

theorem StandsOn.comesFrom_along (h : StandsOn root r v t) (ha : t[a]? = some n) (style : Cut)
    (drop : Bool) (count : Int) :
    ∃ f, ComesFrom root r t (t.set a (Span.cut drop count n).extent)
        (v.under (.cut style drop [count] (some [(a : Int)]))) v f ∧
      ∀ c, Shape.Within (t.set a (Span.cut drop count n).extent) c →
        f (Shape.dot c (Shape.strides (t.set a (Span.cut drop count n).extent))) =
          ((Span.cut drop count n).locate (c.getD a 0)).map fun x =>
            Shape.dot (c.set a x) t.strides := by
  have ht := (h.stands.keeps Item.fillOf).proper
  have hfits := Span.fits_cut (ht n (List.mem_of_getElem? ha)) drop count
  exact ⟨_, h.comesFrom_under (y := .cut style drop [count] (some [(a : Int)])) trivial
    (Step.shapeOver_along style drop count ha) (Step.linkOver_along style drop count ha) rfl,
    fun c hc => Section.reach_along ht ha hfits hc⟩

/-- A section of the array reversed along the axis, reversed again, shows each cell at the mirror
image of the place that the span gives for its own mirror image. -/
theorem StandsOn.comesFrom_reversed (h : StandsOn root r v t) (ho : origin.number = .ok (.int o))
    (ha : t[a]? = some n) (style : Cut) (drop first : Bool) (count : Int) {s : Span}
    (hs : Span.cut drop count n = s) {turned part back : View Item}
    (hturned : turned = Item.rotate (.view v) none (some (.whole (o + a))) first origin)
    (hpart : part = turned.under (.cut style drop [count] (some [(a : Int)])))
    (hback : back = Item.rotate (.view part) none (some (.whole (o + a))) first origin) :
    ∃ f, ComesFrom root r t (t.set a s.extent) back v f ∧
      (∀ c, Shape.Within (t.set a s.extent) c →
        f (Shape.dot c (Shape.strides (t.set a s.extent))) =
          (s.locate (s.extent - 1 - c.getD a 0)).map fun x =>
            Shape.dot (c.set a (n - 1 - x)) t.strides) ∧
      ((∃ e, v.etype = .ok e) → ((∃ e, back.etype = .ok e) ↔
        (s.isPadded = true → ∃ p, v.prototype = .ok p))) := by
  subst hturned hpart hback
  have ht := (h.stands.keeps Item.fillOf).proper
  obtain ⟨hlt, -⟩ := List.getElem?_eq_some_iff.mp ha
  have hfits : s.Fits n := hs ▸ Span.fits_cut (ht n (List.mem_of_getElem? ha)) drop count
  obtain ⟨f₁, hf₁, hplace₁, hetype₁⟩ := h.reverse ho ha first
  obtain ⟨f₂, hf₂, hplace₂⟩ := hf₁.standsOn.comesFrom_along ha style drop count
  have hetype₂ := fun he => hf₁.standsOn.exists_etype_along (hetype₁ ▸ he) style drop count ha
  rw [hs] at hf₂ hplace₂
  rw [hs, hf₁.prototype_eq] at hetype₂
  have hset : (t.set a s.extent)[a]? = some s.extent := by simp [hlt]
  obtain ⟨f₃, hf₃, hplace₃, hetype₃⟩ := hf₂.standsOn.reverse ho hset first
  refine ⟨_, (hf₁.trans hf₂).trans hf₃, fun c hc => ?_, fun he => ?_⟩
  · have hown (d : List Int) (hd : a < d.length) (x : Int) : (d.set a x).getD a 0 = x := by
      simp [List.getD_eq_getElem?_getD, hd]
    have hlc : a < c.length := by simpa [hc.length_eq] using hlt
    have hx := hc.getD_bounds hset
    have hmirror := hc.set_self hset (x := s.extent - 1 - c.getD a 0) (by omega)
    rw [hplace₃ c hc, Option.bind_some, hplace₂ _ hmirror, hown c hlc]
    cases hy : s.locate (s.extent - 1 - c.getD a 0) with
    | none => rfl
    | some y =>
        have hwithin := hmirror.move ha (hfits.locate_bounds hy)
        rw [Option.map_some, Option.map_some, Option.bind_some, hplace₁ _ hwithin,
          hown _ (by simpa using hlc), List.set_set, List.set_set]
  · rw [hetype₃]
    exact hetype₂ he

/-- A take or a drop from the end of an axis is the one from the beginning of the array reversed
along the axis, reversed again, for any count, also one beyond the extent. If both render, it is to
alike arrays; if the array has an element type, the one renders exactly if the other one does; and
of an array that answers whatever it is asked both render. -/
theorem Grown.cut_neg_reversed (h : Grown (fun v w => Raises v w ∨ HandsOut v w) root r v)
    (hv : v.shape = .ok (.ofShape t)) (ha : a < t.length) (k : Nat)
    (ho : origin.number = .ok (.int o)) (style : Cut) (drop first : Bool) :
    ∃ w part back, Item.cut style drop (.view v) (.int (-k)) (some (.int (o + a))) origin = .ok w ∧
      Item.cut style drop (.view (Item.rotate (.view v) none (some (.whole (o + a))) first origin))
        (.int k) (some (.int (o + a))) origin = .ok part ∧
      back = Item.rotate (.view part) none (some (.whole (o + a))) first origin ∧
      (∀ x y, (Item.view w).render = .ok x → (Item.view back).render = .ok y → Item.Alike x y) ∧
      ((∃ e, v.etype = .ok e) → w.RendersAlike back) ∧
      ∀ g, v.ShownAs g → ∃ x y, (Item.view w).render = .ok x ∧ (Item.view back).render = .ok y ∧
        Item.Alike x y := by
  obtain ⟨t', hs⟩ := h.exists_standsOn
  obtain rfl : t' = t := Extents.ofShape_inj (Except.ok.inj (hs.shape_eq.symm.trans hv))
  have hn : t'[a]? = some t'[a] := List.getElem?_eq_getElem ha
  generalize t'[a] = n at hn
  have h0 : 0 ≤ n := (hs.stands.keeps Item.fillOf).proper n (List.mem_of_getElem? hn)
  obtain ⟨hextent, hpadded, hlocate⟩ := Span.cut_neg_spec drop (Int.natCast_nonneg k) h0
  obtain ⟨f, hf, hplace⟩ := hs.comesFrom_along hn style drop (-k)
  have hetype := fun he => hs.exists_etype_along he style drop (-k) hn
  rw [hextent] at hf hplace
  rw [hpadded] at hetype
  obtain ⟨f', hf', hplace', hetype'⟩ :=
    hs.comesFrom_reversed ho hn style drop first k rfl rfl rfl rfl
  have hu := (hf.standsOn.stands.keeps Item.fillOf).proper
  have hset : (t'.set a (Span.cut drop k n).extent)[a]? = some (Span.cut drop k n).extent := by
    simp [ha]
  -- both sections read the same cells: a place from the end is one from the front of the mirrored
  -- axis
  have hsame : ∀ i, Shape.Holds (t'.set a (Span.cut drop k n).extent) i → f i = f' i := by
    intro i hi
    have hc := Shape.coordinates_within hu hi
    have hx := hc.getD_bounds hset
    have hf := hplace _ hc
    have hf' := hplace' _ hc
    rw [Shape.dot_coordinates hu hi] at hf hf'
    rw [hf, hf', hlocate _ hx.1 hx.2, Option.map_map]
    rfl
  have hturned : (Item.rotate (.view v) none (some (.whole (o + a))) first origin).shape =
      .ok (.ofShape t') := by
    obtain ⟨_, hturned, _, _⟩ := hs.reverse ho hn first
    exact hturned.standsOn.shape_eq
  obtain ⟨hboth, halike⟩ := hf.rendersAlike hf' hsame (under_ne_ofGrid _ _) (under_ne_ofGrid _ _)
  have hequal := fun he => halike ((hetype he).trans (hetype' he).symm)
  refine ⟨_, _, _, cut_along hv ho ha, cut_along hturned ho ha, rfl, hboth, hequal, fun g hg => ?_⟩
  obtain ⟨_, _, F, _, hy, _⟩ := hg.exists_yields
  obtain rfl : g.shape = t' := Extents.ofShape_inj (Except.ok.inj (hy.shape.symm.trans hv))
  obtain ⟨x, hx⟩ := hf.exists_render hs hy hg.fill
    ((hetype hy.etype).mpr fun _ => hg.fill) (under_ne_ofGrid _ _)
  obtain ⟨y, hry, hxy⟩ := (hequal hy.etype).1 x hx
  exact ⟨x, y, hx, hry, hxy⟩

/-- The numbers from one to six in two rows of three. -/
def numberedRows : View Item := ofGrid (Grid.of [2, 3] ([1, 2, 3, 4, 5, 6].map Item.int) none)

/-- Five items taken from the end of each row, two more than there are. -/
theorem numberedRows_cut_neg_reversed :
    ∃ w part y, Item.take (.view numberedRows) (.int (-5)) (some (.int 2)) (.int 1) = .ok w ∧
      (Item.view w).render =
        .ok (.array (Grid.of [2, 5] ([0, 0, 1, 2, 3, 0, 0, 4, 5, 6].map Item.int) none)) ∧
      Item.take (.view (Item.rotate (.view numberedRows) none (some (.whole 2)) false (.int 1)))
        (.int 5) (some (.int 2)) (.int 1) = .ok part ∧
      (Item.view (Item.rotate (.view part) none (some (.whole 2)) false (.int 1))).render =
        .ok y ∧
      Item.Alike
        (.array (Grid.of [2, 5] ([0, 0, 1, 2, 3, 0, 0, 4, 5, 6].map Item.int) none)) y := by
  have ready : numberedRows.IsReady := isReady_ofNumbers (by simp [Shape.IsProper]) rfl
  have root : Grown (fun v w => Raises v w ∨ HandsOut v w)
      (.concrete (Grid.of [2, 3] ([1, 2, 3, 4, 5, 6].map Item.int) none)) [2, 3] numberedRows :=
    .root rfl (by simp [Shape.IsProper])
  have shown := shownAs_ofGrid ready (by simp [Grid.of, Shape.IsProper])
  have origin : Scalar.number (.int 1) = .ok (.int 1) := rfl
  obtain ⟨w, part, back, hw, hpart, hback, _, _, hshown⟩ :=
    root.cut_neg_reversed (t := [2, 3]) (a := 1) (o := 1) rfl (by simp) 5 origin
      .take false false
  obtain ⟨x, y, hx, hy, halike⟩ := hshown _ shown
  cases hw
  obtain rfl : Item.array
      (Grid.of [2, 5] ([0, 0, 1, 2, 3, 0, 0, 4, 5, 6].map Item.int) none) = x := Except.ok.inj hx
  exact ⟨_, part, y, rfl, rfl, hpart, hback ▸ hy, halike⟩

end View
end LazyApl
