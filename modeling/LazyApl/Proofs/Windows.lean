import LazyApl.Primitive.Nest
import LazyApl.Proofs.Gathers
import Mathlib.Algebra.BigOperators.Group.List.Basic
/-!
# Windows frame cells of their source

Enclosing some axes makes a window of those axes for every place on the others, and partitioning
makes a window of each stretch along one axis. The position of the first cell and the steps of the
window come from the strides of the source, so every cell of the window is a cell of the source.
-/
namespace LazyApl

open Outcome

namespace Shape

def along (xs axes : List Int) : List Int := axes.map fun a => xs.getD a.toNat 0

theorem IsProper.along {s : Shape} (h : s.IsProper) (axes : List Int) :
    IsProper (along s axes) := by
  intro n hn
  obtain ⟨a, _, rfl⟩ := List.mem_map.mp hn
  rw [List.getD_eq_getElem?_getD]
  cases hk : s[a.toNat]? with
  | none => simp
  | some m => exact h m (List.mem_of_getElem? hk)

/-- How far the last cell along an axis is from the first one. -/
def farthest (s factors : List Int) (a : Int) : Int :=
  (s.getD a.toNat 0 - 1) * factors.getD a.toNat 0

theorem strides_nonneg {s : Shape} (hs : s.IsProper) : ∀ f ∈ strides s, 0 ≤ f := by
  induction s with
  | nil => simp [strides]
  | cons n s ih =>
      rw [isProper_cons] at hs
      exact List.forall_mem_cons.mpr ⟨size_nonneg hs.2, ih hs.2⟩

/-- Coordinates along some axes are at most as far from the origin as the last cell. -/
theorem dot_along_bounds {s factors axes c : List Int} (hf : ∀ f ∈ factors, 0 ≤ f)
    (hc : Within (along s axes) c) :
    0 ≤ dot c (along factors axes) ∧
      dot c (along factors axes) ≤ (axes.map (farthest s factors)).sum := by
  induction axes generalizing c with
  | nil =>
      cases hc
      simp [dot]
  | cons a axes ih =>
      cases c with
      | nil => cases hc
      | cons x c =>
          obtain ⟨hx, hc⟩ := within_cons.mp hc
          have h := ih hc
          have h0 : 0 ≤ factors.getD a.toNat 0 := by
            rw [List.getD_eq_getElem?_getD]
            cases hk : factors[a.toNat]? with
            | none => simp
            | some f => exact hf f (List.mem_of_getElem? hk)
          simp only [along, List.map_cons, dot, List.sum_cons, farthest] at h ⊢
          constructor
          · nlinarith
          · nlinarith

theorem sum_farthest {s f : List Int} (h : f.length = s.length) :
    ((upTo s.length).map (farthest s f)).sum = dot (s.map (· - 1)) f := by
  have hr : (upTo s.length).map (farthest s f) =
      (List.range s.length).map fun k => (s.getD k 0 - 1) * f.getD k 0 := by
    simp [upTo, farthest, Function.comp_def]
  rw [hr]
  clear hr
  induction s generalizing f with
  | nil => simp [dot]
  | cons n s ih =>
      cases f with
      | nil => simp at h
      | cons x f =>
          have hs := ih (f := f) (by simpa using h)
          simp only [List.length_cons, List.range_succ_eq_map, List.map_cons, List.map_map,
            List.sum_cons, dot]
          rw [← hs]
          rfl

/-- The axes of an array in two groups: a place on the one and a place on the other make a cell. -/
theorem holds_of_axes {s : Shape} {outer inner c d : List Int} (hs : s.IsProper)
    (hp : (outer ++ inner).Perm (upTo s.length)) (hc : Within (along s outer) c)
    (hd : Within (along s inner) d) :
    s.Holds (dot c (along (strides s) outer) + dot d (along (strides s) inner)) := by
  have hf := strides_nonneg hs
  have h1 := dot_along_bounds hf hc
  have h2 := dot_along_bounds hf hd
  have hsum : (outer.map (farthest s (strides s))).sum + (inner.map (farthest s (strides s))).sum =
      dot (s.map (· - 1)) (strides s) := by
    rw [← sum_farthest (by simp), ← (hp.map _).sum_eq, List.map_append, List.sum_append]
  -- no axis is empty, since each has a coordinate in one of the two groups
  have hpos : ∀ n ∈ s, 0 < n := by
    intro n hn
    obtain ⟨k, hk, rfl⟩ := List.getElem_of_mem hn
    have hmem : (k : Int) ∈ outer ++ inner := hp.mem_iff.mpr (mem_upTo.mpr (by omega))
    have hin {axes x : List Int} (hx : Within (along s axes) x) (ha : (k : Int) ∈ axes) :
        0 < s[k] := by
      have hy := hx.extent_pos _ (List.mem_map_of_mem ha)
      simpa [hk] using hy
    rcases List.mem_append.mp hmem with ha | ha
    · exact hin hc ha
    · exact hin hd ha
  have hlast : Within s (s.map (· - 1)) := by
    rw [Within, List.forall₂_map_right_iff, List.forall₂_same]
    intro n hn
    have h := hpos n hn
    omega
  have hb := hlast.holds
  unfold Holds at hb ⊢
  omega

end Shape

namespace Enclose

theorem along_ofShape (t : Shape) (axes : List Int) :
    along (Extents.ofShape t) axes = Extents.ofShape (Shape.along t axes) := by
  simp only [along, Extents.ofShape, Shape.along, List.map_map]
  congr 1
  funext a
  simp only [Function.comp_apply, List.getD_eq_getElem?_getD, List.getElem?_map]
  cases t[a.toNat]? <;> rfl

theorem nodup_of_hasRepeats {ns : List Int}
    (h : innerAxes.hasRepeats (ns.map .int) = false) : ns.Nodup := by
  induction ns with
  | nil => exact List.nodup_nil
  | cons n ns ih =>
      simp only [List.map_cons, innerAxes.hasRepeats, Bool.or_eq_false_iff, List.any_eq_false,
        List.mem_map] at h
      refine List.nodup_cons.mpr ⟨fun hn => ?_, ih h.2⟩
      exact h.1 (.int n) ⟨n, hn, rfl⟩ (by simp)

/-- The enclosed axes are different axes of the array. -/
theorem innerAxes_spec {as : List Int} {rank o : Int} {origin : Origin} {xs : List Number}
    (ho : origin.number = .ok (.int o)) (h : innerAxes as (.ok rank) origin = .ok xs) :
    ∃ ns : List Int, xs = ns.map .int ∧ ns.length = as.length ∧ ns.Nodup ∧
      ∀ a ∈ ns, 0 ≤ a ∧ a < rank := by
  obtain ⟨ys, hy, hr⟩ := bind_eq_ok.mp h
  have hm := mapM_eq_ok.mp hy
  have hns : ∃ ns : List Int, ys = ns.map .int ∧ ∀ a ∈ ns, 0 ≤ a ∧ a < rank := by
    clear hy hr h
    induction hm with
    | nil => exact ⟨[], rfl, by simp⟩
    | @cons a x _ _ ha _ ih =>
        have ha : (AxisArgument.whole a).located rank origin = .ok x := ha
        obtain ⟨ns, rfl, hb⟩ := ih
        obtain ⟨k, rfl⟩ := AxisArgument.located_whole ho ha
        exact ⟨k :: ns, rfl, List.forall_mem_cons.mpr ⟨AxisArgument.located_int ha, hb⟩⟩
  obtain ⟨ns, rfl, hb⟩ := hns
  split at hr
  · cases hr
  · rename_i hn
    cases hr
    refine ⟨ns, rfl, ?_, nodup_of_hasRepeats (by simpa using hn), hb⟩
    simpa using hm.length_eq.symm

/-- Enclosed and remaining axes together are all axes. -/
theorem perm_outerAxes {ns : List Int} {rank : Int} (hn : ns.Nodup)
    (hb : ∀ a ∈ ns, 0 ≤ a ∧ a < rank) :
    (outerAxes (ns.map .int) rank ++ ns).Perm (upTo rank) := by
  have hu := nodup_upTo rank
  have hmem (a : Int) : a ∈ outerAxes (ns.map .int) rank ↔ a ∈ upTo rank ∧ a ∉ ns := by
    simp only [outerAxes, List.mem_filter, List.any_map, Bool.not_eq_true', List.any_eq_false,
      Function.comp_apply, Number.eq_int, beq_iff_eq]
    refine and_congr_right fun _ => ⟨fun h hn => h a hn rfl, ?_⟩
    rintro h x hx rfl
    exact h hx
  have hnd : (outerAxes (ns.map .int) rank ++ ns).Nodup := by
    refine List.nodup_append.mpr ⟨hu.filter _, hn, fun a ha b hb' hab => ?_⟩
    subst hab
    exact ((hmem a).mp ha).2 hb'
  refine (List.perm_ext_iff_of_nodup hnd hu).mpr fun a => ?_
  rw [List.mem_append, hmem]
  constructor
  · rintro (h | h)
    · exact h.1
    · exact mem_upTo.mpr (hb a h)
  · intro h
    by_cases ha : a ∈ ns
    · exact .inr ha
    · exact .inl ⟨h, ha⟩

end Enclose

namespace View

/-- The array is computed as a whole; no transform is on top of it. -/
def IsComputed (w : View Item) : Prop := ∃ f, w = View.computed f

@[simp] theorem shape_computed (f : Facts Item) : (View.computed f).shape = f.shape.get := rfl

@[simp] theorem generator_computed (f : Facts Item) :
    (View.computed f).generator = f.generator .now := rfl

@[simp] theorem etype_computed (f : Facts Item) : (View.computed f).etype = f.etype.get := rfl

@[simp] theorem prototype_computed (f : Facts Item) :
    (View.computed f).prototype = f.prototype .now := rfl

theorem rank_of_shape {v : View Item} {t : Shape} (h : v.shape = .ok (.ofShape t)) :
    v.rank = .ok (t.length : Int) := by
  simp [View.rank, h, bind, Except.bind, pure, Except.pure]

theorem rank_eq_of_shape {v w : View Item} {t : Shape} (hv : v.shape = .ok (.ofShape t))
    (hw : w.shape = .ok (.ofShape t)) : v.rank = w.rank :=
  (rank_of_shape hv).trans (rank_of_shape hw).symm

end View

namespace Enclose

/-- The extents and steps of the windows of some axes. -/
def dims (t : Shape) (inner : List Int) : List (Int × Int) :=
  (Shape.along t inner).zip (Shape.along t.strides inner)

/-- The first cell of the window at a position on the remaining axes. -/
def offset (t : Shape) (outer : List Int) (i : Int) : Int :=
  Shape.dot (Shape.coordinates (Shape.along t outer) i) (Shape.along t.strides outer)

theorem map_fst_dims (t : Shape) (inner : List Int) :
    (dims t inner).map Prod.fst = Shape.along t inner :=
  List.map_fst_zip (by simp [Shape.along])

theorem map_snd_dims (t : Shape) (inner : List Int) :
    (dims t inner).map Prod.snd = Shape.along t.strides inner :=
  List.map_snd_zip (by simp [Shape.along])

theorem zip_ofDims (xs ys : List Int) :
    (Extents.ofShape xs).zip (ys.map Number.int) = Link.ofDims (xs.zip ys) := by
  rw [Extents.ofShape, Link.ofDims, List.zip_map]
  rfl

theorem frames {t : Shape} {ns : List Int} (ht : t.IsProper) (hn : ns.Nodup)
    (hb : ∀ a ∈ ns, 0 ≤ a ∧ a < t.length) {i : Int}
    (hi : Shape.Holds (Shape.along t (outerAxes (ns.map .int) t.length)) i) :
    Link.Frames (offset t (outerAxes (ns.map .int) t.length) i) (dims t ns) t := by
  refine ⟨?_, fun c hc => ?_⟩
  · rw [map_fst_dims]
    exact ht.along ns
  · rw [map_fst_dims] at hc
    rw [map_snd_dims]
    exact Shape.holds_of_axes ht (perm_outerAxes hn hb)
      (Shape.coordinates_within (ht.along _) hi) hc

end Enclose

namespace Partition

def Lies (n : Int) (p : Int × Int) : Prop := 0 ≤ p.1 ∧ p.1 ≤ p.2 ∧ p.2 ≤ n

theorem lies_runsFrom {i previous n : Int} {start : Option Int} {ks : List Int}
    (hi : 0 ≤ i) (hs : ∀ s ∈ start, 0 ≤ s ∧ s ≤ i) (hn : i + ks.length ≤ n) :
    ∀ p ∈ runsFrom i start previous ks, Lies n p := by
  induction ks generalizing i previous start with
  | nil =>
      cases start with
      | none => simp [runsFrom]
      | some s =>
          have h := hs s rfl
          simp only [runsFrom, List.mem_singleton, forall_eq, Lies, List.length_nil] at hn ⊢
          omega
  | cons k ks ih =>
      rw [List.length_cons] at hn
      have hnew : ∀ s ∈ (some i), 0 ≤ s ∧ s ≤ i + 1 := by
        rintro s ⟨⟩
        omega
      have hrest (st : Option Int) (hst : ∀ s ∈ st, 0 ≤ s ∧ s ≤ i + 1) (q : Int) :
          ∀ p ∈ runsFrom (i + 1) st q ks, Lies n p :=
        ih (by omega) hst (by omega)
      cases start with
      | none =>
          simp only [runsFrom]
          split
          · exact hrest none (by simp) k
          · exact hrest (some i) hnew k
      | some s =>
          have h := hs s rfl
          have hold : Lies n (s, i) := by
            unfold Lies
            dsimp only
            omega
          simp only [runsFrom]
          split
          · exact List.forall_mem_cons.mpr ⟨hold, hrest none (by simp) k⟩
          · split
            · exact List.forall_mem_cons.mpr ⟨hold, hrest (some i) hnew k⟩
            · refine hrest (some s) ?_ k
              rintro x ⟨⟩
              omega

theorem starts_spec (i : Int) (ks : List Int) :
    (∀ p ∈ starts i ks, i ≤ p.1 ∧ p.1 < i + ks.length) ∧
      (starts i ks).Pairwise fun p q => p.1 < q.1 := by
  induction ks generalizing i with
  | nil => simp [starts]
  | cons k ks ih =>
      obtain ⟨hb, hp⟩ := ih (i + 1)
      have hb' : ∀ p ∈ starts (i + 1) ks, i ≤ p.1 ∧ p.1 < i + (k :: ks).length := by
        intro p h
        have h := hb p h
        rw [List.length_cons]
        omega
      simp only [starts]
      split
      · exact ⟨hb', hp⟩
      · constructor
        · refine List.forall_mem_cons.mpr ⟨?_, hb'⟩
          rw [List.length_cons]
          dsimp only
          omega
        · refine List.pairwise_cons.mpr ⟨fun p h => ?_, hp⟩
          have h := hb p h
          dsimp only
          omega

/-- From each start to the next one, or to the end; all but the last stretch at one start are
empty. -/
def stretches (n : Int) : List (Int × Int) → List (Int × Int)
  | [] => []
  | (i, k) :: rest =>
    let stop := match rest with
      | (j, _) :: _ => j
      | [] => n
    List.replicate (k - 1).toNat (i, i) ++ (i, stop) :: stretches n rest

/-- The stretches of an axis of `n` cells, of which so many begin at each cell. -/
def counted (n : Int) (counts : List Int) : List (Int × Int) := stretches n (starts 0 counts)

theorem spread_eq_ok {room : Room} {n : Int} {length : Nat} {l m : List (Int × Int)}
    (h : spread room n length l = .ok m) : m = stretches n l := by
  induction l generalizing length m with
  | nil => exact (Except.ok.inj h).symm
  | cons x rest ih =>
      obtain ⟨i, k⟩ := x
      obtain ⟨empty, hempty, h⟩ := bind_eq_ok.mp h
      obtain ⟨_, _, h⟩ := bind_eq_ok.mp h
      obtain ⟨later, hlater, h⟩ := bind_eq_ok.mp h
      obtain ⟨k', hk', hempty⟩ := bind_eq_ok.mp hempty
      cases hempty
      cases h
      rw [ih hlater, Room.times_spec hk']
      rfl

theorem lies_stretches {n : Int} {l : List (Int × Int)} (hb : ∀ p ∈ l, 0 ≤ p.1 ∧ p.1 ≤ n)
    (hp : l.Pairwise fun p q => p.1 < q.1) : ∀ p ∈ stretches n l, Lies n p := by
  induction l with
  | nil => simp [stretches]
  | cons x rest ih =>
      obtain ⟨i, k⟩ := x
      obtain ⟨hi, hb⟩ := List.forall_mem_cons.mp hb
      obtain ⟨hlt, hp⟩ := List.pairwise_cons.mp hp
      dsimp only at hi
      intro p h
      simp only [stretches, List.mem_append, List.mem_replicate, List.mem_cons] at h
      rcases h with ⟨_, rfl⟩ | rfl | h
      · exact ⟨hi.1, le_refl i, hi.2⟩
      · cases rest with
        | nil => exact ⟨hi.1, hi.2, le_refl n⟩
        | cons y rest =>
            have h1 := hlt y List.mem_cons_self
            have h2 := hb y List.mem_cons_self
            unfold Lies
            dsimp only at h1 ⊢
            omega
      · exact ih hb hp p h

theorem endingAt_int {n : Int} {l : List (Int × Int)} (h : ∀ p ∈ l, Lies n p) :
    ∃ m : List (Int × Int), endingAt (.int n) l = m.map (fun (i, j) => (i, .int j)) ∧
      ∀ p ∈ m, Lies n p := by
  induction l with
  | nil => exact ⟨[], rfl, by simp⟩
  | cons x rest ih =>
      obtain ⟨hx, hr⟩ := List.forall_mem_cons.mp h
      obtain ⟨m, hm, hl⟩ := ih hr
      cases rest with
      | nil =>
          obtain ⟨h0, h1, h2⟩ := hx
          refine ⟨[(x.1, n)], rfl, ?_⟩
          simp only [List.mem_singleton, forall_eq, Lies]
          omega
      | cons y rest =>
          refine ⟨x :: m, ?_, List.forall_mem_cons.mpr ⟨hx, hl⟩⟩
          rw [List.map_cons, ← hm]
          rfl

/-- The stretches that the marks of `n` cells describe. -/
def described (style : Style) (n : Int) (marks : List Int) : List (Int × Number) :=
  match style with
  | .keys => (runs marks).map fun (i, j) => (i, .int j)
  | .counts => endingAt (.int n) (counted n marks)

theorem segments_eq_ok [Platform] {style : Style} {n : Int} {isScalar : Bool} {given : List Int}
    {segments : List (Int × Number)}
    (h : style.segments (.int n) isScalar given = .ok segments) :
    ∃ marks : List Int, (marks.length : Int) = n ∧ segments = described style n marks := by
  have hm : ∃ marks, style.segments (.int n) false marks = .ok segments := by
    simp only [Style.segments] at h
    split at h
    · obtain ⟨_, _, h⟩ := bind_eq_ok.mp h
      obtain ⟨marks, _, h⟩ := bind_eq_ok.mp h
      exact ⟨marks, h⟩
    · exact ⟨given, h⟩
  obtain ⟨marks, h⟩ := hm
  refine ⟨marks, ?_⟩
  cases style with
  | keys =>
      simp only [Style.segments, Bool.false_eq_true, ite_false, pure_bind, Number.eq_int,
        Bool.not_eq_true', beq_eq_false_iff_ne] at h
      split at h
      · cases h
      · rename_i hn
        split at h
        · cases h
        · cases h
          exact ⟨not_not.mp hn, rfl⟩
  | counts =>
      simp only [Style.segments, Bool.false_eq_true, ite_false, pure_bind, Number.eq_int,
        Bool.not_eq_true', beq_eq_false_iff_ne] at h
      split at h
      · cases h
      · rename_i hn
        split at h
        · cases h
        · obtain ⟨l, hl, h⟩ := bind_eq_ok.mp h
          cases h
          refine ⟨not_not.mp hn, ?_⟩
          rw [spread_eq_ok hl, not_not.mp hn]
          rfl

theorem segments_spec [Platform] {style : Style} {n : Int} {isScalar : Bool} {given : List Int}
    {segments : List (Int × Number)}
    (h : style.segments (.int n) isScalar given = .ok segments) :
    ∃ l : List (Int × Int), segments = l.map (fun (i, j) => (i, .int j)) ∧ ∀ p ∈ l, Lies n p := by
  obtain ⟨marks, rfl, rfl⟩ := segments_eq_ok h
  cases style with
  | keys => exact ⟨runs marks, rfl, lies_runsFrom (le_refl 0) (by simp) (by simp)⟩
  | counts =>
      obtain ⟨hb, hp⟩ := starts_spec 0 marks
      refine endingAt_int (lies_stretches (fun p h => ?_) hp)
      have h := hb p h
      omega

theorem dot_set {c f : List Int} {k : Nat} (hk : k < c.length) (x y : Int) :
    Shape.dot (c.set k x) f + y * f.getD k 0 = Shape.dot (c.set k (x + y)) f := by
  induction c generalizing k f with
  | nil => simp at hk
  | cons z c ih =>
      cases f with
      | nil => cases k <;> simp [Shape.dot]
      | cons g f =>
          cases k with
          | zero =>
              simp only [List.set_cons_zero, Shape.dot, List.getD_cons_zero]
              ring
          | succ k =>
              have h := ih (k := k) (f := f) (by simpa using hk)
              simp only [List.set_cons_succ, Shape.dot, List.getD_cons_succ]
              omega

/-- The first cell of a stretch, in the line through a cell of the result. -/
def offset (t : Shape) (a : Nat) (c : List Int) (p : Int × Int) : Int :=
  Shape.dot (c.set a p.1) t.strides

def dims (t : Shape) (a : Nat) (p : Int × Int) : List (Int × Int) :=
  [(p.2 - p.1, t.strides.getD a 0)]

theorem frames {t : Shape} {a : Nat} {n m : Int} {c : List Int} {p : Int × Int}
    (ha : t[a]? = some n) (hc : Shape.Within (t.set a m) c) (hp : Lies n p) :
    Link.Frames (offset t a c p) (dims t a p) t := by
  obtain ⟨h0, h1, h2⟩ := hp
  constructor
  · simp [dims, Shape.IsProper, h1]
  · intro d hd
    simp only [dims, List.map_cons, List.map_nil] at hd ⊢
    obtain ⟨x, d, rfl⟩ : ∃ x d', d = x :: d' := by
      cases hd
      exact ⟨_, _, rfl⟩
    obtain ⟨hx, hd⟩ := Shape.within_cons.mp hd
    cases hd
    obtain ⟨hal, hget⟩ := List.getElem?_eq_some_iff.mp ha
    have hcl : a < c.length := by
      rw [hc.length_eq, List.length_set]
      exact hal
    have hw := hc.set (n := n) a (x := p.1 + x) (by omega)
    rw [List.set_set, ← hget, List.set_getElem_self hal] at hw
    have h := hw.holds
    rw [← dot_set hcl p.1 x] at h
    simpa [offset, Shape.dot] using h

theorem item_at {t : Shape} {a : Nat} {n : Int} {l : List (Int × Int)} {c : List Int}
    (ha : t[a]? = some n) (hc : Shape.Within (t.set a l.length) c) :
    ∃ p, l[(c.getD a 0).toNat]? = some p ∧ ∀ v : View Item,
      item v (.ofShape t) a (l.map fun (i, j) => (i, .int j)) (.ofShape (t.set a l.length))
          (.int (Shape.dot c (Shape.strides (t.set a l.length)))) =
        .ok (.view (v.under (.window (.int (offset t a c p)) (Link.ofDims (dims t a p))))) := by
  obtain ⟨hal, _⟩ := List.getElem?_eq_some_iff.mp ha
  have hget : (t.set a l.length)[a]? = some (l.length : Int) := by simp [hal]
  obtain ⟨x, hx, hp, h0, h1⟩ := pickAt_within hc hget
  have hlt : x.toNat < l.length := by omega
  refine ⟨l[x.toNat], ?_, fun v => ?_⟩
  · rw [List.getD_eq_getElem?_getD, hx, Option.getD_some, List.getElem?_eq_getElem hlt]
  · have hpick : pickAt (l.map fun (i, j) => (i, Number.int j)) x =
        .ok (l[x.toNat].1, .int l[x.toNat].2) := by
      rw [pickAt_ok h0]
      simp [hlt]
    simp only [item, Extents.strides_ofShape, Extents.coordinates_ofShape,
      Shape.coordinates_dot hc, hp, pickBy_int, hpick, bind, Except.bind, pure, Except.pure,
      Number.sub_int, replaced, Int.toNat_natCast, ← List.map_set, Extents.dot_map]
    simp [offset, dims, Link.ofDims, Number.scalar, List.getD_eq_getElem?_getD]

/-- The item at a position is the window of one of the stretches. -/
theorem item_eq {t : Shape} {a : Nat} {n : Int} {l : List (Int × Int)} {i : Int}
    (ht : t.IsProper) (ha : t[a]? = some n)
    (hi : Shape.Holds (t.set a l.length) i) :
    ∃ p ∈ l, ∀ v : View Item, item v (.ofShape t) a (l.map fun (i, j) => (i, .int j))
        (.ofShape (t.set a l.length)) (.int i) = .ok (.view (v.under (.window
          (.int (offset t a (Shape.coordinates (t.set a l.length) i) p))
          (Link.ofDims (dims t a p))))) := by
  have hproper := ht.set (Int.natCast_nonneg l.length) a
  obtain ⟨p, hp, hitem⟩ := item_at ha (Shape.coordinates_within hproper hi)
  rw [Shape.dot_coordinates hproper hi] at hitem
  exact ⟨p, List.mem_of_getElem? hp, hitem⟩

end Partition

namespace Item

variable {v : View Item} {t : Shape} {origin : Origin} {o : Int}

/-- An array of enclosed axes has the remaining axes. Its items are windows of the enclosed axes,
or the cells themselves where no axis is enclosed. -/
theorem encloseAxes_eq (name : String) {as ns : List Int} (hv : v.shape = .ok (.ofShape t))
    (hn : Enclose.innerAxes as (.ok t.length) origin = .ok (ns.map .int)) :
    (encloseAxes name v as origin).shape =
      .ok (.ofShape (Shape.along t (Enclose.outerAxes (ns.map .int) t.length))) ∧
    ∃ f, (encloseAxes name v as origin).generator = .ok (.indexed f) ∧
      ∀ i : Int, f (.int i) =
        if ns = [] then (do
          (← v.generator).cell
            (.int (Enclose.offset t (Enclose.outerAxes (ns.map .int) t.length) i)))
        else .ok (.view (v.under (.window
          (.int (Enclose.offset t (Enclose.outerAxes (ns.map .int) t.length) i))
          (Link.ofDims (Enclose.dims t ns))))) := by
  have hrank := View.rank_of_shape hv
  have houter : (do
      let rank ← v.rank
      if rank = 0 then return []
      else return Enclose.outerAxes (← Enclose.innerAxes as v.rank origin) rank) =
        Except.ok (Enclose.outerAxes (ns.map .int) t.length) := by
    rw [hrank]
    simp only [hn, bind, Except.bind, pure, Except.pure]
    split
    · rename_i h0
      simp [h0, Enclose.outerAxes, upTo]
    · rfl
  have hinner : (do (← Enclose.innerAxes as v.rank origin).mapM Number.index) = Except.ok ns := by
    rw [hrank, hn]
    exact Number.mapM_index ns
  have hstr : Enclose.along (t.strides.map Number.int) =
      fun axes => (Shape.along t.strides axes).map Number.int :=
    funext fun axes => Enclose.along_ofShape t.strides axes
  refine ⟨?_, ?_⟩
  · simp only [encloseAxes, View.shape_computed, Lazy.get_keep, hv, houter]
    simp only [bind, Except.bind, pure, Except.pure, Enclose.along_ofShape]
  · simp only [encloseAxes, View.generator_computed, Lazy.get_keep, Lazy.get_delay, hv, houter,
      hinner]
    simp only [bind, Except.bind, pure, Except.pure, Enclose.along_ofShape, Extents.strides_ofShape,
      hstr]
    refine ⟨_, rfl, fun i => ?_⟩
    simp only [Extents.coordinates_ofShape, Extents.dot_map, Enclose.zip_ofDims]
    by_cases h : ns = []
    · simp [h, Shape.along, Link.ofDims, Enclose.offset]
    · have hd : (Link.ofDims (Enclose.dims t ns)).isEmpty = false := by
        cases ns with
        | nil => exact absurd rfl h
        | cons n ns => rfl
      simp only [Enclose.dims] at hd ⊢
      simp [h, hd, Enclose.offset, Number.scalar]

theorem etype_encloseAxes (name : String) {as ns : List Int} (hv : v.shape = .ok (.ofShape t))
    (hn : Enclose.innerAxes as (.ok t.length) origin = .ok (ns.map .int)) :
    (encloseAxes name v as origin).etype = if ns = [] then v.etype else .ok EType.mixed := by
  simp only [encloseAxes, View.etype_computed, Lazy.get_delay, Lazy.get_keep, View.rank_of_shape hv,
    hn, bind, Except.bind]
  cases ns with
  | nil => simp
  | cons n ns => simp [pure, Except.pure]

theorem prototype_encloseAxes (name : String) {as : List Int} (hv : v.shape = .ok (.ofShape t))
    (hn : Enclose.innerAxes as (.ok t.length) origin = .ok []) :
    (encloseAxes name v as origin).prototype = v.prototype := by
  simp only [encloseAxes, View.prototype_computed, Lazy.get_delay, Lazy.get_keep,
    View.rank_of_shape hv, hn, bind, Except.bind, List.mapM_nil, pure, Except.pure]
  rfl

/-- Splitting an array with axes encloses the one axis that is given. Which one it is depends on the
array only by its rank. -/
theorem split_eq_ok {axis : Option Item} {w : View Item} (hr : v.rank ≠ .ok 0)
    (h : split (.view v) axis origin = .ok w) :
    ∃ a as, (list [a]).asInts "axis" = .ok as ∧ w = encloseAxes "Split" v as origin ∧
      ∀ v' : View Item, v'.rank = v.rank →
        split (.view v') axis origin = .ok (encloseAxes "Split" v' as origin) := by
  obtain ⟨rank, hk, h⟩ := bind_eq_ok.mp h
  have hne : rank ≠ 0 := by
    rintro rfl
    exact hr hk
  cases axis with
  | some a =>
      simp only [if_neg hne] at h
      obtain ⟨_, hp, h⟩ := bind_eq_ok.mp h
      cases hp
      obtain ⟨as, ha, h⟩ := bind_eq_ok.mp h
      cases h
      refine ⟨a, as, ha, rfl, fun v' hv => ?_⟩
      have hk' : (view v').lift.rank = .ok rank := hv.trans hk
      simp only [split, hk', ha, if_neg hne, bind, Except.bind, pure, Except.pure]
      rfl
  | none =>
      simp only [if_neg hne] at h
      obtain ⟨o, ho, h⟩ := bind_eq_ok.mp h
      obtain ⟨_, hp, h⟩ := bind_eq_ok.mp h
      cases hp
      obtain ⟨as, ha, h⟩ := bind_eq_ok.mp h
      cases h
      refine ⟨_, as, ha, rfl, fun v' hv => ?_⟩
      have hk' : (view v').lift.rank = .ok rank := hv.trans hk
      simp only [split, hk', ho, ha, if_neg hne, bind, Except.bind, pure, Except.pure]
      rfl

/-- Splitting a scalar encloses it as a whole. -/
theorem split_of_scalar {axis : Option Item} {w : View Item} (hr : v.rank = .ok 0)
    (h : split (.view v) axis origin = .ok w) :
    w = encloseWhole "Split" v origin ∧ ∀ v' : View Item, v'.rank = .ok 0 →
      split (.view v') axis origin = .ok (encloseWhole "Split" v' origin) := by
  obtain ⟨rank, hk, h⟩ := bind_eq_ok.mp h
  obtain rfl : rank = 0 := Except.ok.inj (hk.symm.trans hr)
  have hv' (v' : View Item) (hv : v'.rank = .ok 0) : (view v').lift.rank = .ok 0 := hv
  cases axis with
  | some a =>
      simp only [if_true] at h
      obtain ⟨_, _, h⟩ := bind_eq_ok.mp h
      cases h
      refine ⟨rfl, fun v' hv => ?_⟩
      simp only [split, hv' v' hv, if_true, bind, Except.bind, pure, Except.pure]
      rfl
  | none =>
      simp only [if_true] at h
      obtain ⟨o, ho, h⟩ := bind_eq_ok.mp h
      obtain ⟨_, _, h⟩ := bind_eq_ok.mp h
      cases h
      refine ⟨rfl, fun v' hv => ?_⟩
      simp only [split, hv' v' hv, ho, if_true, bind, Except.bind, pure, Except.pure]
      rfl

theorem innerAxes_of_generator {name : String} {as : List Int} {g : Gen Item}
    (h : (encloseAxes name v as origin).generator = .ok g) :
    ∃ xs, Enclose.innerAxes as v.rank origin = .ok xs := by
  rw [encloseAxes, View.generator_computed] at h
  obtain ⟨_, _, h⟩ := bind_eq_ok.mp h
  obtain ⟨_, _, h⟩ := bind_eq_ok.mp h
  obtain ⟨_, _, h⟩ := bind_eq_ok.mp h
  obtain ⟨_, hi, _⟩ := bind_eq_ok.mp h
  obtain ⟨xs, hx, _⟩ := bind_eq_ok.mp hi
  exact ⟨xs, hx⟩

/-- The shape of an array with axes is known only if the axes to enclose are accepted. -/
theorem innerAxes_of_shape {name : String} {as : List Int} {e : Extents} (hr : v.rank ≠ .ok 0)
    (h : (encloseAxes name v as origin).shape = .ok e) :
    ∃ xs, Enclose.innerAxes as v.rank origin = .ok xs := by
  rw [encloseAxes, View.shape_computed, Lazy.get_keep] at h
  obtain ⟨_, _, h⟩ := bind_eq_ok.mp h
  obtain ⟨_, ho, _⟩ := bind_eq_ok.mp h
  rw [Lazy.get_keep] at ho
  obtain ⟨rank, hk, ho⟩ := bind_eq_ok.mp ho
  split at ho
  · rename_i h0
    rw [h0] at hk
    exact absurd hk hr
  · obtain ⟨xs, hx, _⟩ := bind_eq_ok.mp ho
    exact ⟨xs, hx⟩

/-- What it takes to partition an array of shape `t`: keys, a place on an axis, and stretches. None
of this depends on more of the array than its shape. -/
structure Parts [Platform] (style : Partition.Style) (keys : Item) (axis : Option Item)
    (origin : Origin) (t : Shape) (a : Nat) (n : Int) (l : List (Int × Int)) : Prop where
  extent : t[a]? = some n
  lies : ∀ p ∈ l, Partition.Lies n p
  place : (match axisArgument axis with
    | none => .ok (.int (t.length - 1))
    | some x => x.located t.length origin) = Except.ok (Number.int a)
  segments : ∃ marks given rank, flat keys .partitionKeys = .ok marks ∧
    marks.asInts style.role = .ok given ∧ marks.rankOf = .ok rank ∧
      style.segments (.int n) (rank = 0) given = .ok (l.map fun (i, j) => (i, .int j))

variable [Platform] {style : Partition.Style} {keys : Item} {axis : Option Item} {a : Nat} {n : Int}
  {l : List (Int × Int)}

/-- A partition is made whatever its stretches are. Its shape and its cells are those of the
stretches, if there are any. -/
theorem exists_partition_of_marks {marks : Item} {given : List Int} {rank : Int}
    (hv : v.shape = .ok (.ofShape t)) (ha : t[a]? = some n)
    (hp : (match axisArgument axis with
      | none => .ok (.int (t.length - 1))
      | some x => x.located t.length origin) = Except.ok (Number.int a))
    (hm : flat keys .partitionKeys = .ok marks) (hg : marks.asInts style.role = .ok given)
    (hr : marks.rankOf = .ok rank) :
    ∃ w, partition style (.view v) keys axis origin = .ok w ∧ w.IsComputed ∧
      w.etype = .ok EType.mixed ∧
      w.shape = (style.segments (.int n) (rank = 0) given >>= fun l =>
        .ok (replaced (Extents.ofShape t) a l.length)) ∧
      w.generator = (style.segments (.int n) (rank = 0) given >>= fun l =>
        .ok (.indexed (Partition.item v (.ofShape t) a l
          (replaced (Extents.ofShape t) a l.length)))) := by
  have hv' : (view v).based.shape = .ok (.ofShape t) := hv
  have hrank : (view v).based.rank = .ok (t.length : Int) := View.rank_of_shape hv
  have hne : (t.length : Int) ≠ 0 := by
    have hl := (List.getElem?_eq_some_iff.mp ha).1
    omega
  have hpick : pickAt (Extents.ofShape t) a = .ok (.int n) := pickAt_ofShape ha
  simp only [partition, hm, hrank, if_neg hne, bind, Except.bind, pure, Except.pure]
  refine ⟨_, rfl, ⟨_, rfl⟩, rfl, ?_, ?_⟩
  all_goals
    cases hx : axisArgument axis <;> rw [hx] at hp <;>
      simp only [View.shape_computed, View.generator_computed, Lazy.get_keep, Lazy.get_delay, hv',
        hp, hpick, hg, hr, Number.index_int] <;>
      cases style.segments (.int n) (rank = 0) given <;> rfl

/-- An array of the right shape can be partitioned. -/
theorem Parts.partition_eq (h : Parts style keys axis origin t a n l)
    (hv : v.shape = .ok (.ofShape t)) :
    ∃ w, partition style (.view v) keys axis origin = .ok w ∧ w.IsComputed ∧
      w.etype = .ok EType.mixed ∧ w.shape = .ok (.ofShape (t.set a l.length)) ∧
      w.generator = .ok (.indexed (Partition.item v (.ofShape t) a
        (l.map fun (i, j) => (i, .int j)) (.ofShape (t.set a l.length)))) := by
  obtain ⟨ha, _, hp, marks, given, rank, hm, hg, hr, hs⟩ := h
  obtain ⟨w, hw, hcomputed, hetype, hshape, hgen⟩ :=
    exists_partition_of_marks hv ha hp hm hg hr
  have hset : Extents.ofShape (t.set a l.length) = replaced (Extents.ofShape t) a
      (((l.map fun (i, j) => (i, Number.int j)).length : Nat) : Number) := by
    simp [replaced, Extents.ofShape, List.map_set]
  rw [hs] at hshape hgen
  rw [hset]
  exact ⟨w, hw, hcomputed, hetype, hshape, hgen⟩

/-- An array that has been partitioned and has a shape has parts. -/
theorem exists_parts {w : View Item} {e : Extents} (hv : v.shape = .ok (.ofShape t))
    (h : partition style (.view v) keys axis origin = .ok w) (hs : w.shape = .ok e) :
    ∃ (a : Nat) (n : Int) (l : List (Int × Int)), Parts style keys axis origin t a n l := by
  have hrank := View.rank_of_shape hv
  obtain ⟨marks, hm, h⟩ := bind_eq_ok.mp h
  obtain ⟨rank, hr, h⟩ := bind_eq_ok.mp h
  rw [show (view v).based = v from rfl, hrank] at hr
  cases hr
  split at h
  · cases h
  · rename_i hne
    cases h
    rw [View.shape_computed, Lazy.get_keep] at hs
    obtain ⟨s, _, hs⟩ := bind_eq_ok.mp hs
    obtain ⟨k, hk, hs⟩ := bind_eq_ok.mp hs
    obtain ⟨segments, hseg, _⟩ := bind_eq_ok.mp hs
    obtain ⟨x, hx, hi⟩ := bind_eq_ok.mp hk
    obtain rfl := Number.index_eq_ok.mp hi
    obtain ⟨rank, hr, hx⟩ := bind_eq_ok.mp hx
    rw [show (view v).based = v from rfl, hrank] at hr
    cases hr
    have hb : 0 ≤ k ∧ k < t.length := by
      split at hx
      · cases hx
        omega
      · exact AxisArgument.located_int hx
    obtain ⟨a, rfl⟩ := Int.eq_ofNat_of_zero_le hb.1
    have ha : t[a]? = some t[a] := List.getElem?_eq_getElem (by omega)
    obtain ⟨s', h1, hseg⟩ := bind_eq_ok.mp hseg
    obtain ⟨k', hk', hseg⟩ := bind_eq_ok.mp hseg
    obtain ⟨n, hn, hseg⟩ := bind_eq_ok.mp hseg
    obtain ⟨given, hg, hseg⟩ := bind_eq_ok.mp hseg
    obtain ⟨r, hr, hseg⟩ := bind_eq_ok.mp hseg
    rw [show (view v).based = v from rfl, hv] at h1
    cases h1
    rw [hk] at hk'
    cases hk'
    rw [pickAt_ok hb.1] at hn
    obtain rfl : n = .int t[a] := by simpa [Extents.ofShape, ha] using hn.symm
    obtain ⟨l, rfl, hl⟩ := Partition.segments_spec hseg
    exact ⟨a, t[a], l, ha, hl, hx, marks, given, r, hm, hg, hr, hseg⟩

end Item
end LazyApl
