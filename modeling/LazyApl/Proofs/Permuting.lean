import LazyApl.Proofs.Mirroring
import LazyApl.Proofs.Transposing
/-!
# Transposes of transposes

A transpose is told for each axis of its source which axis of the result it goes to, and several
axes may go to one, along their diagonal. A transpose of a transpose sends each axis to where the
second one sends the axis that the first one sends it to: the least extents of groups of axes are
the least ones of all axes that end up together, and coordinates that are read through both lists
are read through their composition.
-/
namespace LazyApl

open Outcome

theorem nodup_eraseDups {α : Type} [BEq α] [LawfulBEq α] : ∀ xs : List α, xs.eraseDups.Nodup
  | [] => by simp
  | x :: xs => by
      rw [List.eraseDups_cons, List.nodup_cons, List.mem_eraseDups]
      exact ⟨by simp, nodup_eraseDups _⟩
termination_by xs => xs.length
decreasing_by exact Nat.lt_succ_of_le (List.length_filter_le _ _)

namespace Transpose

variable {ts us : List Int} {t : Shape} {m : Nat}

theorem Covers.length_eraseDups (h : Covers ts m) : ts.eraseDups.length = m := by
  have hperm : ts.eraseDups.Perm (upTo m) := by
    refine (List.perm_ext_iff_of_nodup (nodup_eraseDups ts) (nodup_upTo _)).mpr fun b => ?_
    rw [List.mem_eraseDups, h b, mem_upTo]
  simpa using hperm.length_eq

theorem covers_reverse (n : Nat) : Covers (upTo n).reverse n := by
  intro b
  rw [List.mem_reverse, mem_upTo]

theorem exists_covers {axes : Option (List Number)} (h : targets axes (.ofShape t) = .ok ts) :
    ∃ m, Covers ts m := by
  cases axes with
  | none =>
      obtain rfl := Except.ok.inj h
      rw [Extents.length_ofShape]
      exact ⟨_, covers_reverse _⟩
  | some axes =>
      rw [targets] at h
      split at h
      · cases h
      · obtain ⟨whole, _, h⟩ := bind_eq_ok.mp h
        split at h
        · obtain rfl := Except.ok.inj h
          exact covers_iff.mp ‹_›
        · cases h

theorem eq_of_targets {source : Extents} (h : targets (some (ts.map .int)) source = .ok us) :
    us = ts := by
  rw [targets, Number.mapM_index] at h
  split at h
  · cases h
  · obtain ⟨_, hts, h⟩ := bind_eq_ok.mp h
    obtain rfl := Except.ok.inj hts
    split at h
    · exact (Except.ok.inj h).symm
    · cases h

theorem Covers.along (hp : Covers ts us.length) (hq : Covers us m) :
    Covers (Shape.along us ts) m := by
  intro b
  rw [← hq b, Shape.along, List.mem_map]
  constructor
  · rintro ⟨a, ha, rfl⟩
    have hlt : a.toNat < us.length := by
      have := (hp a).mp ha
      omega
    simp [List.getD_eq_getElem?_getD, hlt]
  · intro hb
    obtain ⟨i, hi, rfl⟩ := List.mem_iff_getElem.mp hb
    exact ⟨i, (hp i).mpr (by omega), by simp [List.getD_eq_getElem?_getD, hi]⟩

theorem along_along (hp : ∀ a ∈ ts, 0 ≤ a ∧ a < us.length) (c : List Int) :
    Shape.along (Shape.along c us) ts = Shape.along c (Shape.along us ts) := by
  simp only [Shape.along, List.map_map]
  refine List.map_congr_left fun a ha => ?_
  have hlt : a.toNat < us.length := by
    have := hp a ha
    omega
  simp [List.getD_eq_getElem?_getD, hlt]

theorem mem_zip_iff {xs : List Int} {b n : Int} :
    (b, n) ∈ xs.zip t ↔ ∃ i : Nat, xs[i]? = some b ∧ t[i]? = some n := by
  rw [List.mem_iff_getElem?]
  simp only [List.getElem?_zip_eq_some]

theorem turnedShape_eq (h : Covers ts m) : turnedShape ts t = (upTo m).map (leastExtent ts t) := by
  rw [turnedShape, h.length_eraseDups]

theorem length_turnedShape (h : Covers ts m) : (turnedShape ts t).length = m := by
  simp [turnedShape_eq h]

theorem getElem?_turnedShape (h : Covers ts m) {b : Int} (hb : 0 ≤ b ∧ b < m) :
    (turnedShape ts t)[b.toNat]? = some (leastExtent ts t b) := by
  have hlt : b.toNat < m := by omega
  simp [turnedShape_eq h, upTo, hlt, Int.toNat_of_nonneg hb.1]

/-- The axes that a second list sends to an axis have as extents the least ones of the axes that the
first list sends to them. -/
theorem mem_zip_turnedShape (hp : Covers ts us.length) {b n : Int} :
    (b, n) ∈ us.zip (turnedShape ts t) ↔
      ∃ a ∈ ts, us.getD a.toNat 0 = b ∧ leastExtent ts t a = n := by
  rw [mem_zip_iff]
  constructor
  · rintro ⟨j, hb, hn⟩
    obtain ⟨hlt, rfl⟩ := List.getElem?_eq_some_iff.mp hb
    have hj : (0 : Int) ≤ j ∧ (j : Int) < us.length := by omega
    have hextent := getElem?_turnedShape (t := t) hp hj
    rw [Int.toNat_natCast, hn] at hextent
    refine ⟨j, (hp j).mpr hj, ?_, (Option.some.inj hextent).symm⟩
    simp [List.getD_eq_getElem?_getD, hlt]
  · rintro ⟨a, ha, rfl, rfl⟩
    have ha := (hp a).mp ha
    have hlt : a.toNat < us.length := by omega
    refine ⟨a.toNat, ?_, getElem?_turnedShape hp ha⟩
    simp [List.getD_eq_getElem?_getD, hlt]

/-- The composed list sends an axis to where the second one sends the axis that the first one sends
it to. -/
theorem mem_zip_along {b n : Int} :
    (b, n) ∈ (Shape.along us ts).zip t ↔
      ∃ a, (a, n) ∈ ts.zip t ∧ us.getD a.toNat 0 = b := by
  simp only [mem_zip_iff, Shape.along, List.getElem?_map, Option.map_eq_some_iff]
  constructor
  · rintro ⟨i, ⟨a, ha, rfl⟩, hn⟩
    exact ⟨a, ⟨i, ha, hn⟩, rfl⟩
  · rintro ⟨a, ⟨i, ha, hn⟩, rfl⟩
    exact ⟨i, ⟨a, ha, rfl⟩, hn⟩

theorem exists_mem_zip (hl : ts.length = t.length) {a : Int} (ha : a ∈ ts) :
    ∃ n, (a, n) ∈ ts.zip t := by
  obtain ⟨i, hi, rfl⟩ := List.mem_iff_getElem.mp ha
  exact ⟨t[i], mem_zip_iff.mpr ⟨i, List.getElem?_eq_getElem hi, List.getElem?_eq_getElem _⟩⟩

theorem leastExtent_along (hl : ts.length = t.length) (hp : Covers ts us.length) {a : Int}
    (ha : a ∈ ts) : leastExtent us (turnedShape ts t) (us.getD a.toNat 0) =
      leastExtent (Shape.along us ts) t (us.getD a.toNat 0) := by
  have hgroup : (us.getD a.toNat 0, leastExtent ts t a) ∈ us.zip (turnedShape ts t) :=
    (mem_zip_turnedShape hp).mpr ⟨a, ha, rfl, rfl⟩
  obtain ⟨hmem, hle⟩ := isLeast_leastExtent hgroup
  have hall : IsLeast {n | (us.getD a.toNat 0, n) ∈ (Shape.along us ts).zip t}
      (leastExtent us (turnedShape ts t) (us.getD a.toNat 0)) := by
    refine ⟨mem_zip_along.mpr ?_, fun n hn => ?_⟩
    · obtain ⟨a', ha', hto, hleast⟩ := (mem_zip_turnedShape hp).mp hmem
      obtain ⟨n, hn⟩ := exists_mem_zip hl ha'
      exact ⟨a', hleast ▸ (isLeast_leastExtent hn).1, hto⟩
    · obtain ⟨a', hn, hto⟩ := mem_zip_along.mp hn
      have hown := (mem_zip_turnedShape (t := t) hp).mpr
        ⟨a', (List.of_mem_zip hn).1, hto, rfl⟩
      exact (hle hown).trans ((isLeast_leastExtent hn).2 hn)
  exact hall.unique (isLeast_leastExtent hall.1)

/-- Of two transposes that are accepted one after the other, the first one names the axes that the
second one takes. -/
theorem covers_of_targets {axes axes' : Option (List Number)}
    (hts : targets axes (.ofShape t) = .ok ts)
    (hus : targets axes' (.ofShape (turnedShape ts t)) = .ok us) :
    Covers ts us.length := by
  obtain ⟨m, hm⟩ := exists_covers hts
  have hl := (targets_spec hus).1
  rw [Extents.length_ofShape, length_turnedShape hm] at hl
  rwa [hl]

theorem turnedShape_turnedShape (hl : ts.length = t.length) (hp : Covers ts us.length)
    (hq : Covers us m) :
    turnedShape us (turnedShape ts t) = turnedShape (Shape.along us ts) t := by
  rw [turnedShape_eq hq, turnedShape_eq (hp.along hq)]
  refine List.map_congr_left fun b hb => ?_
  obtain ⟨a, ha, rfl⟩ := List.mem_map.mp ((hp.along hq b).mpr (mem_upTo.mp hb))
  exact leastExtent_along hl hp ha

theorem turnedShape_upTo (t : Shape) : turnedShape (upTo t.length) t = t := by
  have hplaces : places (upTo t.length) = upTo t.length := by
    have hself := map_idxOf (nodup_upTo t.length)
    rw [length_upTo, Int.toNat_natCast] at hself
    rw [places, length_upTo, Int.toNat_natCast, hself]
  have hshape := turnedShape_places (List.Perm.refl (upTo t.length))
  rwa [hplaces, Shape.along_upTo rfl] at hshape

theorem getElem?_reverse_upTo {n i : Nat} (hi : i < n) :
    (upTo n).reverse[i]? = some ((n - 1 - i : Nat) : Int) := by
  have hlt : n - 1 - i < n := by omega
  rw [List.getElem?_reverse (by simpa using hi)]
  simp [upTo, hlt]

theorem along_reverse (n : Nat) : Shape.along (upTo n).reverse (upTo n).reverse = upTo n := by
  refine List.ext_getElem? fun i => ?_
  by_cases hi : i < n
  · have hback : n - 1 - (n - 1 - i) = i := by omega
    rw [Shape.along, List.getElem?_map, getElem?_reverse_upTo hi, Option.map_some,
      Int.toNat_natCast, List.getD_eq_getElem?_getD, getElem?_reverse_upTo (by omega), hback]
    simp [upTo, hi]
  · rw [List.getElem?_eq_none (by simpa [Shape.along] using hi),
      List.getElem?_eq_none (by simpa using hi)]

theorem covers_of_perm (h : ts.Perm (upTo m)) : Covers ts m := by
  intro b
  rw [h.mem_iff, mem_upTo]

theorem perm_of_along (hp : Covers ts m) (hl : us.length = m)
    (h : Shape.along us ts = upTo m) : us.Perm (upTo m) := by
  have hsub : upTo m ⊆ us := by
    intro b hb
    rw [← h, Shape.along, List.mem_map] at hb
    obtain ⟨a, ha, rfl⟩ := hb
    have hlt : a.toNat < us.length := by
      have := (hp a).mp ha
      omega
    simp [List.getD_eq_getElem?_getD, hlt]
  have hperm := (List.subperm_of_subset (nodup_upTo m) hsub).perm_of_length_le
    (by simpa using hl.le)
  exact hperm.symm

variable {o : Int} {ps qs : List Int}

/-- Where axes that are counted from an origin go, through one list and then through another. -/
def composed (o : Int) (ps qs : List Int) : List Int := ps.map fun p => qs.getD (p - o).toNat 0

/-- The first list has all of some axes in any order, and the second one leads each of them back. -/
structure AreInverse (o : Int) (n : Nat) (ps qs : List Int) : Prop where
  perm : ps.Perm ((upTo n).map (· + o))
  length_eq : qs.length = n
  composed_eq : composed o ps qs = (upTo n).map (· + o)

theorem along_stripped (h : Covers (ps.map (· - o)) qs.length) :
    Shape.along (qs.map (· - o)) (ps.map (· - o)) = (composed o ps qs).map (· - o) := by
  simp only [Shape.along, composed, List.map_map]
  refine List.map_congr_left fun p hp => ?_
  have hb := (h (p - o)).mp (List.mem_map.mpr ⟨p, hp, rfl⟩)
  have hlt : (p - o).toNat < qs.length := by omega
  simp [List.getD_eq_getElem?_getD, hlt]

theorem map_sub_upTo (o : Int) (n : Nat) : ((upTo n).map (· + o)).map (· - o) = upTo n := by
  simp [Function.comp_def]

/-- Counted from zero, lists that are inverse name all axes, and lead each of them to itself. -/
theorem AreInverse.stripped {n : Nat} (h : AreInverse o n ps qs) :
    Covers (ps.map (· - o)) n ∧ Covers (qs.map (· - o)) n ∧
      Shape.along (qs.map (· - o)) (ps.map (· - o)) = upTo n := by
  have hperm := h.perm.map (· - o)
  rw [map_sub_upTo] at hperm
  have hp : Covers (ps.map (· - o)) n := covers_of_perm hperm
  have hself : Shape.along (qs.map (· - o)) (ps.map (· - o)) = upTo n := by
    rw [along_stripped (h.length_eq.symm ▸ hp), h.composed_eq, map_sub_upTo]
  have hq := perm_of_along hp (by simpa using h.length_eq) hself
  exact ⟨hp, covers_of_perm hq, hself⟩

end Transpose

namespace Item

variable {x : Item} {v w : View Item} {ns : List Int} {origin : Origin} {o : Int}

/-- An item lists axes: it is a vector or a scalar of whole numbers. -/
def ListsAxes (x : Item) (ns : List Int) : Prop :=
  ∃ y, x.flat .leftVector = .ok y ∧ y.asInts "left argument" = .ok ns

theorem listsAxes_ofInts (ns : List Int) : (array (Grid.ofInts ns)).ListsAxes ns :=
  ⟨_, rfl, asInts_ofNumbers (s := [ns.length]) (by simp) "left argument"⟩

theorem permute_listed (ho : origin.number = .ok (.int o)) (h : x.ListsAxes ns) :
    permute (.view v) (some x) origin =
      .ok (v.under (.permute (some ((ns.map (· - o)).map .int)))) := by
  obtain ⟨y, hflat, hns⟩ := h
  have hstrip : ns.mapM origin.strip = .ok ((ns.map (· - o)).map .int) := by
    rw [List.map_map]
    refine mapM_ok fun n _ => ?_
    simp [Scalar.strip, ho, bind, Except.bind]
  simp only [permute, hflat, hns, hstrip, bind, Except.bind, pure, Except.pure]
  rfl

end Item

namespace View

variable {root : Root Item} {r t : Shape} {v : View Item} {ts us : List Int} {m : Nat}
  {axes axes' : Option (List Number)}

theorem StandsOn.comesFrom_permute (h : StandsOn root r v t)
    (hts : Transpose.targets axes (.ofShape t) = .ok ts) :
    ∃ f, ComesFrom root r t (Transpose.turnedShape ts t) (v.under (.permute axes)) v f ∧
      (∀ c, Shape.Within (Transpose.turnedShape ts t) c →
        f (Shape.dot c (Shape.strides (Transpose.turnedShape ts t))) =
          some (Shape.dot (Shape.along c ts) t.strides)) ∧
      (v.under (.permute axes)).etype = v.etype := by
  have ht := (h.stands.keeps Item.fillOf).proper
  obtain ⟨hl, hbounds⟩ := Transpose.targets_spec hts
  rw [Extents.length_ofShape] at hl
  obtain ⟨l, hlink, hmaps⟩ := Transpose.maps_link ht hl hbounds
  have hshape : (Step.permute axes).shapeOver (.ofShape t) =
      .ok (.ofShape (Transpose.turnedShape ts t)) := by
    simp only [Step.shapeOver, hts, bind, Except.bind, Transpose.shape_ofShape]
  have hlinkOver : (Step.permute axes).linkOver (.ofShape t) = .ok l := by
    simp only [Step.linkOver, hts, bind, Except.bind, hlink]
  refine ⟨_, h.comesFrom_under (y := .permute axes) trivial hshape hlinkOver rfl,
    fun c hc => ?_, etype_under_of_keepsType rfl⟩
  rw [hmaps.reach_eq hc.holds, Shape.coordinates_dot hc]
  rfl

/-- A transpose of a transpose shows each cell at the place whose coordinates are read along the
composed targets. -/
theorem StandsOn.comesFrom_permute_permute (h : StandsOn root r v t)
    (hts : Transpose.targets axes (.ofShape t) = .ok ts)
    (hus : Transpose.targets axes' (.ofShape (Transpose.turnedShape ts t)) = .ok us) :
    ∃ f, ComesFrom root r t (Transpose.turnedShape (Shape.along us ts) t)
        ((v.under (.permute axes)).under (.permute axes')) v f ∧
      (∀ c, Shape.Within (Transpose.turnedShape (Shape.along us ts) t) c →
        f (Shape.dot c (Shape.strides (Transpose.turnedShape (Shape.along us ts) t))) =
          some (Shape.dot (Shape.along c (Shape.along us ts)) t.strides)) ∧
      ((v.under (.permute axes)).under (.permute axes')).etype = v.etype := by
  obtain ⟨hl, _⟩ := Transpose.targets_spec hts
  rw [Extents.length_ofShape] at hl
  have hp := Transpose.covers_of_targets hts hus
  obtain ⟨m, hq⟩ := Transpose.exists_covers hus
  have hshape := Transpose.turnedShape_turnedShape hl hp hq
  obtain ⟨f, hf, hplace, hetype⟩ := h.comesFrom_permute hts
  obtain ⟨f', hf', hplace', hetype'⟩ := hf.standsOn.comesFrom_permute hus
  have hfrom := hf.trans hf'
  rw [hshape] at hfrom hplace'
  refine ⟨_, hfrom, fun c hc => ?_, hetype'.trans hetype⟩
  have hwithin : Shape.Within (Transpose.turnedShape ts t) (Shape.along c us) := by
    have ht := (hf.standsOn.stands.keeps Item.fillOf).proper
    obtain ⟨hlen, hbounds⟩ := Transpose.targets_spec hus
    rw [Extents.length_ofShape] at hlen
    exact Transpose.gathered_within ht hlen hbounds (hshape ▸ hc)
  rw [hplace' c hc, Option.bind_some, hplace _ hwithin,
    Transpose.along_along fun a ha => (hp a).mp ha]

theorem StandsOn.rendersAlike_permute_permute (h : StandsOn root r v t)
    (hr : (⟨root, []⟩ : View Item).IsReady)
    (hts : Transpose.targets axes (.ofShape t) = .ok ts)
    (hus : Transpose.targets axes' (.ofShape (Transpose.turnedShape ts t)) = .ok us)
    (hself : Shape.along us ts = upTo t.length) :
    ((v.under (.permute axes)).under (.permute axes')).shape = .ok (.ofShape t) ∧
      ((v.under (.permute axes)).under (.permute axes')).RendersAlike v := by
  have ht := (h.stands.keeps Item.fillOf).proper
  obtain ⟨f, hf, hplace, hetype⟩ := h.comesFrom_permute_permute hts hus
  rw [hself, Transpose.turnedShape_upTo] at hf hplace
  have hsame (i : Int) (hi : t.Holds i) : f i = some i := by
    have hc := Shape.coordinates_within ht hi
    have hown := hplace _ hc
    rwa [Shape.along_upTo hc.length_eq, Shape.dot_coordinates ht hi] at hown
  exact ⟨hf.standsOn.shape_eq,
    hf.rendersAlike_source h hr hsame hetype (under_ne_ofGrid _ _)⟩

variable {origin : Origin} {o : Int} {w : View Item} {x : Item} {ns : List Int}

/-- A transpose of the array is accepted: it is made, and it has a shape. -/
def Transposes (v : View Item) (axes : Option Item) (origin : Origin) (w : View Item) : Prop :=
  Item.permute (.view v) axes origin = .ok w ∧ ∃ e, w.shape = .ok e

theorem Transposes.eq_under (h : v.Transposes (some x) origin w) (hs : StandsOn root r v t)
    (ho : origin.number = .ok (.int o)) (hx : x.ListsAxes ns) :
    w = v.under (.permute (some ((ns.map (· - o)).map .int))) ∧
      Transpose.targets (some ((ns.map (· - o)).map .int)) (.ofShape t) =
        .ok (ns.map (· - o)) := by
  obtain ⟨hw, e, he⟩ := h
  rw [Item.permute_listed ho hx] at hw
  obtain rfl := Except.ok.inj hw
  obtain ⟨_, hshape⟩ := hs.exists_shapeOver he
  obtain ⟨ts, hts, _⟩ := bind_eq_ok.mp hshape
  obtain rfl := Transpose.eq_of_targets hts
  exact ⟨rfl, hts⟩

theorem StandsOn.transposes (hs : StandsOn root r v t) (ho : origin.number = .ok (.int o))
    (hx : x.ListsAxes ns) (hts : Transpose.targets (some ((ns.map (· - o)).map .int))
      (.ofShape t) = .ok (ns.map (· - o))) :
    v.Transposes (some x) origin (v.under (.permute (some ((ns.map (· - o)).map .int)))) := by
  obtain ⟨f, hf, _⟩ := hs.comesFrom_permute hts
  exact ⟨Item.permute_listed ho hx, _, hf.standsOn.shape_eq⟩

variable {y : Item} {ps qs : List Int} {once twice : View Item}

/-- Two transposes along listed axes that are accepted render like the one along the composed axes,
which is accepted too. -/
theorem StandsOn.transposes_composed (h : StandsOn root r v t) (ho : origin.number = .ok (.int o))
    (hx : x.ListsAxes ps) (hy : y.ListsAxes qs) (honce : v.Transposes (some x) origin once)
    (htwice : once.Transposes (some y) origin twice) {z : Item}
    (hz : z.ListsAxes (Transpose.composed o ps qs)) :
    ∃ w, v.Transposes (some z) origin w ∧ twice.shape = w.shape ∧ twice.RendersAlike w := by
  obtain ⟨rfl, hts⟩ := honce.eq_under h ho hx
  obtain ⟨f₁, hf₁, _⟩ := h.comesFrom_permute hts
  obtain ⟨rfl, hus⟩ := htwice.eq_under hf₁.standsOn ho hy
  obtain ⟨hl, _⟩ := Transpose.targets_spec hts
  rw [Extents.length_ofShape] at hl
  have hp := Transpose.covers_of_targets hts hus
  obtain ⟨m, hq⟩ := Transpose.exists_covers hus
  have hcomposed : (Transpose.composed o ps qs).map (· - o) =
      Shape.along (qs.map (· - o)) (ps.map (· - o)) :=
    (Transpose.along_stripped (by simpa using hp)).symm
  have hrs := Transpose.targets_listed (t := t) (by simpa [Shape.along] using hl) (hp.along hq)
  rw [← hcomposed] at hrs
  obtain ⟨f, hf, hplace, hetype⟩ := h.comesFrom_permute_permute hts hus
  obtain ⟨f', hf', hplace', hetype'⟩ := h.comesFrom_permute hrs
  rw [← hcomposed] at hf hplace
  have hu := (hf.standsOn.stands.keeps Item.fillOf).proper
  have hsame (i : Int)
      (hi : Shape.Holds (Transpose.turnedShape ((Transpose.composed o ps qs).map (· - o)) t) i) :
      f i = f' i := by
    have hc := Shape.coordinates_within hu hi
    rw [← Shape.dot_coordinates hu hi, hplace _ hc, hplace' _ hc]
  refine ⟨_, h.transposes ho hz hrs, hf.standsOn.shape_eq.trans hf'.standsOn.shape_eq.symm, ?_⟩
  refine (hf.rendersAlike hf' hsame (under_ne_ofGrid _ _) (under_ne_ofGrid _ _)).2 ?_
  rw [hetype, hetype']

theorem StandsOn.transposes_inverse (h : StandsOn root r v t)
    (hr : (⟨root, []⟩ : View Item).IsReady) (ho : origin.number = .ok (.int o))
    (hx : x.ListsAxes ps) (hy : y.ListsAxes qs)
    (hinverse : Transpose.AreInverse o t.length ps qs) :
    ∃ once twice, v.Transposes (some x) origin once ∧ once.Transposes (some y) origin twice ∧
      twice.shape = v.shape ∧ twice.RendersAlike v := by
  obtain ⟨hp, hq, hself⟩ := hinverse.stripped
  have hl : ps.length = t.length := by simpa using hinverse.perm.length_eq
  have hts := Transpose.targets_listed (t := t) (by simpa using hl) hp
  have hus := Transpose.targets_listed
    (t := Transpose.turnedShape (ps.map (· - o)) t) (by
      rw [Transpose.length_turnedShape hp]
      simpa using hinverse.length_eq) hq
  obtain ⟨f₁, hf₁, _⟩ := h.comesFrom_permute hts
  obtain ⟨hshape, halike⟩ := h.rendersAlike_permute_permute hr hts hus hself
  exact ⟨_, _, h.transposes ho hx hts, hf₁.standsOn.transposes ho hy hus,
    hshape.trans h.shape_eq.symm, halike⟩

theorem StandsOn.transposes_reverse (h : StandsOn root r v t)
    (hr : (⟨root, []⟩ : View Item).IsReady) (origin : Origin) :
    ∃ once twice, v.Transposes none origin once ∧ once.Transposes none origin twice ∧
      twice.shape = v.shape ∧ twice.RendersAlike v := by
  have hts : Transpose.targets none (.ofShape t) = .ok (upTo t.length).reverse := by
    simp [Transpose.targets]
  have hus : Transpose.targets none
      (.ofShape (Transpose.turnedShape (upTo t.length).reverse t)) =
        .ok (upTo t.length).reverse := by
    simp [Transpose.targets, Transpose.length_turnedShape (Transpose.covers_reverse t.length)]
  obtain ⟨f₁, hf₁, _⟩ := h.comesFrom_permute hts
  obtain ⟨f₂, hf₂, _⟩ := hf₁.standsOn.comesFrom_permute hus
  obtain ⟨hshape, halike⟩ :=
    h.rendersAlike_permute_permute hr hts hus (Transpose.along_reverse t.length)
  exact ⟨_, _, ⟨rfl, _, hf₁.standsOn.shape_eq⟩, ⟨rfl, _, hf₂.standsOn.shape_eq⟩,
    hshape.trans h.shape_eq.symm, halike⟩

theorem ShownAs.exists_render_transposes {g : Grid Item} (hg : v.ShownAs g)
    (h : StandsOn root r v t) (ho : origin.number = .ok (.int o)) (hx : x.ListsAxes ps)
    (hy : y.ListsAxes qs) (honce : v.Transposes (some x) origin once)
    (htwice : once.Transposes (some y) origin twice) :
    ∃ w, (Item.view twice).render = .ok w := by
  obtain ⟨rfl, hts⟩ := honce.eq_under h ho hx
  obtain ⟨f₁, hf₁, _⟩ := h.comesFrom_permute hts
  obtain ⟨rfl, hus⟩ := htwice.eq_under hf₁.standsOn ho hy
  obtain ⟨f, hf, _, hetype⟩ := h.comesFrom_permute_permute hts hus
  obtain ⟨_, _, F, _, hyields, _⟩ := hg.exists_yields
  obtain rfl : g.shape = t :=
    Extents.ofShape_inj (Except.ok.inj (hyields.shape.symm.trans h.shape_eq))
  exact hf.exists_render h hyields hg.fill (hetype ▸ hyields.etype) (under_ne_ofGrid _ _)

/-- Transposes compose: two of them that are accepted render like the one by which each axis goes to
where the second one sends what the first one sends it to, diagonals included, and this one is
accepted. Transposes that are inverse to each other, and two that put the axes in reverse, render
like the array itself. -/
theorem Grown.permute_permute (h : Grown (fun v w => Raises v w ∨ HandsOut v w) root r v)
    (hr : (⟨root, []⟩ : View Item).IsReady) (hv : v.shape = .ok (.ofShape t))
    (ho : origin.number = .ok (.int o)) :
    (∀ (x y : Item) (ps qs : List Int) (once twice : View Item), x.ListsAxes ps →
      y.ListsAxes qs → v.Transposes (some x) origin once →
      once.Transposes (some y) origin twice →
        (∀ z : Item, z.ListsAxes (Transpose.composed o ps qs) → ∃ w,
          v.Transposes (some z) origin w ∧ twice.shape = w.shape ∧ twice.RendersAlike w) ∧
        ∀ g, v.ShownAs g → ∃ m, (Item.view twice).render = .ok m) ∧
    (∀ (x y : Item) (ps qs : List Int), x.ListsAxes ps → y.ListsAxes qs →
      Transpose.AreInverse o t.length ps qs → ∃ once twice, v.Transposes (some x) origin once ∧
        once.Transposes (some y) origin twice ∧ twice.shape = v.shape ∧ twice.RendersAlike v) ∧
    ∃ once twice, v.Transposes none origin once ∧ once.Transposes none origin twice ∧
      twice.shape = v.shape ∧ twice.RendersAlike v := by
  obtain ⟨t', hs⟩ := h.exists_standsOn
  obtain rfl : t' = t := Extents.ofShape_inj (Except.ok.inj (hs.shape_eq.symm.trans hv))
  refine ⟨fun x y ps qs once twice hx hy honce htwice => ⟨fun z hz => ?_, fun g hg => ?_⟩,
    fun x y ps qs hx hy hinverse => ?_, ?_⟩
  · exact hs.transposes_composed ho hx hy honce htwice hz
  · exact hg.exists_render_transposes hs ho hx hy honce htwice
  · exact hs.transposes_inverse hr ho hx hy hinverse
  · exact hs.transposes_reverse hr origin

/-- The columns of two rows, and then their diagonal, which is the diagonal of the rows. -/
theorem numberedRows_permute_permute :
    ∃ once twice w y, numberedRows.Transposes (some (.array (Grid.ofInts [1, 0]))) (.int 0) once ∧
      once.Transposes (some (.array (Grid.ofInts [0, 0]))) (.int 0) twice ∧
      (Item.view twice).render = .ok (.array (Grid.ofInts [1, 5])) ∧
      numberedRows.Transposes (some (.array (Grid.ofInts [0, 0]))) (.int 0) w ∧
      (Item.view w).render = .ok y ∧ Item.Alike (.array (Grid.ofInts [1, 5])) y := by
  have ready : numberedRows.IsReady := isReady_ofNumbers (by simp [Shape.IsProper]) rfl
  have root : Grown (fun v w => Raises v w ∨ HandsOut v w)
      (.concrete (Grid.of [2, 3] ([1, 2, 3, 4, 5, 6].map Item.int) none)) [2, 3] numberedRows :=
    .root rfl (by simp [Shape.IsProper])
  have origin : Scalar.number (.int 0) = .ok (.int 0) := rfl
  obtain ⟨hcomposed, _, _⟩ := root.permute_permute (t := [2, 3]) ready rfl origin
  obtain ⟨hall, _⟩ := hcomposed _ _ [1, 0] [0, 0]
    (numberedRows.under (.permute (some [.int 1, .int 0])))
    ((numberedRows.under (.permute (some [.int 1, .int 0]))).under
      (.permute (some [.int 0, .int 0])))
    (Item.listsAxes_ofInts [1, 0]) (Item.listsAxes_ofInts [0, 0]) ⟨rfl, _, rfl⟩ ⟨rfl, _, rfl⟩
  obtain ⟨w, hw, _, halike⟩ := hall (.array (Grid.ofInts [0, 0])) (Item.listsAxes_ofInts [0, 0])
  obtain ⟨y, hy, hequal⟩ := halike.1 (.array (Grid.ofInts [1, 5])) rfl
  exact ⟨_, _, w, y, ⟨rfl, _, rfl⟩, ⟨rfl, _, rfl⟩, rfl, hw, hy, hequal⟩

end View
end LazyApl
