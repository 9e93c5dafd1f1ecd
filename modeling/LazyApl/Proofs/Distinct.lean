import LazyApl.Platform.Usual
import LazyApl.Proofs.Picking
import LazyApl.Proofs.Searching
/-!
# Distinct items

The distinct items of a list are found with a lookup that grows while it is asked. On discrete items
it tells whether an item has come before, and it goes on doing so whatever is added, also if the
first nested item arrives midway. So what is kept are the items that are equal to no earlier one.
-/

namespace LazyApl

open Outcome

namespace Item

variable {x y : Item} {xs ys us : List Item} {ct : Tolerance} {p : Item → Bool}

theorem IsDiscrete.settle_eq (h : x.IsDiscrete) : x.settle = .ok x := by
  cases h <;> simp [settle]

theorem getElem?_concat_cases {k : Nat} {x z : Item} (h : (xs ++ [x])[k]? = some z) :
    (k < xs.length ∧ xs[k]? = some z) ∨ (k = xs.length ∧ x = z) := by
  by_cases hlt : k < xs.length
  · rw [List.getElem?_append_left hlt] at h
    exact .inl ⟨hlt, h⟩
  · obtain ⟨hk, hz⟩ := List.getElem?_eq_some_iff.mp h
    rw [List.length_append, List.length_singleton] at hk
    obtain rfl : k = xs.length := by omega
    exact .inr ⟨rfl, by simpa using hz⟩

/-- The items of a list as equality tells them apart. -/
def keys (xs : List Item) : List Item := xs.map unfilled

variable [Platform]

/-- Some items at increasing positions of a list: those that are equal to no item before them. -/
structure AreFirsts (ct : Tolerance) (xs : List Item) (ps : List Nat)
    (us : List Item) : Prop where
  increasing : ps.Pairwise (· < ·)
  items : ps.map (fun k => xs[k]?) = us.map some
  isFirst : ∀ k x, xs[k]? = some x → (k ∈ ps ↔ ∀ y ∈ xs.take k, near ct x y = .ok false)

namespace AreFirsts

variable {ps : List Nat}

theorem nil (ct : Tolerance) : AreFirsts ct [] [] [] :=
  ⟨.nil, rfl, fun k x hk => by cases hk⟩

theorem lt_length (h : AreFirsts ct xs ps us) {k : Nat}
    (hk : k ∈ ps) : k < xs.length := by
  have hmem : xs[k]? ∈ us.map some := h.items ▸ List.mem_map_of_mem hk
  obtain ⟨u, _, hu⟩ := List.mem_map.mp hmem
  exact (List.getElem?_eq_some_iff.mp hu.symm).1

theorem map_append (h : AreFirsts ct xs ps us) (x : Item) :
    ps.map (fun k => (xs ++ [x])[k]?) = us.map some := by
  rw [← h.items]
  exact List.map_congr_left fun k hk => List.getElem?_append_left (h.lt_length hk)

theorem seen (h : AreFirsts ct xs ps us) (hx : ∃ y ∈ xs, near ct x y ≠ .ok false) :
    AreFirsts ct (xs ++ [x]) ps us := by
  refine ⟨h.increasing, h.map_append x, fun k z hk => ?_⟩
  rcases getElem?_concat_cases hk with ⟨hlt, hk⟩ | ⟨rfl, rfl⟩
  · rw [List.take_append_of_le_length hlt.le]
    exact h.isFirst k z hk
  · obtain ⟨y, hy, hne⟩ := hx
    rw [List.take_left]
    exact ⟨fun hmem => absurd (h.lt_length hmem) (lt_irrefl _), fun hall => absurd (hall y hy) hne⟩

theorem fresh (h : AreFirsts ct xs ps us) (hx : ∀ y ∈ xs, near ct x y = .ok false) :
    AreFirsts ct (xs ++ [x]) (ps ++ [xs.length]) (us ++ [x]) := by
  refine ⟨?_, ?_, fun k z hk => ?_⟩
  · rw [List.pairwise_append]
    exact ⟨h.increasing, by simp, by simpa using fun k hk => h.lt_length hk⟩
  · rw [List.map_append, List.map_append, h.map_append x]
    simp
  · rcases getElem?_concat_cases hk with ⟨hlt, hk⟩ | ⟨rfl, rfl⟩
    · rw [List.take_append_of_le_length hlt.le, ← h.isFirst k z hk]
      simp [hlt.ne]
    · rw [List.take_left]
      simpa using hx

end AreFirsts

theorem exists_near_iff (hx : x.IsDiscrete) (hy : ∀ y ∈ ys, y.IsDiscrete) :
    (∃ y ∈ ys, near ct x y = .ok true) ↔ x.unfilled ∈ keys ys := by
  simp only [keys, List.mem_map]
  refine exists_congr fun y => and_congr_right fun hmem => ?_
  rw [(hx.tells_near ct (hy y hmem)).eq_true_iff, eq_comm]

theorem forall_near_iff (hx : x.IsDiscrete) (hy : ∀ y ∈ ys, y.IsDiscrete) :
    (∀ y ∈ ys, near ct x y = .ok false) ↔ x.unfilled ∉ keys ys := by
  simp only [keys, List.mem_map, not_exists, not_and]
  refine forall₂_congr fun y hmem => ?_
  rw [(hx.tells_near ct (hy y hmem)).eq_false_iff, eq_comm]

end Item

namespace Lookup

variable {l : Lookup} {x : Item} {xs ys : List Item} {ct : Tolerance}

/-- A lookup of discrete items, from its table or not. -/
structure IsDiscrete (l : Lookup) : Prop where
  faithful : l.IsFaithful
  values : ∀ v ∈ l.values, v.IsDiscrete

theorem isDiscrete_ofList (hxs : ∀ x ∈ xs, x.IsDiscrete) (ct : Tolerance) :
    (ofList xs ct).IsDiscrete := by
  obtain ⟨hf, hv, -⟩ := ofList_spec xs ct
  exact ⟨hf, hv.symm ▸ hxs⟩

theorem IsDiscrete.add (hl : l.IsDiscrete) (hx : x.IsDiscrete) : (l.add x).IsDiscrete := by
  refine ⟨hl.faithful.add x, ?_⟩
  rw [values_add, List.forall_mem_append]
  exact ⟨hl.values, by simpa using hx⟩

theorem IsDiscrete.tells_has [Platform] (hl : l.IsDiscrete) (hx : x.IsDiscrete) :
    Tells (l.has x) (x.unfilled ∈ Item.keys l.values) := by
  have hends : ∃ r, IsFirst (Item.near l.tolerance x) l.values r := by
    refine exists_isFirst fun v hv => ?_
    obtain ⟨b, hb, -⟩ := hx.tells_near l.tolerance (hl.values v hv)
    exact ⟨b, hb⟩
  exact (hl.faithful.tells_has hends).congr (Item.exists_near_iff hx hl.values)

end Lookup

namespace Item

variable {l : Lookup} {x : Item} {xs ys us : List Item} {ct : Tolerance} {p : Item → Bool}

theorem keys_add (l : Lookup) (x : Item) :
    keys (l.add x).values = keys l.values ++ [x.unfilled] := by
  simp [keys]

section

variable [Platform]

theorem distinct_of_seen (hl : l.IsDiscrete) (hx : x.IsDiscrete) (h : x.unfilled ∈ keys l.values)
    (xs : List Item) : distinct l (x :: xs) = distinct l xs := by
  rw [distinct, (hl.tells_has hx).eq_true_iff.mpr h]
  rfl

theorem distinct_of_fresh (hl : l.IsDiscrete) (hx : x.IsDiscrete)
    (h : x.unfilled ∉ keys l.values) (xs : List Item) :
    distinct l (x :: xs) = distinct (l.add x) xs := by
  rw [distinct, (hl.tells_has hx).eq_false_iff.mpr h]
  rfl

/-- Leaving out items that have been seen makes no difference. -/
theorem distinct_filter (hl : l.IsDiscrete) (hys : ∀ y ∈ ys, y.IsDiscrete)
    (h : ∀ y ∈ ys, p y = false → y.unfilled ∈ keys l.values) :
    distinct l (ys.filter p) = distinct l ys := by
  induction ys generalizing l with
  | nil => rfl
  | cons y ys ih =>
      obtain ⟨hy, hys⟩ := List.forall_mem_cons.mp hys
      obtain ⟨hdrop, hrest⟩ := List.forall_mem_cons.mp h
      by_cases hseen : y.unfilled ∈ keys l.values
      · have htail := ih hl hys hrest
        rw [distinct_of_seen hl hy hseen]
        cases hp : p y with
        | true => rw [List.filter_cons_of_pos hp, distinct_of_seen hl hy hseen, htail]
        | false => rw [List.filter_cons_of_neg (by simp [hp]), htail]
      · have hp : p y = true := by
          cases hp : p y with
          | true => rfl
          | false => exact absurd (hdrop hp) hseen
        have htail := ih (hl.add hy) hys fun z hz hpz => by
          rw [keys_add]
          exact List.mem_append_left _ (hrest z hz hpz)
        rw [List.filter_cons_of_pos hp, distinct_of_fresh hl hy hseen,
          distinct_of_fresh hl hy hseen, htail]

/-- Leaving out items that have come before makes no difference. -/
theorem distinct_append_filter (hl : l.IsDiscrete) (hxs : ∀ x ∈ xs, x.IsDiscrete)
    (hys : ∀ y ∈ ys, y.IsDiscrete)
    (h : ∀ y ∈ ys, p y = false → y.unfilled ∈ keys l.values ++ keys xs) :
    distinct l (xs ++ ys.filter p) = distinct l (xs ++ ys) := by
  induction xs generalizing l with
  | nil => exact distinct_filter hl hys (by simpa [keys] using h)
  | cons x xs ih =>
      obtain ⟨hx, hxs⟩ := List.forall_mem_cons.mp hxs
      rw [List.cons_append, List.cons_append]
      by_cases hseen : x.unfilled ∈ keys l.values
      · rw [distinct_of_seen hl hx hseen, distinct_of_seen hl hx hseen]
        refine ih hl hxs fun y hy hp => ?_
        have := h y hy hp
        simp only [keys, List.map_cons, List.mem_append, List.mem_cons] at this hseen ⊢
        rcases this with hl | heq | hr
        · exact .inl hl
        · exact .inl (heq ▸ hseen)
        · exact .inr hr
      · rw [distinct_of_fresh hl hx hseen, distinct_of_fresh hl hx hseen]
        refine ih (hl.add hx) hxs fun y hy hp => ?_
        rw [keys_add, List.append_assoc]
        exact h y hy hp

theorem distinct_of_nodup (hl : l.IsDiscrete) (hus : ∀ u ∈ us, u.IsDiscrete)
    (h : (keys l.values ++ keys us).Nodup) : distinct l us = .ok (l.values ++ us) := by
  induction us generalizing l with
  | nil => simp [distinct]
  | cons u us ih =>
      obtain ⟨hu, hus⟩ := List.forall_mem_cons.mp hus
      have hfresh : u.unfilled ∉ keys l.values := by
        intro hmem
        exact (List.nodup_append.mp h).2.2 _ hmem _ (by simp [keys]) rfl
      rw [distinct_of_fresh hl hu hfresh, ih (hl.add hu) hus (by simpa [keys] using h)]
      simp

/-- What is known of a lookup that has been asked for some items and has kept the first ones. -/
structure HasFirsts (l : Lookup) (ct : Tolerance) (xs : List Item) : Prop where
  discrete : l.IsDiscrete
  tolerance_eq : l.tolerance = ct
  items : ∀ x ∈ xs, x.IsDiscrete
  firsts : ∃ ps, AreFirsts ct xs ps l.values
  keys_iff : ∀ key, key ∈ keys xs ↔ key ∈ keys l.values
  nodup : (keys l.values).Nodup

namespace HasFirsts

theorem empty (ct : Tolerance) : HasFirsts (Lookup.ofList [] ct) ct [] :=
  ⟨Lookup.isDiscrete_ofList (by simp) ct, rfl, by simp, ⟨[], .nil ct⟩, fun _ => .rfl, .nil⟩

theorem items_append (h : HasFirsts l ct xs) (hx : x.IsDiscrete) :
    ∀ z ∈ xs ++ [x], z.IsDiscrete := by
  rw [List.forall_mem_append]
  exact ⟨h.items, by simpa using hx⟩

/-- An item that the lookup has is left out. -/
theorem seen (h : HasFirsts l ct xs) (hx : x.IsDiscrete)
    (hseen : x.unfilled ∈ keys l.values) :
    HasFirsts l ct (xs ++ [x]) := by
  obtain ⟨ps, hps⟩ := h.firsts
  have hbefore : x.unfilled ∈ keys xs := (h.keys_iff _).mpr hseen
  obtain ⟨y, hy, hnear⟩ : ∃ y ∈ xs, near ct x y = .ok true :=
    (exists_near_iff hx h.items).mpr hbefore
  refine ⟨h.discrete, h.tolerance_eq, h.items_append hx,
    ⟨ps, hps.seen ⟨y, hy, by simp [hnear]⟩⟩, fun key => ?_, h.nodup⟩
  rw [← h.keys_iff]
  simp only [keys, List.map_append, List.mem_append, List.map_singleton, List.mem_singleton]
  refine ⟨fun hkey => ?_, .inl⟩
  rcases hkey with hkey | rfl
  · exact hkey
  · exact hbefore

theorem fresh (h : HasFirsts l ct xs) (hx : x.IsDiscrete)
    (hfresh : x.unfilled ∉ keys l.values) :
    HasFirsts (l.add x) ct (xs ++ [x]) := by
  obtain ⟨ps, hps⟩ := h.firsts
  have hnone : ∀ y ∈ xs, near ct x y = .ok false :=
    (forall_near_iff hx h.items).mpr fun hmem => hfresh ((h.keys_iff _).mp hmem)
  refine ⟨h.discrete.add hx, by rw [Lookup.tolerance_add, h.tolerance_eq], h.items_append hx, ?_,
    fun key => ?_, ?_⟩
  · rw [Lookup.values_add]
    exact ⟨_, hps.fresh hnone⟩
  · have hkey := h.keys_iff key
    rw [keys_add]
    simp only [keys, List.map_append, List.mem_append] at hkey ⊢
    rw [hkey]
    simp
  · rw [keys_add]
    exact h.nodup.append (by simp) (by simpa using hfresh)

theorem exists_distinct (h : HasFirsts l ct xs) (hys : ∀ y ∈ ys, y.IsDiscrete) :
    ∃ l', distinct l ys = .ok l'.values ∧ HasFirsts l' ct (xs ++ ys) := by
  induction ys generalizing l xs with
  | nil => exact ⟨l, rfl, by simpa using h⟩
  | cons y ys ih =>
      obtain ⟨hy, hys⟩ := List.forall_mem_cons.mp hys
      rw [List.append_cons]
      by_cases hseen : y.unfilled ∈ keys l.values
      · rw [distinct_of_seen h.discrete hy hseen]
        exact ih (h.seen hy hseen) hys
      · rw [distinct_of_fresh h.discrete hy hseen]
        exact ih (h.fresh hy hseen) hys

theorem pairwise (h : HasFirsts l ct xs) :
    l.values.Pairwise fun u u' => near ct u u' = .ok false := by
  have hne : l.values.Pairwise fun u u' => u.unfilled ≠ u'.unfilled := List.pairwise_map.mp h.nodup
  refine hne.imp_of_mem fun hu hu' hkeys => ?_
  exact ((h.discrete.values _ hu).tells_near ct (h.discrete.values _ hu')).eq_false_iff.mpr hkeys

theorem exists_near (h : HasFirsts l ct xs) (hx : x ∈ xs) :
    ∃ u ∈ l.values, near ct x u = .ok true :=
  (exists_near_iff (h.items x hx) h.discrete.values).mpr
    ((h.keys_iff _).mp (List.mem_map_of_mem hx))

end HasFirsts

variable {x y : Item}

/-- The distinct items of an array are those that a new lookup keeps. -/
theorem Lists.unique (h : x.Lists xs) (hd : ∀ a ∈ xs, a.IsDiscrete) (ct : Tolerance) :
    ∃ l, distinct (Lookup.ofList [] ct) xs = .ok l.values ∧ HasFirsts l ct xs ∧
      (Item.unique x ct).IsMadeFrom l.values ∧ (view (unique x ct)).Lists l.values := by
  obtain ⟨l, hl, hfirsts⟩ := (HasFirsts.empty ct).exists_distinct hd
  have hmade : (Item.unique x ct).IsMadeFrom l.values := by
    refine View.isMadeFrom_whole ?_
    simp only [Lazy.get_keep, h.members_eq, bind, Except.bind]
    exact hl
  exact ⟨l, hl, by simpa using hfirsts, hmade,
    hmade.lists fun u hu => (hfirsts.discrete.values u hu).settle_eq⟩

/-- A union has the items of the left, and then some of the right: what it leaves out equals an item
of the left. -/
theorem Lists.union (hx : x.Lists xs) (hy : y.Lists ys) (hdx : ∀ a ∈ xs, a.IsDiscrete)
    (hdy : ∀ b ∈ ys, b.IsDiscrete) (ct : Tolerance) :
    ∃ p : Item → Bool, (∀ b ∈ ys, p b = false → b.unfilled ∈ keys xs) ∧
      (view (union x y ct)).Lists (xs ++ ys.filter p) := by
  classical
  have hfound := Lookup.isDiscrete_ofList hdx ct
  obtain ⟨-, hvalues, -⟩ := Lookup.ofList_spec xs ct
  have htest : ∀ b ∈ ys, (do return !(← (Lookup.ofList xs ct).has b)) =
      Except.ok (decide (b.unfilled ∉ keys xs)) := by
    intro b hb
    have hhas := hfound.tells_has (hdy b hb)
    rw [hvalues] at hhas
    exact hhas.not.eq_decide
  have hkept := keepWhere_eq_filter htest
  have hmade : (Item.union x y ct).IsMadeFrom
      (xs ++ ys.filter fun b => decide (b.unfilled ∉ keys xs)) := by
    refine View.isMadeFrom_whole ?_
    simp only [bind, Except.bind] at hkept
    simp only [Lazy.get_keep, hx.members_eq, hy.members_eq, hkept, bind, Except.bind]
    rfl
  refine ⟨_, fun b _ hb => by simpa using hb, hmade.lists fun a ha => ?_⟩
  rcases List.mem_append.mp ha with ha | ha
  · exact (hdx a ha).settle_eq
  · exact (hdy a (List.mem_of_mem_filter ha)).settle_eq

/-- The distinct items of a union are those of the catenation, in their order, whatever the
tolerance. The distinct items of an array are its items at the positions where there is no equal
item before: no two of them are equal, each item is equal to one of them, and they are their own
distinct items. -/
theorem unique_union (ct : Tolerance) :
    (∀ (x y : Item) (xs ys : List Item) (first : Bool) (origin : Origin), x.Lists xs → y.Lists ys →
      (∀ a ∈ xs, a.IsDiscrete) → (∀ b ∈ ys, b.IsDiscrete) →
      ∃ w us, catenate [x, y] none first origin = .ok w ∧
        (view (unique (view (union x y ct)) ct)).items = .ok us ∧
        (view (unique (view w) ct)).items = .ok us) ∧
    ∀ (x : Item) (xs : List Item), x.Lists xs → (∀ a ∈ xs, a.IsDiscrete) →
      ∃ us, (view (unique x ct)).items = .ok us ∧ (∃ ps, AreFirsts ct xs ps us) ∧
        us.Pairwise (fun u u' => near ct u u' = .ok false) ∧
        (∀ a ∈ xs, ∃ u ∈ us, near ct a u = .ok true) ∧
        (unique (view (unique x ct)) ct).AnswersAs (unique x ct) := by
  constructor
  · intro x y xs ys first origin hx hy hdx hdy
    obtain ⟨w, hw, hlists⟩ := hx.catenate first origin hy
    obtain ⟨p, hp, hunion⟩ := hx.union hy hdx hdy ct
    have hdxy : ∀ a ∈ xs ++ ys, a.IsDiscrete := List.forall_mem_append.mpr ⟨hdx, hdy⟩
    have hdunion : ∀ a ∈ xs ++ ys.filter p, a.IsDiscrete :=
      List.forall_mem_append.mpr ⟨hdx, fun b hb => hdy b (List.mem_of_mem_filter hb)⟩
    obtain ⟨l, hl, -, -, hunique⟩ := hlists.unique hdxy ct
    obtain ⟨l', hl', -, -, hunique'⟩ := hunion.unique hdunion ct
    have hsame : distinct (Lookup.ofList [] ct) (xs ++ ys.filter p) =
        distinct (Lookup.ofList [] ct) (xs ++ ys) :=
      distinct_append_filter (Lookup.isDiscrete_ofList (by simp) ct) hdx hdy fun b hb hpb =>
        List.mem_append_right _ (hp b hb hpb)
    have hvalues : l'.values = l.values := Except.ok.inj (hl'.symm.trans (hsame.trans hl))
    exact ⟨w, l.values, hw, hvalues ▸ hunique'.items, hunique.items⟩
  · intro x xs hx hd
    obtain ⟨l, -, hfirsts, hmade, hunique⟩ := hx.unique hd ct
    obtain ⟨l', hl', -, hagain, -⟩ := hunique.unique hfirsts.discrete.values ct
    have hkept : distinct (Lookup.ofList [] ct) l.values = .ok l.values :=
      distinct_of_nodup (l := Lookup.ofList [] ct) (Lookup.isDiscrete_ofList (by simp) ct)
        hfirsts.discrete.values hfirsts.nodup
    rw [Except.ok.inj (hl'.symm.trans hkept)] at hagain
    exact ⟨l.values, hunique.items, hfirsts.firsts, hfirsts.pairwise,
      fun a ha => hfirsts.exists_near ha,
      ⟨_, rfl⟩, hagain.shape.trans hmade.shape.symm, rfl, rfl,
      hagain.content.trans hmade.content.symm⟩

end

def oneAndTwo : Item := array ⟨[2], [int 1, int 2], none⟩

def aroundPair (n : Int) : Grid Item := ⟨[3], [int n, oneAndTwo, int n], none⟩

theorem aroundPair_lists (n : Int) :
    (array (aroundPair n)).Lists [int n, oneAndTwo, int n] ∧
      ∀ a ∈ [int n, oneAndTwo, int n], a.IsDiscrete := by
  have hpair : oneAndTwo.IsDiscrete := .array rfl (by simpa using ⟨.number 1, .number 2⟩)
  exact ⟨⟨⟨[3], rfl, by simp [Shape.IsProper], by simp⟩, rfl⟩,
    by simpa using ⟨.number n, hpair, .number n⟩⟩

open scoped Usual in
/-- The pair arrives after a number has been found in the table. -/
theorem aroundPair_unique_union :
    ∃ w, catenate [array (aroundPair 1), array (aroundPair 2)] none false (.int 0) = .ok w ∧
      (view (unique (view (union (array (aroundPair 1)) (array (aroundPair 2)) (int 7)))
        (int 7))).items = .ok [int 1, oneAndTwo, int 2] ∧
      (view (unique (view w) (int 7))).items = .ok [int 1, oneAndTwo, int 2] ∧
      (view (unique (array (aroundPair 1)) (int 7))).items = .ok [int 1, oneAndTwo] ∧
      (∃ ps, AreFirsts (int 7) [int 1, oneAndTwo, int 1] ps [int 1, oneAndTwo]) ∧
      (unique (view (unique (array (aroundPair 1)) (int 7))) (int 7)).AnswersAs
        (unique (array (aroundPair 1)) (int 7)) := by
  obtain ⟨hone, hdone⟩ := aroundPair_lists 1
  obtain ⟨htwo, hdtwo⟩ := aroundPair_lists 2
  obtain ⟨hunion, hunique⟩ := unique_union (int 7)
  obtain ⟨w, us, hw, hus, hus'⟩ := hunion _ _ _ _ false (.int 0) hone htwo hdone hdtwo
  obtain ⟨vs, hvs, hfirsts, -, -, hagain⟩ := hunique _ _ hone hdone
  have hshown : (view (unique (view (union (array (aroundPair 1)) (array (aroundPair 2)) (int 7)))
      (int 7))).items = .ok [int 1, oneAndTwo, int 2] := rfl
  have hshown' : (view (unique (array (aroundPair 1)) (int 7))).items = .ok [int 1, oneAndTwo] :=
    rfl
  obtain rfl := Except.ok.inj (hshown.symm.trans hus)
  obtain rfl := Except.ok.inj (hshown'.symm.trans hvs)
  exact ⟨w, hw, hus, hus', hvs, hfirsts, hagain⟩

end Item
end LazyApl
