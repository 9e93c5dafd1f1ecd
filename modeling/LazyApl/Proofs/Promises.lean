import LazyApl.Platform.Usual
import LazyApl.Proofs.Amounts
import LazyApl.Proofs.Repeating
import LazyApl.Proofs.Sessions
/-!
# Promised shapes

An array whose content is computed at once knows its shape before. Whichever of the two is asked for
first in a session, and whatever has been drawn between the questions, the content has as many items
as the shape has cells: both are answered again as they have been answered, and asked for at one
time they agree. For a random array the content that is kept was drawn for the shape.
-/
namespace LazyApl

open Outcome

def Draw.amount : Draw → Nat
  | .roll _ dice => dice.length
  | .deal _ count size => min count.toNat size.toNat

namespace Source

variable {s s' : Source} {xs : List Scalar}

theorem length_throwAll {origin : Origin} {dice : List Die}
    (h : throwAll origin dice s = (.ok xs, s')) : xs.length = dice.length := by
  induction dice generalizing s xs with
  | nil =>
      cases h
      rfl
  | cons d dice ih =>
      unfold throwAll at h
      split at h
      · cases h
      · split at h
        · cases h
        · rename_i hrest
          cases h
          rw [List.length_cons, List.length_cons, ih hrest]

theorem size_exchange (deck : Array Int) (i j : Nat) : (exchange deck i j).size = deck.size := by
  simp [exchange]

theorem size_shuffle {size k i : Nat} {deck deck' : Array Int}
    (h : shuffle size k i deck s = (.ok deck', s')) : deck'.size = deck.size := by
  induction k generalizing i deck s with
  | zero =>
      cases h
      rfl
  | succ k ih =>
      unfold shuffle at h
      split at h
      · cases h
      · rw [ih h, size_exchange]

theorem length_draw {d : Draw} (h : s.draw d = (.ok xs, s')) : xs.length = d.amount := by
  cases d with
  | roll origin dice => exact length_throwAll h
  | deal first count size =>
      unfold draw at h
      dsimp only at h
      cases hs : shuffle size.toNat count.toNat 0 ((upTo size).map (· + first)).toArray s with
      | mk result after =>
          rw [hs] at h
          cases result with
          | error e => cases h
          | ok deck =>
              cases h
              have hdeck := size_shuffle hs
              simp only [List.size_toArray, List.length_map, length_upTo] at hdeck
              simp [Draw.amount, hdeck]

end Source

namespace Item

theorem shape_of_based {x : Item} {e : Extents} (h : x.based.shape = .ok e) :
    x.lift.shape = .ok e := by
  unfold based basedOn at h
  split at h
  · cases h
  · exact h

theorem eq_deal_of_deck [Platform] {few many : Int} {origin : Origin} {d : Draw}
    (h : deck few many origin = .ok d) : ∃ first, d = .deal first few many := by
  obtain ⟨card, _, h⟩ := bind_eq_ok.mp h
  obtain ⟨last, _, h⟩ := bind_eq_ok.mp h
  split at h
  · obtain ⟨_, _, h⟩ := bind_eq_ok.mp h
    exact ⟨_, (Except.ok.inj h).symm⟩
  · cases h

end Item

namespace RandomArray

variable {as : List RandomArray} {a : RandomArray} {c c' : Contents}

variable [Platform]

/-- Every content has been drawn as it was to be drawn. -/
def AreFull (as : List RandomArray) (c : Contents) : Prop :=
  ∀ a ∈ as, ∀ ss, c a.label = some ss → ∃ d, a.draw c = .ok d ∧ ss.length = d.amount

theorem AreFull.fits (h : AreFull as c) : Fits as c := by
  intro a ha hc
  obtain ⟨ss, hss⟩ := Option.ne_none_iff_exists'.mp hc
  obtain ⟨d, hd, _⟩ := h a ha ss hss
  exact ⟨d, hd⟩

theorem draw_eq (h : a.IsFounded as) (hg : Grows as c c') {d : Draw}
    (hd : a.draw c = .ok d) :
    a.draw c' = .ok d := by
  have hkeeps := keeps_eq_iff.mp (keeps_draw h hg)
  rw [hd] at hkeeps
  exact hkeeps (asksOnly_ok d)

theorem AreFull.wanted (has : AreFounded as) (h : AreFull as c) {label : Label}
    {source : SourceRef} {d : Draw} (hw : Wants as c label source d) {ss : List Scalar}
    (hl : ss.length = d.amount) (hc' : ∀ l, c' l = if l = label then some ss else c l) :
    AreFull as c' := by
  obtain ⟨hg, _⟩ := grows_of_wants has h.fits hw hc'
  obtain ⟨_, b, hb, rfl, _, hd⟩ := hw
  intro a ha xs hxs
  rw [hc'] at hxs
  split at hxs
  · rename_i hlabel
    obtain rfl := has.labels a ha b hb hlabel
    obtain rfl := Option.some.inj hxs
    exact ⟨d, draw_eq (has.founded a ha) hg hd, hl⟩
  · obtain ⟨d', hd', hl'⟩ := h a ha xs hxs
    exact ⟨d', draw_eq (has.founded a ha) hg hd', hl'⟩

/-- The shape of a random array promises the content that has been drawn for it. -/
theorem array_amount (ha : a ∈ as) (h : AreFull as c) {w : View Item} {e : Extents}
    {xs : List Item} (hw : a.array c = .ok w) (he : w.shape = .ok e) (hx : w.HasContent xs) :
    e.Promises xs.length := by
  rw [View.HasContent, (isMade_of_array hw).generator] at hx
  obtain ⟨ys, hys, hcells⟩ := map_eq_ok.mp hx
  obtain rfl := pickFrom_injective (Gen.indexed.inj hcells)
  obtain ⟨ss, hss, rfl⟩ := exists_of_content hys
  obtain ⟨d, hd, hl⟩ := h a ha ss hss
  rw [List.length_map, hl]
  unfold array at hw
  unfold draw at hd
  cases hgame : a.game with
  | roll base =>
      rw [hgame] at hw hd
      obtain ⟨x, hx, hw⟩ := bind_eq_ok.mp hw
      obtain ⟨x', hx', hd⟩ := bind_eq_ok.mp hd
      obtain rfl : x = x' := Except.ok.inj (hx.symm.trans hx')
      obtain ⟨ns, hns, hd⟩ := bind_eq_ok.mp hd
      obtain ⟨items, hitems, hns⟩ := bind_eq_ok.mp hns
      obtain ⟨_, hshape, _⟩ := isMade_roll hgame hx (Except.ok.inj hw).symm
      rw [← Except.ok.inj hd, Draw.amount, List.length_map, Item.length_mapM hns]
      exact Item.promises_items (Item.shape_of_based (hshape.symm.trans he)) hitems
  | deal few many =>
      rw [hgame] at hw hd
      obtain ⟨x, hx, hw⟩ := bind_eq_ok.mp hw
      obtain ⟨y, hy, hw⟩ := bind_eq_ok.mp hw
      obtain ⟨_, k, n, hk, hn, hshape, _⟩ := isMade_deal hgame hx hy hw
      simp only [hx, hy, hk, hn, bind, Except.bind] at hd
      split at hd
      · cases hd
      · rename_i hkn
        rw [hshape] at he
        refine ⟨[k], (Except.ok.inj he).symm, ?_⟩
        obtain ⟨first, rfl⟩ := Item.eq_deal_of_deck hd
        simp only [Draw.amount, Shape.size_cons, Shape.size_nil]
        omega

end RandomArray

theorem Outcome.Keeps.of_map {α β γ δ : Type} {S : γ → δ → Prop} {T : α → β → Prop}
    {x : Except Fault α} {y : Except Fault β} {f : α → γ} {g : β → δ}
    (h : Keeps S (f <$> x) (g <$> y)) (hT : ∀ a b, S (f a) (g b) → T a b) : Keeps T x y := by
  cases x with
  | error e =>
      cases y with
      | error e' =>
          cases h with
          | error e => exact .error e
          | undrawn label source draw y => exact .undrawn label source draw _
      | ok b =>
          cases h with
          | undrawn label source draw y => exact .undrawn label source draw _
  | ok a =>
      cases y with
      | error e' => cases h
      | ok b =>
          cases h with
          | ok h => exact .ok (hT a b h)

namespace Item

variable [Platform]

/-- The operations on one item that know the shape of the result before its content. -/
inductive ForeseesOne : (Item → View Item) → Prop
  | grade (isDown : Bool) (origin : Origin) : ForeseesOne fun x => x.grade none isDown origin
  | whereOnes (origin : Origin) : ForeseesOne fun x => x.whereOnes origin
  | inverseWhere (origin : Origin) : ForeseesOne fun x => x.inverseWhere origin

/-- Those on two items; characters are graded by a key. -/
inductive ForeseesTwo : (Item → Item → View Item) → Prop
  | membership (ct : Tolerance) : ForeseesTwo fun x y => x.membership y ct
  | occurrencesOf (ct : Tolerance) : ForeseesTwo fun x y => x.occurrencesOf y ct
  | indexOf (origin : Origin) (ct : Tolerance) : ForeseesTwo fun x y => x.indexOf y origin ct
  | grade (isDown : Bool) (origin : Origin) :
      ForeseesTwo fun x y => x.grade (some y) isDown origin
  | encode : ForeseesTwo encode

variable {F : Item → View Item} {G : Item → Item → View Item} {x x' y y' : Item} {e : Extents}
  {xs : List Item}

theorem ForeseesOne.amount (hB : Platform.bitLists.IsLawful) (hF : ForeseesOne F)
    (he : (F x).shape = .ok e) (hx : (F x).HasContent xs) : e.Promises xs.length := by
  cases hF with
  | grade isDown origin => exact grade_amount he hx
  | whereOnes origin => exact whereOnes_amount hB he hx
  | inverseWhere origin => exact inverseWhere_amount he hx

theorem ForeseesTwo.amount (hG : ForeseesTwo G) (he : (G x y).shape = .ok e)
    (hx : (G x y).HasContent xs) : e.Promises xs.length := by
  cases hG with
  | membership ct => exact membership_amount he hx
  | occurrencesOf ct => exact occurrencesOf_amount he hx
  | indexOf origin ct => exact indexOf_amount he hx
  | grade isDown origin => exact grade_amount he hx
  | encode => exact encode_amount he hx

theorem ForeseesOne.keptAs (hF : ForeseesOne F) (hx : x.Repeats x') : (F x).KeptAs
    (F x') := by
  cases hF with
  | grade isDown origin => exact hx.grade .none isDown origin
  | whereOnes origin => exact hx.whereOnes origin
  | inverseWhere origin => exact hx.inverseWhere origin

theorem ForeseesTwo.keptAs (hG : ForeseesTwo G) (hx : x.Repeats x') (hy : y.Repeats y') :
    (G x y).KeptAs (G x' y') := by
  cases hG with
  | membership ct => exact hx.membership hy ct
  | occurrencesOf ct => exact hx.occurrencesOf hy ct
  | indexOf origin ct => exact hx.indexOf hy origin ct
  | grade isDown origin => exact hx.grade (.some hy) isDown origin
  | encode => exact hx.encode hy

theorem ForeseesOne.isComputed (hF : ForeseesOne F) (x : Item) : (F x).IsComputed := by
  cases hF <;> exact ⟨_, rfl⟩

theorem ForeseesTwo.isComputed (hG : ForeseesTwo G) (x y : Item) :
    (G x y).IsComputed := by
  cases hG <;> exact ⟨_, rfl⟩

end Item

namespace RandomArray

open Item

variable {as : List RandomArray} {x : Contents → Except Fault Item}

variable [Platform]

/-- An operand that answers again what it has answered, as far as its rendered items go. -/
def IsSteady (as : List RandomArray) (x : Contents → Except Fault Item) : Prop :=
  ∀ c c', Grows as c c' → Keeps Item.Repeats (x c) (x c')

theorem isSteady_const (x : Item) : IsSteady as fun _ => .ok x :=
  fun _ _ _ => .ok (.refl x)

theorem IsHonest.isSteady (h : IsHonest as x) (hm : MakesArrays x) : IsSteady as x := by
  intro c c' hg
  refine (h.keeps c c' hg).imp fun y y' hy hy' hk => ?_
  obtain ⟨v, rfl, hv⟩ := hm c y hy
  obtain ⟨v', rfl, hv'⟩ := hm c' y' hy'
  exact repeats_view (hk.lift.repeats hv hv')

/-- The arrays that know their shape before their content: each is made from steady operands, or
draws its content. -/
inductive IsForetold (as : List RandomArray) :
    (Contents → Except Fault (View Item)) → Prop
  | one {F : Item → View Item} (hF : ForeseesOne F) {x : Contents → Except Fault Item}
      (hx : IsSteady as x) : IsForetold as fun c => do return F (← x c)
  | two {G : Item → Item → View Item} (hG : ForeseesTwo G) {x y : Contents → Except Fault Item}
      (hx : IsSteady as x) (hy : IsSteady as y) : IsForetold as fun c => do return G (← x c) (← y c)
  | drawn {a : RandomArray} (ha : a ∈ as) : IsForetold as a.array

variable {w : Contents → Except Fault (View Item)} {c c' : Contents}

theorem keeps_array {a : RandomArray} (ha : a ∈ as) (h : a.IsFounded as)
    (hg : Grows as c c') :
    Keeps View.KeptAs (a.array c) (a.array c') := by
  refine ((isHonest_item ha h).keeps c c' hg).of_map fun v v' hk => ?_
  cases hk with
  | refl => exact .refl _
  | view hk => exact hk

theorem IsForetold.keeps (has : AreFounded as) (h : IsForetold as w)
    (hg : Grows as c c') :
    Keeps View.KeptAs (w c) (w c') := by
  cases h with
  | one hF hx => exact (hx c c' hg).map fun x x' hx => hF.keptAs hx
  | two hG hx hy =>
      apply (hx c c' hg).bind
      intro x x' _ _ hx
      exact (hy c c' hg).map fun y y' hy => hG.keptAs hx hy
  | drawn ha => exact keeps_array ha (has.founded _ ha) hg

theorem IsForetold.isComputed (h : IsForetold as w) {v : View Item} (hv : w c = .ok v) :
    v.IsComputed := by
  cases h with
  | one hF _ =>
      obtain ⟨x, _, hv⟩ := bind_eq_ok.mp hv
      exact Except.ok.inj hv ▸ hF.isComputed x
  | two hG _ _ =>
      obtain ⟨x, _, hv⟩ := bind_eq_ok.mp hv
      obtain ⟨y, _, hv⟩ := bind_eq_ok.mp hv
      exact Except.ok.inj hv ▸ hG.isComputed x y
  | drawn ha => exact (isMade_of_array hv).computed

theorem IsForetold.isSteady (has : AreFounded as) (h : IsForetold as w) :
    IsSteady as fun c => .view <$> w c := by
  intro c c' hg
  refine Keeps.map (R := fun v v' => v.Repeats v') ?_ fun v v' => repeats_view
  exact (h.keeps has hg).imp fun v v' hv hv' hk =>
    hk.repeats (h.isComputed hv) (h.isComputed hv')

theorem IsForetold.amount (hB : Platform.bitLists.IsLawful) (h : IsForetold as w)
    (hf : AreFull as c) {v : View Item} {e : Extents} {xs : List Item} (hv : w c = .ok v)
    (he : v.shape = .ok e) (hx : v.HasContent xs) : e.Promises xs.length := by
  cases h with
  | one hF _ =>
      obtain ⟨x, _, hv⟩ := bind_eq_ok.mp hv
      obtain rfl := Except.ok.inj hv
      exact hF.amount hB he hx
  | two hG _ _ =>
      obtain ⟨x, _, hv⟩ := bind_eq_ok.mp hv
      obtain ⟨y, _, hv⟩ := bind_eq_ok.mp hv
      obtain rfl := Except.ok.inj hv
      exact hG.amount he hx
  | drawn ha => exact array_amount ha hf hv he hx

end RandomArray

namespace Store

open RandomArray

variable {as : List RandomArray} {s : Store} {α : Type} {X : Contents → Except Fault α}

theorem areFull_answer [Platform] (has : AreFounded as) (hX : ∀ c, AsksOnly (Wants as c) (X c))
    (h : AreFull as s.contents) (limit : Nat) : AreFull as (answer X limit s).2.contents := by
  induction limit generalizing s with
  | zero => exact h
  | succ limit ih =>
      rcases isKnown_or (X s.contents) with hk | ⟨label, ref, d, hx⟩
      · rw [answer_of_isKnown hk]
        exact h
      · have hwants := (hX s.contents).requests label ref d hx
        cases hd : (s.source label ref).draw d with
        | mk result after =>
            cases result with
            | error e =>
                obtain ⟨s', hs', ha⟩ := answer_of_failed_draw hx hd limit
                rw [ha, contents_congr hs']
                exact h
            | ok xs =>
                obtain ⟨s', hs', ha⟩ := answer_of_draw hx hd limit
                rw [ha]
                exact ih (h.wanted has hwants (Source.length_draw hd) (contents_of_drawn hs'))

end Store

namespace Session

open RandomArray

variable {as : List RandomArray} {s s' : Session}

section

variable [Platform]

theorem GoesOn.areFull (has : AreFounded as) (h : GoesOn as s s')
    (hf : AreFull as s.contents) :
    AreFull as s'.contents := by
  induction h with
  | refl => exact hf
  | ask _ X hX ih => exact Store.areFull_answer has hX ih _
  | other _ hd ih =>
      unfold contents at ih ⊢
      rw [Store.contents_congr hd]
      exact ih

/-- The shape that is promised is the amount that is computed. -/
theorem promised_amount (hB : Platform.bitLists.IsLawful) (has : AreFounded as)
    {w : Contents → Except Fault (View Item)} (hw : IsForetold as w) {s₀ : Session}
    (hfresh : s₀.store.drawn = []) (h₀ : GoesOn as s₀ s) (h : GoesOn as s s') {v v' : View Item}
    (hv : w s.contents = .ok v) (hv' : w s'.contents = .ok v') {e : Extents} {xs : List Item}
    (hasked : v.shape = .ok e ∧ v'.HasContent xs ∨ v.HasContent xs ∧ v'.shape = .ok e) :
    e.Promises xs.length ∧ ∀ t, e = .ofShape t → t.IsProper → (xs.length : Int) = t.size := by
  suffices h : e.Promises xs.length from ⟨h, fun t ht hp => h.eq_size ht hp⟩
  have hfull : AreFull as s₀.contents := by
    intro a _ ss hss
    unfold contents Store.contents at hss
    rw [hfresh] at hss
    cases hss
  have hs := h₀.areFull has hfull
  have hs' := h.areFull has hs
  obtain ⟨hg, _⟩ := h.grows has hs.fits
  have hkept := hw.keeps has hg
  rw [hv, hv'] at hkept
  cases hkept with
  | ok hkept =>
      rcases hasked with ⟨he, hx⟩ | ⟨hx, he⟩
      · have he' : v'.shape = .ok e := by
          have hkeeps := keeps_eq_iff.mp hkept.shape
          rw [he] at hkeeps
          exact hkeeps (asksOnly_ok e)
        exact hw.amount hB hs' hv' he' hx
      · have hx' : v'.HasContent xs := by
          have hkeeps := keeps_eq_iff.mp hkept.generator
          rw [hx] at hkeeps
          exact hkeeps (asksOnly_ok _)
        exact hw.amount hB hs' hv' he hx'

def gradedDice (c : Contents) : Except Fault (View Item) := do
  return (← threeDice.item c).grade none false (.int 0)

end

open scoped Usual in
/-- There are three places before the dice are thrown, and as many are listed after that. -/
theorem graded_dice : ∃ v v' s', GoesOn [threeDice] diceTable s' ∧
    gradedDice diceTable.contents = .ok v ∧ v.shape = .ok [.int 3] ∧
    gradedDice s'.contents = .ok v' ∧ v'.HasContent [.int 1, .int 0, .int 2] ∧
    Extents.Promises [.int 3] 3 := by
  have hdice : (Item.array (Grid.ofInts [6, 6, 6])).IsBare := by
    refine .array (fun x hx => ?_) nofun
    obtain ⟨y, hy, rfl⟩ := List.mem_map.mp hx
    obtain ⟨n, _, rfl⟩ := List.mem_map.mp hy
    exact .scalar _
  have has : AreFounded [threeDice] := by
    refine ⟨by simp, fun b hb => ?_⟩
    obtain rfl := List.mem_singleton.mp hb
    exact isHonest_const hdice.isKnown_lift
  have hmem := List.mem_singleton.mpr (rfl : threeDice = threeDice)
  have hhonest := isHonest_item hmem (has.founded _ hmem)
  have hgoes := (GoesOn.refl diceTable).asked hhonest makesArrays_item .items
  have hforetold : IsForetold [threeDice] gradedDice :=
    .one (.grade false (.int 0)) (hhonest.isSteady makesArrays_item)
  have hthrown : (diceTable.ask (asking threeDice.item .items)).2 = { diceTable with
      store := ⟨[.script []], [], [([0], [.int 4, .int 2, .int 5])]⟩ } := rfl
  have hcontent : ∃ v', gradedDice (diceTable.ask (asking threeDice.item .items)).2.contents =
      .ok v' ∧ v'.HasContent [.int 1, .int 0, .int 2] := by
    rw [hthrown]
    refine ⟨_, rfl, View.hasContent_whole.mpr ?_⟩
    cbv
  obtain ⟨v', hv', hx⟩ := hcontent
  exact ⟨_, v', _, hgoes, rfl, rfl, hv', hx,
    (promised_amount Usual.isLawful_bitLists has hforetold rfl (.refl _) hgoes rfl hv'
      (.inl ⟨rfl, hx⟩)).1⟩

end Session
end LazyApl
