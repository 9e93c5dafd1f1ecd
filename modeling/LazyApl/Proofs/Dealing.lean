import LazyApl.Platform.Usual
import LazyApl.Proofs.Contents
import LazyApl.Proofs.Sessions
/-!
# Dealing

A deal takes cards from a deck one by one. Each draw names a place of the deck that is not settled
yet, the card there is dealt, and the first card that is left goes to its place. So every draw
leaves a deck without the card that was dealt, which may be in any order: whatever is to be dealt
next is at one place of it. That makes dealing a bijection from draws to deals.
-/
namespace LazyApl

open Outcome

/-- The cards taken from a deck of which the first `i` are settled, one for each draw. The first
card that is left goes to the place of the one that is taken. -/
def taken : Nat → List Int → List Nat → List Int
  | _, _, [] => []
  | i, deck, j :: js =>
    deck.getD (j - i) 0 :: taken (i + 1) (deck.set (j - i) (deck.headD 0)).tail js

/-- The cards dealt from a deck of so many whole numbers in a row. -/
def dealt (first size : Int) (js : List Nat) : List Int :=
  taken 0 ((upTo size).map (· + first)) js

/-- Draws for the places of a deck from the `i`-th on: each names its own place or a later one. -/
def AreDraws (size i : Nat) (js : List Nat) : Prop :=
  ∀ k (h : k < js.length), i + k ≤ js[k] ∧ js[k] < size

variable {size i j c : Nat} {js : List Nat} {deck cards : List Int}

theorem areDraws_cons :
    AreDraws size i (j :: js) ↔ (i ≤ j ∧ j < size) ∧ AreDraws size (i + 1) js := by
  constructor
  · intro h
    refine ⟨h 0 (Nat.succ_pos _), fun k hk => ?_⟩
    have hk' := h (k + 1) (by simpa using hk)
    rw [List.getElem_cons_succ] at hk'
    omega
  · rintro ⟨hj, h⟩ k hk
    cases k with
    | zero => simpa using hj
    | succ k =>
        have hk' := h k (by simpa using hk)
        rw [List.getElem_cons_succ]
        omega

theorem length_taken (i : Nat) (deck : List Int) (js : List Nat) :
    (taken i deck js).length = js.length := by
  induction js generalizing i deck with
  | nil => rfl
  | cons j js ih => simp [taken, ih]

theorem rest_spec (hd : deck.Nodup) (hs : i + deck.length = size) {r : Nat}
    (hr : r < deck.length) {rest : List Int} (h : rest = (deck.set r (deck.headD 0)).tail) :
    rest.Nodup ∧ i + 1 + rest.length = size ∧
      ∀ card, card ∈ rest ↔ card ∈ deck ∧ card ≠ deck[r] := by
  have hperm : rest.Perm (deck.erase deck[r]) := by
    rw [h, hd.erase_getElem r hr]
    cases deck with
    | nil => simp at hr
    | cons card rest =>
        cases r with
        | zero => simp
        | succ r => exact List.set_perm_cons_eraseIdx (Nat.lt_of_succ_lt_succ hr) card
  have hlength := List.length_erase_of_mem (List.getElem_mem hr)
  refine ⟨hperm.nodup_iff.mpr (hd.erase _), by rw [hperm.length_eq]; omega, fun card => ?_⟩
  rw [hperm.mem_iff, hd.mem_erase_iff, and_comm]

theorem taken_cons (hr : j - i < deck.length) (js : List Nat) : taken i deck (j :: js) =
    deck[j - i] :: taken (i + 1) (deck.set (j - i) (deck.headD 0)).tail js := by
  rw [taken, List.getD_eq_getElem _ _ hr]

theorem taken_spec (hd : deck.Nodup) (hs : i + deck.length = size) (hj : AreDraws size i js) :
    (taken i deck js).Nodup ∧ taken i deck js ⊆ deck := by
  induction js generalizing i deck with
  | nil => simp [taken]
  | cons j js ih =>
      obtain ⟨hplace, hjs⟩ := areDraws_cons.mp hj
      have hr : j - i < deck.length := by omega
      obtain ⟨hnodup, hlength, hmem⟩ := rest_spec hd hs hr rfl
      obtain ⟨htaken, hsub⟩ := ih hnodup hlength hjs
      rw [taken_cons hr, List.nodup_cons, List.cons_subset]
      exact ⟨⟨fun h => ((hmem _).mp (hsub h)).2 rfl, htaken⟩, List.getElem_mem hr,
        fun card h => ((hmem card).mp (hsub h)).1⟩

/-- The cards tell where they were. -/
theorem taken_injective (hd : deck.Nodup) (hs : i + deck.length = size) {js' : List Nat}
    (hj : AreDraws size i js) (hj' : AreDraws size i js')
    (h : taken i deck js = taken i deck js') : js = js' := by
  induction js generalizing i deck js' with
  | nil =>
      cases js' with
      | nil => rfl
      | cons j' js' => cases h
  | cons j js ih =>
      cases js' with
      | nil => cases h
      | cons j' js' =>
          obtain ⟨hplace, hjs⟩ := areDraws_cons.mp hj
          obtain ⟨hplace', hjs'⟩ := areDraws_cons.mp hj'
          have hr : j - i < deck.length := by omega
          have hr' : j' - i < deck.length := by omega
          rw [taken_cons hr, taken_cons hr'] at h
          obtain ⟨hcard, hrest⟩ := List.cons.inj h
          obtain rfl : j = j' := by
            have hsame := hd.getElem_inj_iff.mp hcard
            omega
          obtain ⟨hnodup, hlength, _⟩ := rest_spec hd hs hr rfl
          rw [ih hnodup hlength hjs hjs' hrest]

theorem exists_taken (hd : deck.Nodup) (hs : i + deck.length = size) (hc : cards.Nodup)
    (hsub : cards ⊆ deck) : ∃ js, AreDraws size i js ∧ taken i deck js = cards := by
  induction cards generalizing i deck with
  | nil => exact ⟨[], nofun, rfl⟩
  | cons card cards ih =>
      obtain ⟨hcard, hcards⟩ := List.cons_subset.mp hsub
      obtain ⟨hfirst, hcards'⟩ := List.nodup_cons.mp hc
      obtain ⟨r, hr, rfl⟩ := List.getElem_of_mem hcard
      obtain ⟨hnodup, hlength, hmem⟩ := rest_spec hd hs hr rfl
      obtain ⟨js, hjs, htaken⟩ := ih hnodup hlength hcards' fun x hx =>
        (hmem x).mpr ⟨hcards hx, fun h => hfirst (h ▸ hx)⟩
      refine ⟨(i + r) :: js, areDraws_cons.mpr ⟨by omega, hjs⟩, ?_⟩
      rw [taken, Nat.add_sub_cancel_left, List.getD_eq_getElem _ _ hr, htaken]

theorem bijOn_taken (hd : deck.Nodup) (hs : i + deck.length = size) :
    Set.BijOn (taken i deck) {js | js.length = c ∧ AreDraws size i js}
      {cards | cards.length = c ∧ cards.Nodup ∧ cards ⊆ deck} := by
  refine ⟨?_, ?_, ?_⟩
  · rintro js ⟨hlength, hjs⟩
    exact ⟨(length_taken i deck js).trans hlength, taken_spec hd hs hjs⟩
  · rintro js ⟨_, hjs⟩ js' ⟨_, hjs'⟩ h
    exact taken_injective hd hs hjs hjs' h
  · rintro cards ⟨hlength, hnodup, hsub⟩
    obtain ⟨js, hjs, rfl⟩ := exists_taken hd hs hnodup hsub
    exact ⟨js, ⟨(length_taken i deck js).symm.trans hlength, hjs⟩, rfl⟩

theorem bijOn_dealt (first : Int) (size c : Nat) :
    Set.BijOn (dealt first size) {js | js.length = c ∧ AreDraws size 0 js}
      {cards | cards.length = c ∧ cards.Nodup ∧ ∀ x ∈ cards, first ≤ x ∧ x < first + size} := by
  have hinj : Function.Injective (· + first) := add_left_injective first
  have hdeck : ((upTo size).map (· + first)).Nodup := by
    refine List.Nodup.map hinj ?_
    exact List.Nodup.map Nat.cast_injective List.nodup_range
  have hsub : ∀ cards : List Int, cards ⊆ (upTo size).map (· + first) ↔
      ∀ x ∈ cards, first ≤ x ∧ x < first + size := by
    intro cards
    refine forall₂_congr fun x _ => ?_
    simp only [List.mem_map, mem_upTo]
    constructor
    · rintro ⟨k, hk, rfl⟩
      omega
    · intro hx
      exact ⟨x - first, by omega, by omega⟩
  have hlength : 0 + ((upTo size).map (· + first)).length = size := by simp
  have hbij : Set.BijOn (dealt first size) _ _ := bijOn_taken (c := c) hdeck hlength
  simpa only [hsub] using hbij

namespace Twister

theorem belowWith_lt {bound : Nat} (hb : 0 < bound) (k tries : Nat) (t : Twister) :
    (belowWith bound k tries t).1 < bound := by
  induction tries generalizing t with
  | zero => exact Nat.mod_lt _ hb
  | succ tries ih =>
      rw [belowWith]
      dsimp only
      split
      · assumption
      · exact ih _

theorem below_lt (t : Twister) {bound : Nat} (hb : 0 < bound) : (t.below bound).1 < bound :=
  belowWith_lt hb _ _ t

end Twister

namespace Source

variable {s s' s'' : Source}

/-- A source delivers draws for the places of a deck from the `i`-th on, one after the other. -/
inductive Delivers (size : Nat) : Nat → List Nat → Source → Source → Prop
  | nil (i : Nat) (s : Source) : Delivers size i [] s s
  | cons {i r : Nat} {js : List Nat} {s s' s'' : Source} (h : s.below (size - i) = (.ok r, s'))
      (hjs : Delivers size (i + 1) js s' s'') : Delivers size i ((i + r) :: js) s s''

theorem below_lt {bound r : Nat} (hb : 0 < bound) (h : s.below bound = (.ok r, s')) :
    r < bound := by
  cases s with
  | script draws =>
      cases draws with
      | nil => cases h
      | cons v rest =>
          cases h
          exact Nat.mod_lt v hb
  | seeded t =>
      simp only [below, Prod.mk.injEq, Except.ok.injEq] at h
      rw [← h.1]
      exact t.below_lt hb

theorem Delivers.areDraws (h : Delivers size i js s s') (hl : i + js.length ≤ size) :
    AreDraws size i js := by
  induction h with
  | nil i s => exact nofun
  | @cons i r js s s' s'' h hjs ih =>
      rw [List.length_cons] at hl
      have hr := below_lt (by omega) h
      exact areDraws_cons.mpr ⟨by omega, ih (by omega)⟩

theorem exists_delivers (h : AreDraws size i js) : ∃ draws, Delivers size i js (script draws)
    (script []) := by
  induction js generalizing i with
  | nil => exact ⟨[], .nil i _⟩
  | cons j js ih =>
      obtain ⟨hplace, hjs⟩ := areDraws_cons.mp h
      obtain ⟨draws, hdraws⟩ := ih hjs
      refine ⟨(j - i) :: draws, ?_⟩
      have hbelow : (script ((j - i) :: draws)).below (size - i) = (.ok (j - i), script draws) := by
        rw [below, Nat.mod_eq_of_lt (by omega)]
      have hd := Delivers.cons hbelow hdraws
      rwa [show i + (j - i) = j by omega] at hd

theorem toList_exchange {deck : Array Int} {done rest : List Int} (h : deck.toList = done ++ rest)
    {r : Nat} (hr : r < rest.length) :
    (exchange deck done.length (done.length + r)).toList =
      done ++ [rest.getD r 0] ++ (rest.set r (rest.headD 0)).tail := by
  have hget : ∀ k, deck.getD (done.length + k) 0 = rest.getD k 0 := by
    intro k
    rw [Array.getD_eq_getD_getElem?, ← Array.getElem?_toList, h,
      List.getElem?_append_right (by omega), Nat.add_sub_cancel_left, List.getD_eq_getElem?_getD]
  unfold exchange
  rw [hget r, ← Nat.add_zero done.length, hget 0]
  simp only [Array.toList_setIfInBounds, h]
  cases rest with
  | nil => simp at hr
  | cons card rest =>
      cases r with
      | zero => simp
      | succ r => simp

theorem shuffle_of_delivers (h : Delivers size i js s s') {deck : Array Int}
    {done rest : List Int} (hdeck : deck.toList = done ++ rest) (hi : done.length = i)
    (hs : i + rest.length = size) (hl : js.length ≤ rest.length) :
    ∃ deck' left, shuffle size js.length i deck s = (.ok deck', s') ∧
      deck'.toList = done ++ taken i rest js ++ left := by
  induction h generalizing deck done rest with
  | nil i s => exact ⟨deck, rest, rfl, by simpa [taken] using hdeck⟩
  | @cons i r js s s' s'' h hjs ih =>
      subst hi
      rw [List.length_cons] at hl
      have hr := below_lt (by omega) h
      have hex := toList_exchange hdeck (r := r) (by omega)
      obtain ⟨deck', left, hshuffle, hdeck'⟩ := ih hex (by simp) (by simp; omega) (by simp; omega)
      refine ⟨deck', left, ?_, ?_⟩
      · rw [List.length_cons, shuffle, h]
        exact hshuffle
      · rw [hdeck', taken, Nat.add_sub_cancel_left]
        simp

theorem draw_deal (h : Delivers size 0 js s s') (hl : js.length ≤ size) (first : Int) :
    s.draw (.deal first js.length size) = (.ok ((dealt first size js).map .int), s') := by
  have hdeck : ((upTo size).map (· + first)).toArray.toList =
      [] ++ (upTo size).map (· + first) := by simp
  obtain ⟨deck', left, hshuffle, hdeck'⟩ := shuffle_of_delivers h hdeck rfl (by simp)
    (by simpa using hl)
  unfold draw
  simp only [Int.toNat_natCast, hshuffle, Except.map]
  rw [hdeck', List.nil_append, List.take_left' (length_taken _ _ _)]
  rfl

end Source

theorem Outcome.Keeps.count_eq {u v : Except Fault Item} (h : Keeps Item.KeptAs u v) {x : Item}
    (hx : u = .ok x) {k : Int} {role : String} (hk : x.count role = .ok k) :
    ∃ y, v = .ok y ∧ y.count role = .ok k := by
  subst hx
  cases h with
  | ok hxy =>
      have hsame := keeps_eq_iff.mp (hxy.count role)
      rw [hk] at hsame
      exact ⟨_, rfl, hsame (asksOnly_ok k)⟩

namespace RandomArray

variable {as : List RandomArray} {a : RandomArray} {few many : Contents → Except Fault Item}
  {x y : Item} {c n : Nat} {o : Int} {contents : Contents}

variable [Platform]

theorem asking_items_of_none {w : View Item} (hw : a.array contents = .ok w)
    (hnone : contents a.label = none) {d : Draw} (hd : a.draw contents = .ok d) :
    asking a.item .items contents = .error (.undrawn a.label a.source d) := by
  have hgen : w.generator = .error (.undrawn a.label a.source d) := by
    rw [(isMade_of_array hw).generator, content_of_none hnone, hd]
    rfl
  have hitems : (Item.view w).items = .error (.undrawn a.label a.source d) := by
    have hof : (Item.view w).generatorOf = w.generator := rfl
    simp only [Item.items, hof, hgen]
    rfl
  simp only [asking, item, hw, Functor.map, Except.map, bind, Except.bind, Question.ask, hitems]

theorem asking_items_of_no_draw {w : View Item} (hw : a.array contents = .ok w)
    (hnone : contents a.label = none) {e : Fault} (hd : a.draw contents = .error e) :
    asking a.item .items contents = .error e := by
  have hgen : w.generator = .error e := by
    rw [(isMade_of_array hw).generator, content_of_none hnone, hd]
    rfl
  have hitems : (Item.view w).items = .error e := by
    have hof : (Item.view w).generatorOf = w.generator := rfl
    simp only [Item.items, hof, hgen]
    rfl
  simp only [asking, item, hw, Functor.map, Except.map, bind, Except.bind, Question.ask, hitems]

theorem deck_int (few many o : Int) : Item.deck few many (.int o) =
    Platform.room.times 1 many >>= fun _ => .ok (.deal o few many) := rfl

theorem draw_deal (hgame : a.game = .deal few many) (ho : a.origin = .int o)
    (hx : few contents = .ok x) (hy : many contents = .ok y)
    (hc : x.count "left argument of ?" = .ok c) (hn : y.count "right argument of ?" = .ok n)
    (hcn : c ≤ n) :
    a.draw contents = Platform.room.times 1 n >>= fun _ => .ok (.deal o c n) := by
  have hnk : ¬ (n : Int) < c := by omega
  refine Eq.trans ?_ (deck_int c n o)
  simp only [draw, hgame, hx, hy, hc, hn, bind, Except.bind, if_neg hnk, ho]

theorem exists_array (hgame : a.game = .deal few many) (hx : few contents = .ok x)
    (hy : many contents = .ok y) (hc : x.count "left argument of ?" = .ok c)
    (hn : y.count "right argument of ?" = .ok n) (hcn : c ≤ n) :
    ∃ w, a.array contents = .ok w ∧
      x.deal y a.origin ⟨a.label, a.source, contents⟩ = .ok w := by
  have hnk : ¬ (n : Int) < c := by omega
  simp only [array, hgame, hx, hy, Item.deal, hc, hn, bind, Except.bind, if_neg hnk]
  exact ⟨_, rfl, rfl⟩

/-- A deal that has its content hands it out. -/
theorem asking_items (hgame : a.game = .deal few many) (hx : few contents = .ok x)
    (hy : many contents = .ok y) (hc : x.count "left argument of ?" = .ok c)
    (hn : y.count "right argument of ?" = .ok n) (hcn : c ≤ n) {cards : List Int}
    (hcards : contents a.label = some (cards.map .int)) (hl : cards.length = c) :
    asking a.item .items contents = .ok (.item (.ints cards)) := by
  obtain ⟨w, harray, hw⟩ := exists_array hgame hx hy hc hn hcn
  obtain ⟨hmade, k, m, hk, _, hshape, hetype⟩ := isMade_deal hgame hx hy hw
  rw [hc] at hk
  obtain rfl := Except.ok.inj hk
  have hitems : (Item.view w).items = .ok (cards.map Item.int) := by
    refine View.HasContent.items (t := [c]) ?_ hshape ?_ ?_
    · rw [View.HasContent, hmade.generator, content_of_some hcards, List.map_map]
      rfl
    · simp [Shape.size, hl]
    · intro z hz
      obtain ⟨card, -, rfl⟩ := List.mem_map.mp hz
      rfl
  have hitem : a.item contents = .ok (.view w) := by
    rw [item, harray]
    rfl
  have hexposed : (Item.list (cards.map Item.int)).exposed = .ok (.ints cards) := by
    refine Item.IsBare.exposed_eq (.list fun z hz => ?_)
    obtain ⟨card, -, rfl⟩ := List.mem_map.mp hz
    exact .scalar _
  simp only [asking, hitem, Question.ask, hitems, hexposed, bind, Except.bind]
  rfl

end RandomArray

namespace Session

open RandomArray

variable {as : List RandomArray} {a : RandomArray} {few many : Contents → Except Fault Item}
  {s : Session} {x y : Item} {c n : Nat} {o : Int}

/-- Dealing is a bijection from draws to deals: whatever draws there may be for some cards out of
a deck, they give different cards of the deck, no two of them the same, and all of these. A source
can deliver just these draws, and where the source of a deal delivers them, the deal answers with
the cards that they give, whatever the counts are made of, if there is room for the deck. If there
is none, the deal is refused for that. -/
theorem deal_bijective [Platform] (has : AreFounded as) (ha : a ∈ as)
    (hgame : a.game = .deal few many) (ho : a.origin = .int o) (hfits : Fits as s.contents)
    (hfresh : s.contents a.label = none) (hoperations : 0 < s.operations)
    (hx : few s.contents = .ok x) (hy : many s.contents = .ok y)
    (hc : x.count "left argument of ?" = .ok c) (hn : y.count "right argument of ?" = .ok n)
    (hcn : c ≤ n) :
    Set.BijOn (dealt o n) {js | js.length = c ∧ AreDraws n 0 js}
      {cards | cards.length = c ∧ cards.Nodup ∧ ∀ card ∈ cards, o ≤ card ∧ card < o + n} ∧
    (∀ js, js.length = c →
      (AreDraws n 0 js ↔ ∃ before after, Source.Delivers n 0 js before after)) ∧
    (∀ js after, js.length = c →
      Source.Delivers n 0 js (s.store.source a.label a.source) after →
      ∀ room, Platform.room.times 1 n = .ok room →
        ∃ s', s.ask (asking a.item .items) = (.ok (.item (.ints (dealt o n js))), s') ∧
          s'.contents a.label = some ((dealt o n js).map .int)) ∧
    ∀ e, Platform.room.times 1 n = .error e → (s.ask (asking a.item .items)).1 = .error e := by
  have hdraw := draw_deal hgame ho hx hy hc hn hcn
  obtain ⟨w, hw, _⟩ := exists_array hgame hx hy hc hn hcn
  refine ⟨bijOn_dealt o n c, fun js hl => ⟨fun h => ?_, ?_⟩, ?_, fun e hroom => ?_⟩
  · obtain ⟨draws, hdraws⟩ := Source.exists_delivers h
    exact ⟨_, _, hdraws⟩
  · rintro ⟨before, after, h⟩
    exact h.areDraws (by omega)
  · intro js after hl hdelivers room hroom
    subst hl
    have hd : a.draw s.contents = .ok (.deal o js.length n) := by
      rw [hdraw, hroom]
      rfl
    have hasked := asking_items_of_none hw hfresh hd
    obtain ⟨store, hdrawn, hanswer⟩ := Store.answer_of_draw hasked
      (Source.draw_deal hdelivers (by omega) o) (s.operations - 1)
    rw [Nat.sub_add_cancel hoperations] at hanswer
    have hcontents := Store.contents_of_drawn hdrawn
    have hcards : store.contents a.label = some ((dealt o n js).map .int) := by
      rw [hcontents, if_pos rfl]
    -- the counts are read again from contents that have grown by the deal, and are the same
    obtain ⟨hgrows, _⟩ := grows_of_wants has hfits ⟨hfresh, a, ha, rfl, rfl, hd⟩ hcontents
    obtain ⟨hfew, hmany⟩ := (has.founded a ha).of_deal hgame
    obtain ⟨x', hx', hc'⟩ := (hfew.keeps _ _ hgrows).count_eq hx hc
    obtain ⟨y', hy', hn'⟩ := (hmany.keeps _ _ hgrows).count_eq hy hn
    have hitems := asking_items hgame hx' hy' hc' hn' hcn hcards (length_taken _ _ _)
    have hknown : IsKnown (asking a.item .items store.contents) := hitems ▸ asksOnly_ok _
    refine ⟨{ s with store := store }, ?_, hcards⟩
    unfold ask
    rw [hanswer, Store.answer_of_isKnown hknown, hitems]
  · have hd : a.draw s.contents = .error e := by
      rw [hdraw, hroom]
      rfl
    have hasked := asking_items_of_no_draw hw hfresh hd
    have hknown : IsKnown (asking a.item .items s.contents) := by
      have htimes : IsKnown (Platform.room.times 1 n) := Room.asksOnly_times Platform.room 1 n
      rw [hroom] at htimes
      exact hasked ▸ asksOnly_error.mpr (asksOnly_error.mp htimes)
    unfold ask
    rw [Store.answer_of_isKnown hknown]
    exact hasked

/-- Two cards out of three, counted from one. -/
def twoCards : RandomArray :=
  ⟨[0], .shared 0, .int 1, .deal (fun _ => .ok (.int 2)) fun _ => .ok (.int 3)⟩

def cardTable : Session :=
  { empty with store := ⟨[.script [2, 0]], [], []⟩, operations := 1 }

open scoped Usual in
/-- The last card is dealt, the first one goes to its place, and the second one is dealt. -/
theorem two_of_three : Set.BijOn (dealt 1 (3 : Nat)) {js | js.length = 2 ∧ AreDraws 3 0 js}
      {cards | cards.length = 2 ∧ cards.Nodup ∧ ∀ card ∈ cards, 1 ≤ card ∧ card < 1 + (3 : Nat)} ∧
    ∃ s', cardTable.ask (asking twoCards.item .items) = (.ok (.item (.ints [3, 2])), s') := by
  have has : AreFounded [twoCards] := by
    refine ⟨by simp, fun b hb => ?_⟩
    obtain rfl := List.mem_singleton.mp hb
    exact ⟨isHonest_const (Item.IsBare.scalar _).isKnown_lift,
      isHonest_const (Item.IsBare.scalar _).isKnown_lift⟩
  obtain ⟨hbij, _, hdeal, _⟩ := deal_bijective (s := cardTable) (c := 2) (n := 3) has
    (List.mem_singleton.mpr rfl) rfl rfl (fits_of_fresh rfl) rfl (Nat.lt_succ_self 0) rfl rfl rfl
    rfl (by omega)
  have hdelivers : Source.Delivers 3 0 [2, 1] (.script [2, 0]) (.script []) :=
    .cons (r := 2) rfl (.cons (r := 0) rfl (.nil 2 _))
  obtain ⟨s', hs', _⟩ := hdeal [2, 1] _ rfl hdelivers 3 rfl
  exact ⟨hbij, s', hs'⟩

/-- No card out of a deck that no list can be as long as. -/
def noCards : RandomArray :=
  ⟨[0], .shared 0, .int 0, .deal (fun _ => .ok (.int 0)) fun _ => .ok (.int (2 ^ 63))⟩

open scoped Usual in
/-- Nothing is drawn for no cards, and still the deck is made of which they are dealt. -/
theorem deal_beyond_room : AreDraws (2 ^ 63) 0 [] ∧ dealt 0 (2 ^ 63 : Nat) [] = [] ∧
    (cardTable.ask (asking noCards.item .items)).1 = .error .overflow :=
  ⟨nofun, rfl, rfl⟩

end Session
end LazyApl
