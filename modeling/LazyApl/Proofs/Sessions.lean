import LazyApl.Platform.Usual
import LazyApl.Proofs.RandomArrays
import Mathlib
/-!
# Contents are drawn once

A question of a session is asked again after each content that it had to wait for. Each such step
draws for an array that has no content yet, and what has been drawn stays. So from the first
question on that a random array answers with its content, no question about it takes a number from
any source, and every answer is the one that it would have given then.
-/
namespace LazyApl

open Outcome

namespace RandomArray

variable {as : List RandomArray} {c c' c'' : Contents}

variable [Platform]

/-- The random arrays of a session: each has a label of its own, and its operands are honest. -/
structure AreFounded (as : List RandomArray) : Prop where
  labels : ∀ a ∈ as, ∀ b ∈ as, a.label = b.label → a = b
  founded : ∀ a ∈ as, a.IsFounded as

theorem Grows.refl (as : List RandomArray) (c : Contents) : Grows as c c :=
  ⟨fun _ _ h => h, fun _ _ h h' => absurd h h'⟩

theorem Grows.trans (has : AreFounded as) (h : Grows as c c') (h' : Grows as c' c'') :
    Grows as c c'' := by
  refine ⟨fun label xs hx => h'.kept label xs (h.kept label xs hx), fun a ha hc hc'' hk => ?_⟩
  by_cases hc' : c' a.label = none
  · have hdraw := keeps_eq_iff.mp (keeps_draw (has.founded a ha) h) hk
    rw [← hdraw] at hk ⊢
    exact h'.drawn a ha hc' hc'' hk
  · exact h.drawn a ha hc hc' hk

theorem Fits.grows (has : AreFounded as) (h : Fits as c) (hg : Grows as c c')
    (hnew : ∀ a ∈ as, c a.label = none → c' a.label ≠ none → ∃ d, a.draw c = .ok d) :
    Fits as c' := by
  intro a ha hc'
  have hd : ∃ d, a.draw c = .ok d := by
    by_cases hc : c a.label = none
    · exact hnew a ha hc hc'
    · exact h a ha hc
  obtain ⟨d, hd⟩ := hd
  have hkeeps := keeps_eq_iff.mp (keeps_draw (has.founded a ha) hg)
  rw [hd] at hkeeps
  exact ⟨d, hkeeps (asksOnly_ok d)⟩

/-- What is made of random arrays, by whatever operations. -/
def madeOf {β : Type} (bs : List RandomArray) (F : List Item → Except Fault β)
    (c : Contents) :
    Except Fault β :=
  (bs.mapM fun b => b.item c) >>= F

theorem madeOf_eq {β : Type} (has : AreFounded as) (hg : Grows as c c') (hf : Fits as c)
    {bs : List RandomArray} (hbs : ∀ b ∈ bs, b ∈ as ∧ c b.label ≠ none)
    (F : List Item → Except Fault β) : madeOf bs F c' = madeOf bs F c := by
  have hitems : ∀ b ∈ bs, b.item c' = b.item c := by
    intro b hb
    obtain ⟨hmem, hne⟩ := hbs b hb
    obtain ⟨ss, hss⟩ := Option.ne_none_iff_exists'.mp hne
    rw [item, item, array_eq hmem (has.founded b hmem) hg hf hss]
  unfold madeOf
  rw [mapM_congr hitems]

/-- A content that was wanted is there. -/
theorem grows_of_wants (has : AreFounded as) (h : Fits as c) {label : Label} {source : SourceRef}
    {d : Draw} (hw : Wants as c label source d) {xs : List Scalar}
    (hc' : ∀ l, c' l = if l = label then some xs else c l) : Grows as c c' ∧ Fits as c' := by
  obtain ⟨hnone, b, hb, rfl, _, hd⟩ := hw
  have hnew : ∀ a ∈ as, c a.label = none → c' a.label ≠ none → ∃ d, a.draw c = .ok d := by
    intro a ha hc hc''
    rw [hc'] at hc''
    split at hc''
    · rename_i hl
      rw [has.labels a ha b hb hl]
      exact ⟨d, hd⟩
    · exact absurd hc hc''
  have hg : Grows as c c' := by
    refine ⟨fun l ys hl => ?_, fun a ha hc hc'' _ => hnew a ha hc hc''⟩
    rw [hc', if_neg]
    · exact hl
    · rintro rfl
      rw [hnone] at hl
      cases hl
  exact ⟨hg, h.grows has hg hnew⟩

end RandomArray

namespace Store

variable {s s' : Store} {label : Label} {ref : SourceRef} {d : Draw} {α : Type}
  {X : Contents → Except Fault α}

theorem drawn_draw (s : Store) (label : Label) (ref : SourceRef) (d : Draw) :
    (∃ e s', s.draw label ref d = (.error e, s') ∧ s'.drawn = s.drawn) ∨
      ∃ xs s', s.draw label ref d = (.ok (), s') ∧ s'.drawn = (label, xs) :: s.drawn := by
  have hset : ∀ new, (s.setSource label new ref).drawn = s.drawn := by
    intro new
    cases ref <;> rfl
  unfold draw
  cases (s.source label ref).draw d with
  | mk result new =>
      cases result with
      | error e => exact .inl ⟨e, _, rfl, hset new⟩
      | ok xs => exact .inr ⟨xs, _, rfl, by rw [← hset new]⟩

theorem contents_of_drawn {xs : List Scalar} (h : s'.drawn = (label, xs) :: s.drawn) (l : Label) :
    s'.contents l = if l = label then some xs else s.contents l := by
  simp only [contents, h, List.lookup_cons]
  by_cases hl : l = label
  · simp [hl]
  · rw [if_neg hl, beq_eq_false_iff_ne.mpr hl]

theorem contents_congr (h : s'.drawn = s.drawn) : s'.contents = s.contents := by
  unfold contents
  rw [h]

theorem not_mem_of_contents (h : s.contents label = none) : label ∉ s.drawn.map Prod.fst := by
  intro hmem
  obtain ⟨entry, hentry, rfl⟩ := List.mem_map.mp hmem
  have hne := List.lookup_eq_none_iff.mp h entry hentry
  simp at hne

/-- A question that wants nothing is answered without a draw. -/
theorem answer_of_isKnown (h : IsKnown (X s.contents)) (limit : Nat) :
    answer X limit s = (X s.contents, s) := by
  cases limit with
  | zero => rfl
  | succ limit =>
      unfold answer
      split
      · rename_i label ref d hx
        exact (h.requests label ref d hx).elim
      · rfl

theorem answer_succ (limit : Nat) (h : X s.contents = .error (.undrawn label ref d)) :
    (∃ e s', s'.drawn = s.drawn ∧ answer X (limit + 1) s = (.error e, s')) ∨
      ∃ xs s', s'.drawn = (label, xs) :: s.drawn ∧
        answer X (limit + 1) s = answer X limit s' := by
  rw [answer, h]
  dsimp only
  rcases drawn_draw s label ref d with ⟨e, s', hd, hs⟩ | ⟨xs, s', hd, hs⟩
  · exact .inl ⟨e, s', hs, by rw [hd]⟩
  · exact .inr ⟨xs, s', hs, by rw [hd]⟩

/-- A question whose draw succeeds is asked again. -/
theorem answer_of_draw (h : X s.contents = .error (.undrawn label ref d))
    {xs : List Scalar}
    {after : Source} (hd : (s.source label ref).draw d = (.ok xs, after)) (limit : Nat) :
    ∃ s', s'.drawn = (label, xs) :: s.drawn ∧ answer X (limit + 1) s = answer X limit s' := by
  obtain ⟨s', hs', hdraw⟩ : ∃ s', s'.drawn = (label, xs) :: s.drawn ∧
      s.draw label ref d = (.ok (), s') := by
    unfold draw
    rw [hd]
    exact ⟨_, by cases ref <;> rfl, rfl⟩
  refine ⟨s', hs', ?_⟩
  rw [answer, h]
  simp only [hdraw]

theorem answer_of_failed_draw (h : X s.contents = .error (.undrawn label ref d)) {e : Fault}
    {after : Source} (hd : (s.source label ref).draw d = (.error e, after)) (limit : Nat) :
    ∃ s', s'.drawn = s.drawn ∧ answer X (limit + 1) s = (.error e, s') := by
  obtain ⟨s', hs', hdraw⟩ : ∃ s', s'.drawn = s.drawn ∧ s.draw label ref d = (.error e, s') := by
    unfold draw
    rw [hd]
    exact ⟨_, by cases ref <;> rfl, rfl⟩
  refine ⟨s', hs', ?_⟩
  rw [answer, h]
  simp only [hdraw]

theorem eq_of_answer {limit : Nat} {x : α} (h : (answer X limit s).1 = .ok x) :
    X (answer X limit s).2.contents = .ok x := by
  induction limit generalizing s with
  | zero => exact h
  | succ limit ih =>
      rcases isKnown_or (X s.contents) with hk | ⟨label, ref, d, hx⟩
      · rw [answer_of_isKnown hk] at h ⊢
        exact h
      · rcases answer_succ limit hx with ⟨e, s', _, hs⟩ | ⟨xs, s', _, hs⟩
        · rw [hs] at h
          cases h
        · rw [hs] at h ⊢
          exact ih h

open RandomArray

variable {as : List RandomArray}

variable [Platform]

theorem grows_answer (has : AreFounded as) (hX : ∀ c, AsksOnly (Wants as c) (X c))
    (hfits : Fits as s.contents) (limit : Nat) :
    Grows as s.contents (answer X limit s).2.contents ∧
      Fits as (answer X limit s).2.contents := by
  induction limit generalizing s with
  | zero => exact ⟨.refl as _, hfits⟩
  | succ limit ih =>
      rcases isKnown_or (X s.contents) with hk | ⟨label, ref, d, hx⟩
      · rw [answer_of_isKnown hk]
        exact ⟨.refl as _, hfits⟩
      · have hwants := (hX s.contents).requests label ref d hx
        rcases answer_succ limit hx with ⟨e, s', hs, ha⟩ | ⟨xs, s', hs, ha⟩
        · rw [ha, contents_congr hs]
          exact ⟨.refl as _, hfits⟩
        · obtain ⟨hg, hf⟩ := grows_of_wants has hfits hwants (contents_of_drawn hs)
          rw [ha]
          exact ⟨hg.trans has (ih hf).1, (ih hf).2⟩

theorem nodup_answer (hX : ∀ c, AsksOnly (Wants as c) (X c))
    (h : (s.drawn.map Prod.fst).Nodup) (limit : Nat) :
    ((answer X limit s).2.drawn.map Prod.fst).Nodup := by
  induction limit generalizing s with
  | zero => exact h
  | succ limit ih =>
      rcases isKnown_or (X s.contents) with hk | ⟨label, ref, d, hx⟩
      · rw [answer_of_isKnown hk]
        exact h
      · have hwants := (hX s.contents).requests label ref d hx
        rcases answer_succ limit hx with ⟨e, s', hs, ha⟩ | ⟨xs, s', hs, ha⟩
        · rw [ha, hs]
          exact h
        · rw [ha]
          apply ih
          rw [hs, List.map_cons]
          exact List.nodup_cons.mpr ⟨not_mem_of_contents hwants.1, h⟩

end Store

namespace Session

open RandomArray

variable {as : List RandomArray} {s s' : Session} {a : RandomArray} {p q : Question}
  {x : Contents → Except Fault Item}

def contents (s : Session) : Contents := s.store.contents

theorem ask_of_isKnown {β : Type} {X : Contents → Except Fault β} (h : IsKnown (X s.contents)) :
    s.ask X = (X s.contents, s) := by
  unfold Session.ask
  rw [Store.answer_of_isKnown h]
  rfl

section

variable [Platform]

/-- A session goes on: anything is asked that wants nothing but the contents of its random arrays,
or something is done that draws nothing. -/
inductive GoesOn (as : List RandomArray) : Session → Session → Prop
  | refl (s : Session) : GoesOn as s s
  | ask {s s' : Session} {α : Type} (h : GoesOn as s s') (X : Contents → Except Fault α)
      (hX : ∀ c, AsksOnly (Wants as c) (X c)) : GoesOn as s (s'.ask X).2
  | other {s s' s'' : Session} (h : GoesOn as s s') (hd : s''.store.drawn = s'.store.drawn) :
      GoesOn as s s''

theorem GoesOn.grows (has : AreFounded as) (h : GoesOn as s s')
    (hf : Fits as s.contents) :
    Grows as s.contents s'.contents ∧ Fits as s'.contents := by
  induction h with
  | refl => exact ⟨.refl as _, hf⟩
  | ask _ X hX ih =>
      obtain ⟨hg, hf'⟩ := ih
      obtain ⟨hg', hf''⟩ := Store.grows_answer has hX hf' _
      exact ⟨hg.trans has hg', hf''⟩
  | other _ hd ih =>
      unfold contents at ih ⊢
      rw [Store.contents_congr hd]
      exact ih

theorem GoesOn.asked (h : GoesOn as s s') (hx : IsHonest as x) (hm : MakesArrays x)
    (hp : p.IsBasic) : GoesOn as s (s'.ask (asking x p)).2 :=
  h.ask _ (hx.asksOnly_asking hm hp)

theorem goesOn_make (s : Session) (e : Expression) (h : ∀ c, AsksOnly (Wants as c)
    (e.evaluate ⟨arrays c s.definitions, s.sources, s.configs⟩ c [s.expressions])) :
    GoesOn as s (s.make e).2 := by
  have hafter : GoesOn as s { s with
      expressions := s.expressions + 1
      operations := s.operations + e.operations } := .other (.refl s) rfl
  exact hafter.ask _ h

theorem goesOn_name (s : Session) (name : String) (e : Expression)
    (h : ∀ c, AsksOnly (Wants as c)
      (e.evaluate ⟨arrays c s.definitions, s.sources, s.configs⟩ c [s.expressions])) :
    GoesOn as s (s.name name e).2 := by
  have hmake := goesOn_make s e h
  unfold Session.name
  cases hm : s.make e with
  | mk result after =>
      rw [hm] at hmake
      cases result with
      | error e => exact hmake
      | ok d => exact hmake.other rfl

theorem GoesOn.nodup (h : GoesOn as s s') (hn : (s.store.drawn.map Prod.fst).Nodup) :
    (s'.store.drawn.map Prod.fst).Nodup := by
  induction h with
  | refl => exact hn
  | ask _ X hX ih => exact Store.nodup_answer hX ih _
  | other _ hd ih =>
      rw [hd]
      exact ih

/-- A question that has been answered without wanting a content is answered the same ever after,
and takes nothing from any source. -/
theorem GoesOn.ask_eq (has : AreFounded as) (h : GoesOn as s s') (hf : Fits as s.contents)
    (hx : IsHonest as x) (hm : MakesArrays x) (hp : p.IsBasic)
    (hk : IsKnown (asking x p s.contents)) :
    s'.ask (asking x p) = ((s.ask (asking x p)).1, s') := by
  have hkeep := keeps_eq_iff.mp (hx.keeps_asking hm hp (h.grows has hf).1) hk
  rw [ask_of_isKnown (hkeep ▸ hk), ask_of_isKnown hk, hkeep]

theorem fits_of_fresh (h : s.store.drawn = []) : Fits as s.contents := by
  intro a _ hc
  unfold contents Store.contents at hc
  rw [h] at hc
  exact absurd rfl hc

theorem exists_content (hq : a.Yields q) {answer : Answer}
    (h : s.ask (asking a.item q) = (.ok answer, s')) : ∃ ss, s'.contents a.label = some ss := by
  have hanswer : (Store.answer (asking a.item q) s.operations s.store).1 = .ok answer :=
    congrArg Prod.fst h
  have hstore : (Store.answer (asking a.item q) s.operations s.store).2 = s'.store :=
    congrArg (fun r => r.2.store) h
  have hcontents := Store.eq_of_answer hanswer
  rw [hstore] at hcontents
  exact hq.exists_content hcontents

/-- What holds in a session that has gone on from another one, in which a random array had its
content: the content is the same, and the array is the same, asks for nothing and hands out the
content. No question of what it holds changes the session or is answered otherwise, nor is one of a
join of the array with itself and with others for which nothing is left to be drawn. Whatever is
made of it and of other random arrays that had their contents is the same too, and a question of
that changes nothing and keeps its answer if it wanted nothing more. -/
structure KeepsAnswers (as : List RandomArray) (a : RandomArray) (ss : List Scalar)
    (s s' : Session) : Prop where
  content : s'.contents a.label = some ss
  array : ∃ w, a.item s.contents = .ok (.view w) ∧ a.item s'.contents = .ok (.view w) ∧
    w.IsKnown ∧ w.generator = .ok (.indexed (pickFrom (ss.map Item.scalar).toArray))
  asked : ∀ p : Question, p.IsBasic →
    s'.ask (asking a.item p) = ((s.ask (asking a.item p)).1, s')
  joined : ∀ xs axis first origin, (∀ x ∈ xs, x = a.item ∨ Rests as s.contents x) →
    ∀ p : Question, p.IsBasic → s'.ask (asking (joined xs axis first origin) p) =
      ((s.ask (asking (joined xs axis first origin) p)).1, s')
  made : ∀ bs : List RandomArray, (∀ b ∈ bs, b ∈ as ∧ s.contents b.label ≠ none) →
    ∀ (β : Type) (F : List Item → Except Fault β),
      madeOf bs F s'.contents = madeOf bs F s.contents ∧
      (IsKnown (madeOf bs F s.contents) → s'.ask (madeOf bs F) = ((s.ask (madeOf bs F)).1, s'))

theorem GoesOn.keepsAnswers (has : AreFounded as) (ha : a ∈ as) (hf : Fits as s.contents)
    {ss : List Scalar} (hss : s.contents a.label = some ss) (h : GoesOn as s s') :
    KeepsAnswers as a ss s s' := by
  have hfounded := has.founded a ha
  have hhonest := isHonest_item ha hfounded
  obtain ⟨hg, _⟩ := h.grows has hf
  have hss' := hg.kept _ _ hss
  obtain ⟨d, hd⟩ := hf a ha (by simp [hss])
  have hrests := rests_item ha hfounded hd hss
  refine ⟨hss', ?_, fun p hp => ?_, fun xs axis first origin hxs p hp => ?_,
    fun bs hbs β F => ?_⟩
  · obtain ⟨w, hw, hmade, hknown⟩ := exists_isKnown hd hss
    refine ⟨w, ?_, ?_, hknown, ?_⟩
    · rw [item, hw]
      rfl
    · rw [item, array_eq ha hfounded hg hf hss, hw]
      rfl
    · rw [hmade.generator, content_of_some hss]
      rfl
  · exact h.ask_eq has hf hhonest makesArrays_item hp (hrests.isKnown_asking makesArrays_item hp)
  · have hjoined : Rests as s.contents (joined xs axis first origin) := by
      apply rests_joined
      intro x hx
      rcases hxs x hx with rfl | hx
      · exact hrests
      · exact hx
    have hmakes : MakesArrays (joined xs axis first origin) := makesArrays_joined axis first origin
    exact h.ask_eq has hf hjoined.honest hmakes hp (hjoined.isKnown_asking hmakes hp)
  · have hsame := madeOf_eq has hg hf hbs F
    refine ⟨hsame, fun hk => ?_⟩
    rw [ask_of_isKnown (hsame ▸ hk), ask_of_isKnown hk, hsame]

/-- Random arrays draw once: in a session that starts with nothing drawn, no label is drawn for
twice, a question that is answered with the content of an array leaves that content behind, and from
where the content is there the answers are kept, however the session goes on. -/
theorem drawn_once (has : AreFounded as) {s₀ : Session} (hfresh : s₀.store.drawn = [])
    (ha : a ∈ as) :
    (∀ s, GoesOn as s₀ s → (s.store.drawn.map Prod.fst).Nodup) ∧
    (∀ s s₁ q answer, GoesOn as s₀ s → a.Yields q → s.ask (asking a.item q) = (.ok answer, s₁) →
      GoesOn as s₀ s₁ ∧ ∃ ss, s₁.contents a.label = some ss) ∧
    ∀ s₁ ss, GoesOn as s₀ s₁ → s₁.contents a.label = some ss →
      ∀ s', GoesOn as s₁ s' → KeepsAnswers as a ss s₁ s' := by
  refine ⟨fun s hs => hs.nodup (by simp [hfresh]), ?_, ?_⟩
  · intro s s₁ q answer hs hq hanswer
    have hask := hs.asked (isHonest_item ha (has.founded a ha)) makesArrays_item hq.isBasic
    rw [hanswer] at hask
    exact ⟨hask, exists_content hq hanswer⟩
  · intro s₁ ss hs₁ hss s' hs'
    obtain ⟨_, hf⟩ := hs₁.grows has (fits_of_fresh hfresh)
    exact hs'.keepsAnswers has ha hf hss

end

/-- Three dice, thrown with numbers from the first of the shared sources. -/
def threeDice : RandomArray :=
  ⟨[0], .shared 0, .int 1, .roll fun _ => .ok (.array (Grid.ofInts [6, 6, 6]))⟩

/-- A session with a script to throw dice from. -/
def diceTable : Session :=
  { empty with store := ⟨[.script [3, 1, 4]], [], []⟩, operations := 1 }

open scoped Usual in
/-- The dice are thrown when their element type is asked for, and stay where they fell. -/
theorem dice_stay : ∃ s₁, diceTable.ask (asking threeDice.item .etype) =
      (.ok (.etype (EType.integer 2 5)), s₁) ∧
    ∀ s', GoesOn [threeDice] s₁ s' →
      s'.ask (asking threeDice.item .items) = (.ok (.item (.ints [4, 2, 5])), s') ∧
      s'.ask (asking (joined [threeDice.item, threeDice.item] none false (.int 0)) .items) =
        (.ok (.item (.ints [4, 2, 5, 4, 2, 5])), s') := by
  have hdice : (Item.array (Grid.ofInts [6, 6, 6])).IsBare := by
    refine .array (fun x hx => ?_) nofun
    obtain ⟨y, hy, rfl⟩ := List.mem_map.mp hx
    obtain ⟨n, _, rfl⟩ := List.mem_map.mp hy
    exact .scalar _
  have has : AreFounded [threeDice] := by
    refine ⟨?_, ?_⟩
    · simp
    · intro b hb
      obtain rfl := List.mem_singleton.mp hb
      exact isHonest_const hdice.isKnown_lift
  have hfresh : diceTable.store.drawn = [] := rfl
  obtain ⟨_, hyields, hstays⟩ := drawn_once has hfresh (List.mem_singleton.mpr rfl)
  have hetype : threeDice.Yields .etype := .etype rfl
  have hthrown : diceTable.ask (asking threeDice.item .etype) =
      (.ok (.etype (EType.integer 2 5)), { diceTable with
        store := ⟨[.script []], [], [([0], [.int 4, .int 2, .int 5])]⟩ }) := rfl
  refine ⟨_, hthrown, fun s' hs' => ?_⟩
  obtain ⟨hs₁, _⟩ := hyields _ _ _ _ (.refl diceTable) hetype hthrown
  have hkeeps := hstays _ _ hs₁ rfl s' hs'
  constructor
  · rw [hkeeps.asked _ .items]
    rfl
  · rw [hkeeps.joined [threeDice.item, threeDice.item] none false (.int 0) (by simp) _ .items]
    cbv

end Session
end LazyApl
