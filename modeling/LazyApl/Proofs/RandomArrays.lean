import LazyApl.Session
import LazyApl.Proofs.Questions
import LazyApl.Proofs.Reading
/-!
# Random arrays

A random array is made anew each time something has been drawn, from what its operands are then. As
long as its own content is missing it asks for one draw, which its operands settle; once the content
is there it asks for nothing more, whatever is drawn for other arrays. So an array that is made of
random arrays answers again what it has answered before.
-/
namespace LazyApl

open Outcome

/-- What a random array is made from: dice to be rolled, or how many cards to deal out of how many.
The operands are items that are themselves made from what has been drawn. -/
inductive Game
  | roll (base : Contents → Except Fault Item)
  | deal (few many : Contents → Except Fault Item)

/-- A random array: the place of its expression, where its numbers come from, and its operands. -/
structure RandomArray where
  label : Label
  source : SourceRef
  origin : Origin
  game : Game

namespace Item

variable {A : Requests} {x y : Item}

theorem asksOnly_numbers (h : x.lift.AsksOnly A) : AsksOnly A (view x.lift).numbers := by
  apply asksOnly_bind h.asksOnly_items
  intro xs
  apply AsksOnly.mapM
  intro z _
  unfold simpleNumber
  split <;> simp

theorem IsBare.isKnown_lift (h : x.IsBare) : x.lift.IsKnown := by
  obtain ⟨g, hg, hbare⟩ := h.exists_lift
  rw [hg]
  exact View.asksOnly_ofGrid hbare

theorem KeptAs.numbers (h : x.KeptAs y) :
    Keeps Eq (Item.view x.lift).numbers (Item.view y.lift).numbers :=
  h.lift.items.bind_eq fun _ => .refl _

theorem asksOnly_count (h : x.lift.AsksOnly A) (role : String) : AsksOnly A (x.count role) := by
  have hints : AsksOnly A (x.asInts role) := by
    unfold asInts
    rw [items_lift]
    apply asksOnly_bind h.asksOnly_items
    intro xs
    apply AsksOnly.mapM
    intro z _
    unfold asWhole
    split
    · simp
    · simp
    · split <;> simp
    · simp
  apply asksOnly_bind
  · apply asksOnly_bind hints
    intro ns
    split
    · simp
    · exact asksOnly_bind h.shape fun e => by simp
  · intro n
    split <;> simp

theorem KeptAs.count (h : x.KeptAs y) (role : String) :
    Keeps Eq (x.count role) (y.count role) := by
  have hints : Keeps Eq (x.asInts role) (y.asInts role) := by
    unfold asInts
    rw [items_lift x, items_lift y]
    exact h.lift.items.bind_eq fun xs => .refl _
  have hint : Keeps Eq (x.asInt role) (y.asInt role) := by
    apply hints.bind_eq
    intro ns
    split
    · exact .refl _
    · exact h.lift.shape.bind_eq fun e => .refl _
  exact hint.bind_eq fun n => .refl _

theorem asksOnly_based (h : AsksOnly A x.lift.shape) : AsksOnly A x.based.shape := by
  unfold based basedOn
  split
  · exact asksOnly_error.mpr nofun
  · exact h

theorem KeptAs.based (h : x.KeptAs y) : Keeps Eq x.based.shape y.based.shape := by
  cases h with
  | refl => exact .refl _
  | view h => exact h.shape

theorem asksOnly_deck [Platform] (few many : Int) (origin : Origin) : AsksOnly A
    (deck few many origin) := by
  apply asksOnly_bind
  · simp
  intro last
  apply asksOnly_bind (Scalar.asksOnly_number last)
  intro x
  split <;> simp

theorem exists_generator_of_numbers {xs : List Item} (h : (view x.lift).numbers = .ok xs) :
    ∃ gen, x.lift.generator = .ok gen := by
  obtain ⟨_, hitems, _⟩ := bind_eq_ok.mp h
  obtain ⟨gen, hgen, _⟩ := bind_eq_ok.mp hitems
  exact ⟨gen, hgen⟩

theorem exists_generator_of_count {k : Int} {role : String} (h : x.count role = .ok k) :
    ∃ gen, x.lift.generator = .ok gen := by
  obtain ⟨_, hint, _⟩ := bind_eq_ok.mp h
  obtain ⟨_, hints, _⟩ := bind_eq_ok.mp hint
  obtain ⟨_, hitems, _⟩ := bind_eq_ok.mp hints
  rw [items_lift] at hitems
  obtain ⟨gen, hgen, _⟩ := bind_eq_ok.mp hitems
  exact ⟨gen, hgen⟩

section Chances

variable {label : Label} {c c' : Contents} (h : c label = c' label) (source : SourceRef)
  (origin : Origin)

include h in
theorem roll_congr (x : Item) :
    x.roll origin ⟨label, source, c⟩ = x.roll origin ⟨label, source, c'⟩ := by
  unfold roll Chance.drawn Chance.content
  simp only [h]

include h in
theorem deal_congr [Platform] (x y : Item) :
    x.deal y origin ⟨label, source, c⟩ = x.deal y origin ⟨label, source, c'⟩ := by
  unfold deal Chance.drawn Chance.content
  simp only [h]

end Chances

end Item

namespace RandomArray

variable [Platform]

def array (a : RandomArray) (c : Contents) : Except Fault (View Item) :=
  match a.game with
  | .roll base => do return (← base c).roll a.origin ⟨a.label, a.source, c⟩
  | .deal few many => do (← few c).deal (← many c) a.origin ⟨a.label, a.source, c⟩

/-- What is to be drawn for the array. -/
def draw (a : RandomArray) (c : Contents) : Except Fault Draw :=
  match a.game with
  | .roll base => do return .roll a.origin ((← (Item.view (← base c).lift).numbers).map Item.die)
  | .deal few many => do
    let few ← few c
    let many ← many c
    let k ← few.count "left argument of ?"
    let n ← many.count "right argument of ?"
    if n < k then .error (.domain (.undealable k n)) else Item.deck k n a.origin

def item (a : RandomArray) (c : Contents) : Except Fault Item := .view <$> a.array c

section Expressions

variable {environment : Contents → Environment} {name : String} {id : Nat}
  (h : ∀ c, (environment c).sources.lookup name = some id) (label : Label) (e e' : Expression)
  (origin : Origin) (c : Contents)

include h in
theorem evaluate_roll :
    Expression.evaluate (environment c) c label
        (.apply (.roll (.named name)) [some e, some (.value (.scalar origin))]) =
      item ⟨label, .shared id, origin,
        .roll fun c => e.evaluate (environment c) c (label ++ [0])⟩ c := by
  rw [Expression.evaluate]
  simp only [Expression.evaluateGiven, item, array, Expression.evaluate]
  cases e.evaluate (environment c) c (label ++ [0]) with
  | error f => rfl
  | ok x =>
      simp only [Operation.build, Operation.construct, Context.chance, Context.source, h]
      rfl

include h in
theorem evaluate_deal :
    Expression.evaluate (environment c) c label
        (.apply (.deal (.named name)) [some e, some e', some (.value (.scalar origin))]) =
      item ⟨label, .shared id, origin, .deal (fun c => e.evaluate (environment c) c (label ++ [0]))
        fun c => e'.evaluate (environment c) c (label ++ [1])⟩ c := by
  rw [Expression.evaluate]
  simp only [Expression.evaluateGiven, item, array, Expression.evaluate]
  cases e.evaluate (environment c) c (label ++ [0]) with
  | error f => rfl
  | ok x =>
      cases e'.evaluate (environment c) c (label ++ [1]) with
      | error f => rfl
      | ok y =>
          simp only [Operation.build, Operation.construct, Context.chance, Context.source, h]
          rfl

end Expressions

/-- Random arrays want what is to be drawn for one of them that has no content yet. -/
def Wants (as : List RandomArray) (c : Contents) : Requests := fun label source draw =>
  c label = none ∧ ∃ a ∈ as, a.label = label ∧ a.source = source ∧ a.draw c = .ok draw

/-- More has been drawn, and nothing for an array that was known to refuse its draw. -/
structure Grows (as : List RandomArray) (c c' : Contents) : Prop where
  kept : ∀ label xs, c label = some xs → c' label = some xs
  drawn : ∀ a ∈ as, c a.label = none → c' a.label ≠ none → IsKnown (a.draw c) →
    ∃ d, a.draw c = .ok d

/-- Where there is a content, it has been settled what was to be drawn. -/
def Fits (as : List RandomArray) (c : Contents) : Prop :=
  ∀ a ∈ as, c a.label ≠ none → ∃ d, a.draw c = .ok d

/-- An item that is made anew each time something has been drawn asks for nothing but what random
arrays want, and answers again what it has answered. Once it hands out its cells it is made in the
same way ever after. -/
structure IsHonest (as : List RandomArray) (x : Contents → Except Fault Item) : Prop where
  made : ∀ c, AsksOnly (Wants as c) (x c)
  asks : ∀ c y, x c = .ok y → y.lift.AsksOnly (Wants as c)
  keeps : ∀ c c', Grows as c c' → Keeps Item.KeptAs (x c) (x c')
  stays : ∀ c c', Grows as c c' → Fits as c → ∀ y gen, x c = .ok y →
    y.lift.generator = .ok gen → x c' = .ok y

/-- The operands of a random array are honest. -/
def IsFounded (as : List RandomArray) (a : RandomArray) : Prop :=
  match a.game with
  | .roll base => IsHonest as base
  | .deal few many => IsHonest as few ∧ IsHonest as many

variable {as : List RandomArray} {a : RandomArray} {c c' : Contents}

theorem IsFounded.of_roll {base : Contents → Except Fault Item} (h : a.IsFounded as)
    (hgame : a.game = .roll base) : IsHonest as base := by
  unfold IsFounded at h
  rwa [hgame] at h

theorem IsFounded.of_deal {few many : Contents → Except Fault Item} (h : a.IsFounded as)
    (hgame : a.game = .deal few many) : IsHonest as few ∧ IsHonest as many := by
  unfold IsFounded at h
  rwa [hgame] at h

/-- What a random array wants is settled by its operands. -/
theorem keeps_draw (h : a.IsFounded as) (hg : Grows as c c') :
    Keeps Eq (a.draw c) (a.draw c') := by
  obtain ⟨label, source, origin, game⟩ := a
  cases game with
  | roll base =>
      have hbase := h.of_roll rfl
      apply (hbase.keeps c c' hg).bind
      intro x y _ _ hxy
      exact hxy.numbers.bind_eq fun _ => .refl _
  | deal few many =>
      obtain ⟨hfew, hmany⟩ := h.of_deal rfl
      apply (hfew.keeps c c' hg).bind
      intro x y _ _ hxy
      apply (hmany.keeps c c' hg).bind
      intro x' y' _ _ hxy'
      apply (hxy.count _).bind_eq
      intro k
      apply (hxy'.count _).bind_eq
      intro n
      exact .refl _

theorem asksOnly_draw (h : a.IsFounded as) (c : Contents) : AsksOnly (Wants as c) (a.draw c) := by
  obtain ⟨label, source, origin, game⟩ := a
  cases game with
  | roll base =>
      have hbase := h.of_roll rfl
      apply AsksOnly.bind (hbase.made c)
      intro x hx
      exact asksOnly_bind (Item.asksOnly_numbers (hbase.asks c x hx)) fun xs => by simp
  | deal few many =>
      obtain ⟨hfew, hmany⟩ := h.of_deal rfl
      apply AsksOnly.bind (hfew.made c)
      intro x hx
      apply AsksOnly.bind (hmany.made c)
      intro y hy
      apply asksOnly_bind (Item.asksOnly_count (hfew.asks c x hx) _)
      intro k
      apply asksOnly_bind (Item.asksOnly_count (hmany.asks c y hy) _)
      intro n
      split
      · simp
      · exact Item.asksOnly_deck k n _

/-- The content of a random array, or the want of it. -/
def content (a : RandomArray) (c : Contents) : Except Fault (List Item) :=
  match c a.label with
  | some xs => .ok (xs.map .scalar)
  | none => do .error (.undrawn a.label a.source (← a.draw c))

/-- What a random array of any kind answers: its fill is zero, and its cells are its content. -/
structure IsMade (a : RandomArray) (c : Contents) (w : View Item) : Prop where
  computed : w.IsComputed
  prototype : w.prototype = .ok (.int 0)
  generator : w.generator = (fun xs => Gen.indexed (pickFrom xs.toArray)) <$> a.content c

theorem content_eq (x : Chance) (draw : Demand → Except Fault Draw)
    (h : draw .now = a.draw x.contents) (hl : x.label = a.label) (hs : x.source = a.source) :
    (x.drawn draw).get = a.content x.contents := by
  unfold Chance.drawn content Chance.content
  rw [Lazy.get_keep, hl, hs, h]
  cases x.contents a.label <;> rfl

theorem isMade_roll {base : Contents → Except Fault Item} (hgame : a.game = .roll base) {x : Item}
    (hx : base c = .ok x) {w : View Item} (hw : w = x.roll a.origin ⟨a.label, a.source, c⟩) :
    a.IsMade c w ∧ w.shape = x.based.shape ∧
      w.etype = (fun xs => (EType.joinAll (xs.map Item.etype)).getD EType.bit) <$> a.content c := by
  have hdraw : (do return Draw.roll a.origin ((← (Item.view x.lift).numbers).map Item.die)) =
      a.draw c := by
    simp only [draw, hgame, hx]
    rfl
  have hcontent := content_eq (a := a) ⟨a.label, a.source, c⟩ (fun _ => do
    return Draw.roll a.origin ((← (Item.view x.lift).numbers).map Item.die)) hdraw rfl rfl
  subst hw
  refine ⟨⟨⟨_, rfl⟩, rfl, ?_⟩, rfl, ?_⟩
  · rw [← hcontent]
    rfl
  · simp only [← EType.joinValues_none, ← hcontent]
    rfl

theorem isMade_deal {few many : Contents → Except Fault Item} (hgame : a.game = .deal few many)
    {x y : Item} (hx : few c = .ok x) (hy : many c = .ok y) {w : View Item}
    (hw : x.deal y a.origin ⟨a.label, a.source, c⟩ = .ok w) :
    a.IsMade c w ∧ ∃ k n : Int, x.count "left argument of ?" = .ok k ∧
      y.count "right argument of ?" = .ok n ∧ w.shape = .ok [.int k] ∧
        w.etype = EType.counted a.origin (.int (max (n - 1) 0)) := by
  obtain ⟨k, hk, hw⟩ := bind_eq_ok.mp hw
  obtain ⟨n, hn, hw⟩ := bind_eq_ok.mp hw
  split at hw
  · cases hw
  · rename_i hnk
    have hdraw : Item.deck k n a.origin = a.draw c := by
      simp only [draw, hgame, hx, hy, hk, hn, bind, Except.bind, if_neg hnk]
    have hcontent := content_eq (a := a) ⟨a.label, a.source, c⟩
      (fun _ => Item.deck k n a.origin) hdraw rfl rfl
    obtain rfl := Except.ok.inj hw
    refine ⟨⟨⟨_, rfl⟩, rfl, ?_⟩, k, n, hk, hn, rfl, rfl⟩
    rw [← hcontent]
    rfl

theorem isMade_of_array {w : View Item} (h : a.array c = .ok w) : a.IsMade c w := by
  unfold array at h
  split at h
  · rename_i base hgame
    obtain ⟨x, hx, h⟩ := bind_eq_ok.mp h
    exact (isMade_roll hgame hx (Except.ok.inj h).symm).1
  · rename_i few many hgame
    obtain ⟨x, hx, h⟩ := bind_eq_ok.mp h
    obtain ⟨y, hy, h⟩ := bind_eq_ok.mp h
    exact (isMade_deal hgame hx hy h).1

theorem content_of_some {xs : List Scalar} (h : c a.label = some xs) :
    a.content c = .ok (xs.map .scalar) := by
  rw [content, h]

theorem content_of_none (h : c a.label = none) :
    a.content c = a.draw c >>= fun d => .error (.undrawn a.label a.source d) := by
  rw [content, h]

theorem exists_of_content {xs : List Item} (h : a.content c = .ok xs) :
    ∃ ss, c a.label = some ss ∧ xs = ss.map .scalar := by
  cases hc : c a.label with
  | none =>
      rw [content_of_none hc] at h
      obtain ⟨d, _, h⟩ := bind_eq_ok.mp h
      cases h
  | some ss =>
      rw [content_of_some hc] at h
      exact ⟨ss, rfl, (Except.ok.inj h).symm⟩

theorem asksOnly_content (ha : a ∈ as) (h : a.IsFounded as) (c : Contents) :
    AsksOnly (Wants as c) (a.content c) := by
  cases hc : c a.label with
  | some xs =>
      rw [content_of_some hc]
      exact asksOnly_ok _
  | none =>
      rw [content_of_none hc]
      apply AsksOnly.bind (asksOnly_draw h c)
      intro d hd
      apply asksOnly_error.mpr
      rintro _ _ _ ⟨⟩
      exact ⟨hc, a, ha, rfl, rfl, hd⟩

/-- A random array that has its content is made in the same way ever after. -/
theorem array_eq (ha : a ∈ as) (h : a.IsFounded as) (hg : Grows as c c') (hf : Fits as c)
    {ss : List Scalar} (hc : c a.label = some ss) : a.array c' = a.array c := by
  obtain ⟨d, hd⟩ := hf a ha (by simp [hc])
  have hlabel : c' a.label = c a.label := by rw [hg.kept _ _ hc, hc]
  cases hgame : a.game with
  | roll base =>
      simp only [draw, hgame] at hd
      obtain ⟨x, hx, hd⟩ := bind_eq_ok.mp hd
      obtain ⟨ns, hn, _⟩ := bind_eq_ok.mp hd
      obtain ⟨gen, hgen⟩ := Item.exists_generator_of_numbers hn
      have hx' := (h.of_roll hgame).stays c c' hg hf x gen hx hgen
      simp only [array, hgame, hx, hx']
      exact congrArg Except.ok (Item.roll_congr hlabel _ _ x)
  | deal few many =>
      obtain ⟨hfew, hmany⟩ := h.of_deal hgame
      simp only [draw, hgame] at hd
      obtain ⟨x, hx, hd⟩ := bind_eq_ok.mp hd
      obtain ⟨y, hy, hd⟩ := bind_eq_ok.mp hd
      obtain ⟨k, hk, hd⟩ := bind_eq_ok.mp hd
      obtain ⟨n, hn, _⟩ := bind_eq_ok.mp hd
      obtain ⟨genx, hgenx⟩ := Item.exists_generator_of_count hk
      obtain ⟨geny, hgeny⟩ := Item.exists_generator_of_count hn
      have hx' := hfew.stays c c' hg hf x genx hx hgenx
      have hy' := hmany.stays c c' hg hf y geny hy hgeny
      simp only [array, hgame, hx, hx', hy, hy']
      exact Item.deal_congr hlabel _ _ x y

theorem item_eq (ha : a ∈ as) (h : a.IsFounded as) (hg : Grows as c c') (hf : Fits as c) {y : Item}
    {gen : Gen Item} (hy : a.item c = .ok y) (hgen : y.lift.generator = .ok gen) :
    a.item c' = .ok y := by
  obtain ⟨w, hw, rfl⟩ := map_eq_ok.mp hy
  have hcontent : w.generator = .ok gen := hgen
  rw [(isMade_of_array hw).generator] at hcontent
  obtain ⟨xs, hxs, _⟩ := map_eq_ok.mp hcontent
  obtain ⟨ss, hss, _⟩ := exists_of_content hxs
  rw [item, array_eq ha h hg hf hss]
  exact hy

theorem keeps_content (ha : a ∈ as) (h : a.IsFounded as) (hg : Grows as c c') :
    Keeps Eq (a.content c) (a.content c') := by
  cases hc : c a.label with
  | some xs =>
      rw [content_of_some hc, content_of_some (hg.kept _ _ hc)]
      exact .refl _
  | none =>
      rw [keeps_eq_iff, content_of_none hc]
      intro hk
      have hdraw := keeps_eq_iff.mp (keeps_draw h hg) hk.of_bind
      cases hc' : c' a.label with
      | none => rw [content_of_none hc', hdraw]
      | some xs =>
          obtain ⟨d, hd⟩ := hg.drawn a ha hc (by simp [hc']) hk.of_bind
          rw [hd] at hk
          exact (hk.requests _ _ _ rfl).elim

omit [Platform] in
theorem pickFrom_mem {α : Type} {xs : Array α} {i : Number} {x : α} (h : pickFrom xs i = .ok x) :
    x ∈ xs := by
  obtain ⟨k, _, h⟩ := bind_eq_ok.mp h
  split at h
  · cases h
  · split at h
    · rename_i y hy
      obtain rfl := Except.ok.inj h
      exact Array.mem_of_getElem? hy
    · cases h

theorem IsMade.asksOnly {A : Requests} {w : View Item} (h : a.IsMade c w)
    (hcontent : AsksOnly A (a.content c)) (hshape : AsksOnly A w.shape)
    (hetype : AsksOnly A w.etype) : w.AsksOnly A := by
  have hcells : ∀ gen, w.generator = .ok gen → ∃ ss : List Scalar,
      gen = .indexed (pickFrom (ss.map Item.scalar).toArray) := by
    intro gen hg
    rw [h.generator] at hg
    obtain ⟨xs, hxs, rfl⟩ := map_eq_ok.mp hg
    obtain ⟨ss, _, rfl⟩ := exists_of_content hxs
    exact ⟨ss, rfl⟩
  refine ⟨hshape, hetype, ?_, ?_, fun gen hg i => ?_, fun gen hg i x hx => ?_, fun x hx => ?_⟩
  · rw [h.prototype]
    exact asksOnly_ok _
  · rw [h.generator]
    exact asksOnly_map.mpr hcontent
  · obtain ⟨ss, rfl⟩ := hcells gen hg
    exact asksOnly_pickFrom _ i
  · obtain ⟨ss, rfl⟩ := hcells gen hg
    obtain ⟨s, _, rfl⟩ := List.mem_map.mp (List.mem_toArray.mp (pickFrom_mem hx))
    exact .scalar s
  · rw [h.prototype] at hx
    cases hx
    exact .scalar _

theorem IsMade.keptAs {w w' : View Item} (h : a.IsMade c w) (h' : a.IsMade c' w')
    (hcontent : Keeps Eq (a.content c) (a.content c')) (hshape : Keeps Eq w.shape w'.shape)
    (hetype : Keeps Eq w.etype w'.etype) : w.KeptAs w' := by
  refine ⟨hshape, hetype, ?_, ?_⟩
  · rw [h.prototype, h'.prototype]
    exact .refl _
  · rw [h.generator, h'.generator]
    exact hcontent.map fun xs ys hxy => by rw [hxy]

theorem isHonest_roll (ha : a ∈ as) (h : a.IsFounded as) {base : Contents → Except Fault Item}
    (hgame : a.game = .roll base) : IsHonest as a.item := by
  have hbase := h.of_roll hgame
  have hitem : ∀ c, a.item c = .view <$> (do
      return (← base c).roll a.origin ⟨a.label, a.source, c⟩) := by
    intro c
    rw [item, array, hgame]
  have hcontent := asksOnly_content ha h
  refine ⟨fun c => ?_, fun c y hy => ?_, fun c c' hg => ?_,
    fun c c' hg hf y gen => item_eq ha h hg hf⟩
  · rw [hitem]
    exact asksOnly_map.mpr (asksOnly_bind (hbase.made c) fun x => asksOnly_pure _)
  · rw [hitem] at hy
    obtain ⟨w, hw, rfl⟩ := map_eq_ok.mp hy
    obtain ⟨x, hx, hw⟩ := bind_eq_ok.mp hw
    obtain ⟨hmade, hshape, hetype⟩ := isMade_roll hgame hx (Except.ok.inj hw).symm
    refine hmade.asksOnly (hcontent c) ?_ ?_
    · rw [hshape]
      exact Item.asksOnly_based (hbase.asks c x hx).shape
    · rw [hetype]
      exact asksOnly_map.mpr (hcontent c)
  · have hkeeps := keeps_content ha h hg
    rw [hitem, hitem]
    refine Keeps.map (R := View.KeptAs) ?_ fun w w' hw => .view hw
    apply (hbase.keeps c c' hg).bind
    intro x y hx hy hxy
    obtain ⟨hmade, hshape, hetype⟩ := isMade_roll hgame hx rfl
    obtain ⟨hmade', hshape', hetype'⟩ := isMade_roll hgame hy rfl
    refine .ok (hmade.keptAs hmade' hkeeps ?_ ?_)
    · rw [hshape, hshape']
      exact hxy.based
    · rw [hetype, hetype']
      exact hkeeps.map fun xs ys hxs => by rw [hxs]

theorem isHonest_deal (ha : a ∈ as) (h : a.IsFounded as)
    {few many : Contents → Except Fault Item} (hgame : a.game = .deal few many) :
    IsHonest as a.item := by
  obtain ⟨hfew, hmany⟩ := h.of_deal hgame
  have hitem : ∀ c, a.item c = .view <$> (do
      (← few c).deal (← many c) a.origin ⟨a.label, a.source, c⟩) := by
    intro c
    rw [item, array, hgame]
  refine ⟨fun c => ?_, fun c y hy => ?_, fun c c' hg => ?_,
    fun c c' hg hf y gen => item_eq ha h hg hf⟩
  · rw [hitem]
    apply asksOnly_map.mpr
    apply AsksOnly.bind (hfew.made c)
    intro x hx
    apply AsksOnly.bind (hmany.made c)
    intro y hy
    apply asksOnly_bind (Item.asksOnly_count (hfew.asks c x hx) _)
    intro k
    apply asksOnly_bind (Item.asksOnly_count (hmany.asks c y hy) _)
    intro n
    split <;> simp
  · rw [hitem] at hy
    obtain ⟨w, hw, rfl⟩ := map_eq_ok.mp hy
    obtain ⟨x, hx, hw⟩ := bind_eq_ok.mp hw
    obtain ⟨z, hz, hw⟩ := bind_eq_ok.mp hw
    obtain ⟨hmade, k, n, _, _, hshape, hetype⟩ := isMade_deal hgame hx hz hw
    refine hmade.asksOnly (asksOnly_content ha h c) ?_ ?_
    · rw [hshape]
      exact asksOnly_ok _
    · rw [hetype]
      exact EType.asksOnly_counted _ _
  · have hkeeps := keeps_content ha h hg
    rw [hitem, hitem]
    refine Keeps.map (R := View.KeptAs) ?_ fun w w' hw => .view hw
    apply (hfew.keeps c c' hg).bind
    intro x y hx hy hxy
    apply (hmany.keeps c c' hg).bind
    intro x' y' hx' hy' hxy'
    unfold Item.deal
    apply (hxy.count _).bind
    rintro k _ hk hk' rfl
    apply (hxy'.count _).bind
    rintro n _ hn hn' rfl
    split
    · exact .error _
    · rename_i hnk
      refine .ok ((isMade_deal hgame hx hx' ?_).1.keptAs (isMade_deal hgame hy hy' ?_).1 hkeeps
        (.refl _) (.refl _))
      · simp only [Item.deal, hk, hn, bind, Except.bind, if_neg hnk]
        rfl
      · simp only [Item.deal, hk', hn', bind, Except.bind, if_neg hnk]
        rfl

theorem isHonest_item (ha : a ∈ as) (h : a.IsFounded as) : IsHonest as a.item := by
  cases hgame : a.game with
  | roll base => exact isHonest_roll ha h hgame
  | deal few many => exact isHonest_deal ha h hgame

theorem isHonest_const {x : Item} (h : x.lift.IsKnown) : IsHonest as fun _ => .ok x := by
  refine ⟨fun c => asksOnly_ok _, fun c y hy => ?_, fun c c' _ => .ok (.refl x),
    fun c c' _ _ y gen hy _ => hy⟩
  cases hy
  exact h.mono fun _ _ _ => False.elim

def joined (xs : List (Contents → Except Fault Item)) (axis : Option Item) (first : Bool)
    (origin : Origin) (c : Contents) : Except Fault Item := do
  return .view (← Item.catenate (← xs.mapM fun x => x c) axis first origin)

variable {xs : List (Contents → Except Fault Item)} (axis : Option Item) (first : Bool)
  (origin : Origin)

theorem isHonest_joined (h : ∀ x ∈ xs, IsHonest as x) :
    IsHonest as (joined xs axis first origin) := by
  refine ⟨fun c => ?_, fun c y hy => ?_, fun c c' hg => ?_, fun c c' hg hf y gen hy hgen => ?_⟩
  · apply asksOnly_bind (.mapM fun x hx => (h x hx).made c)
    intro ys
    exact asksOnly_bind (Item.asksOnly_catenate axis first origin) fun w => asksOnly_pure _
  · obtain ⟨ys, hys, hy⟩ := bind_eq_ok.mp hy
    obtain ⟨w, hw, hy⟩ := bind_eq_ok.mp hy
    obtain rfl := Except.ok.inj hy
    refine (Item.asksOnly_of_catenate axis first origin (fun z hz => ?_) hw).2
    obtain ⟨x, hx, hxz⟩ := mem_of_mapM hys hz
    exact (h x hx).asks c z hxz
  · apply (Keeps.mapM (S := Item.KeptAs) (List.forall₂_same.mpr fun x hx =>
      (h x hx).keeps c c' hg)).bind
    intro ys zs _ _ hyz
    apply (Item.KeptAs.catenate axis first origin hyz).bind
    intro w w' _ _ hw
    exact .ok (.view hw.1)
  · obtain ⟨ys, hys, hw⟩ := bind_eq_ok.mp hy
    obtain ⟨w, hcat, hw⟩ := bind_eq_ok.mp hw
    obtain rfl := Except.ok.inj hw
    have hsame : (xs.mapM fun x => x c') = xs.mapM fun x => x c := by
      apply mapM_congr
      intro x hx
      obtain ⟨z, hz, hxz⟩ := exists_mem_of_mapM hys hx
      obtain ⟨g, hg'⟩ := Item.exists_generator_of_catenate axis first origin hcat hgen hz
      rw [hxz]
      exact (h x hx).stays c c' hg hf z g hxz hg'
    unfold joined at hy ⊢
    rw [hsame]
    exact hy

/-- A random array that has its content asks for nothing, if its draw had been settled. -/
theorem exists_isKnown {d : Draw} (hd : a.draw c = .ok d) {ss : List Scalar}
    (hc : c a.label = some ss) : ∃ w, a.array c = .ok w ∧ a.IsMade c w ∧ w.IsKnown := by
  have hcontent : Outcome.IsKnown (a.content c) := by
    rw [content_of_some hc]
    exact asksOnly_ok _
  cases hgame : a.game with
  | roll base =>
      simp only [draw, hgame] at hd
      obtain ⟨x, hx, hd⟩ := bind_eq_ok.mp hd
      obtain ⟨ns, hn, _⟩ := bind_eq_ok.mp hd
      obtain ⟨xs, hxs, _⟩ := bind_eq_ok.mp hn
      obtain ⟨gen, _, hxs⟩ := bind_eq_ok.mp hxs
      obtain ⟨e, he, _⟩ := bind_eq_ok.mp hxs
      obtain ⟨hmade, hshape, hetype⟩ := isMade_roll hgame hx rfl
      refine ⟨_, ?_, hmade, hmade.asksOnly hcontent ?_ ?_⟩
      · simp only [array, hgame, hx]
        rfl
      · rw [hshape]
        have hlift : x.lift.shape = .ok e := he
        exact Item.asksOnly_based (hlift ▸ asksOnly_ok e)
      · rw [hetype]
        exact asksOnly_map.mpr hcontent
  | deal few many =>
      simp only [draw, hgame] at hd
      obtain ⟨x, hx, hd⟩ := bind_eq_ok.mp hd
      obtain ⟨y, hy, hd⟩ := bind_eq_ok.mp hd
      obtain ⟨k, hk, hd⟩ := bind_eq_ok.mp hd
      obtain ⟨n, hn, hd⟩ := bind_eq_ok.mp hd
      split at hd
      · cases hd
      · rename_i hnk
        have hw : ∃ w, x.deal y a.origin ⟨a.label, a.source, c⟩ = .ok w := by
          simp only [Item.deal, hk, hn, bind, Except.bind, if_neg hnk]
          exact ⟨_, rfl⟩
        obtain ⟨w, hw⟩ := hw
        obtain ⟨hmade, _, _, _, _, hshape, hetype⟩ := isMade_deal hgame hx hy hw
        refine ⟨w, ?_, hmade, hmade.asksOnly hcontent ?_ ?_⟩
        · simp only [array, hgame, hx, hy]
          exact hw
        · rw [hshape]
          exact asksOnly_ok _
        · rw [hetype]
          exact EType.asksOnly_counted _ _

/-- What is made of the contents drawn so far is a computed array. -/
def MakesArrays (x : Contents → Except Fault Item) : Prop :=
  ∀ c y, x c = .ok y → ∃ w, y = .view w ∧ w.IsComputed

theorem makesArrays_item : MakesArrays a.item := by
  intro c y hy
  obtain ⟨w, hw, rfl⟩ := map_eq_ok.mp hy
  exact ⟨w, rfl, (isMade_of_array hw).computed⟩

omit [Platform] in
theorem makesArrays_joined : MakesArrays (joined xs axis first origin) := by
  intro c y hy
  obtain ⟨ys, _, hy⟩ := bind_eq_ok.mp hy
  obtain ⟨w, hw, hy⟩ := bind_eq_ok.mp hy
  obtain rfl := Except.ok.inj hy
  refine ⟨w, rfl, ?_⟩
  unfold Item.catenate at hw
  split at hw
  · cases hw
  · cases hw
    exact ⟨_, rfl⟩

/-- A question about what is made of the contents drawn so far. -/
def asking (x : Contents → Except Fault Item) (p : Question) (c : Contents) :
    Except Fault Answer := do
  p.ask (← x c)

variable {x : Contents → Except Fault Item} {p : Question}

theorem IsHonest.asksOnly_asking (h : IsHonest as x) (hx : MakesArrays x) (hp : p.IsBasic)
    (c : Contents) : AsksOnly (Wants as c) (asking x p c) := by
  apply AsksOnly.bind (h.made c)
  intro y hy
  obtain ⟨w, rfl, hw⟩ := hx c y hy
  exact (h.asks c _ hy).ask hw hp

theorem IsHonest.keeps_asking (h : IsHonest as x) (hx : MakesArrays x) (hp : p.IsBasic)
    (hg : Grows as c c') : Keeps Eq (asking x p c) (asking x p c') := by
  apply (h.keeps c c' hg).bind
  intro y y' hy hy' hk
  obtain ⟨w, rfl, hw⟩ := hx c y hy
  obtain ⟨w', rfl, hw'⟩ := hx c' y' hy'
  exact hk.lift.ask hw hw' hp

/-- Nothing is left to be drawn for what is made of the contents. -/
structure Rests (as : List RandomArray) (c : Contents) (x : Contents → Except Fault Item) :
    Prop where
  honest : IsHonest as x
  made : Outcome.IsKnown (x c)
  known : ∀ y, x c = .ok y → y.lift.IsKnown

theorem Rests.isKnown_asking (h : Rests as c x) (hx : MakesArrays x) (hp : p.IsBasic) :
    Outcome.IsKnown (asking x p c) := by
  apply AsksOnly.bind h.made
  intro y hy
  obtain ⟨w, rfl, hw⟩ := hx c y hy
  exact (h.known _ hy).ask hw hp

theorem rests_joined (h : ∀ x ∈ xs, Rests as c x) :
    Rests as c (joined xs axis first origin) := by
  refine ⟨isHonest_joined axis first origin fun x hx => (h x hx).honest, ?_, fun y hy => ?_⟩
  · apply asksOnly_bind (.mapM fun x hx => (h x hx).made)
    intro ys
    exact asksOnly_bind (Item.asksOnly_catenate axis first origin) fun w => asksOnly_pure _
  · obtain ⟨ys, hys, hy⟩ := bind_eq_ok.mp hy
    obtain ⟨w, hw, hy⟩ := bind_eq_ok.mp hy
    obtain rfl := Except.ok.inj hy
    refine (Item.asksOnly_of_catenate axis first origin (fun z hz => ?_) hw).2
    obtain ⟨x, hx, hxz⟩ := mem_of_mapM hys hz
    exact (h x hx).known z hxz

theorem rests_item (ha : a ∈ as) (h : a.IsFounded as) {d : Draw} (hd : a.draw c = .ok d)
    {ss : List Scalar} (hc : c a.label = some ss) : Rests as c a.item := by
  obtain ⟨w, hw, _, hknown⟩ := exists_isKnown hd hc
  refine ⟨isHonest_item ha h, ?_, fun y hy => ?_⟩
  · rw [item, hw]
    exact asksOnly_ok _
  · rw [item, hw] at hy
    obtain rfl := Except.ok.inj hy
    exact hknown

/-- The questions that a random array cannot answer without its content. The element type of a
deal is known from its deck. -/
inductive Yields (a : RandomArray) : Question → Prop
  | items : Yields a .items
  | cell (place : Item) : Yields a (.cell place)
  | render : Yields a .render
  | etype {base : Contents → Except Fault Item} (h : a.game = .roll base) : Yields a .etype

omit [Platform] in
theorem Yields.isBasic (h : a.Yields p) : p.IsBasic := by
  cases h with
  | items => exact .items
  | cell place => exact .cell place
  | render => exact .render
  | etype _ => exact .etype

/-- Once such a question has been answered, the content is there. -/
theorem Yields.exists_content (h : a.Yields p) {answer : Answer}
    (ha : asking a.item p c = .ok answer) : ∃ ss, c a.label = some ss := by
  obtain ⟨y, hy, ha⟩ := bind_eq_ok.mp ha
  obtain ⟨w, hw, rfl⟩ := map_eq_ok.mp hy
  have hmade := isMade_of_array hw
  have hgen : ∀ gen, w.generator = .ok gen → ∃ ss, c a.label = some ss := by
    intro gen hg
    rw [hmade.generator] at hg
    obtain ⟨xs, hxs, _⟩ := map_eq_ok.mp hg
    obtain ⟨ss, hss, _⟩ := exists_of_content hxs
    exact ⟨ss, hss⟩
  cases h with
  | items =>
      obtain ⟨xs, hxs, _⟩ := bind_eq_ok.mp ha
      obtain ⟨gen, hg, _⟩ := bind_eq_ok.mp hxs
      exact hgen gen hg
  | cell place =>
      obtain ⟨x, hx, _⟩ := bind_eq_ok.mp ha
      unfold Inspect.cellAt at hx
      cases hplace : Inspect.position? place with
      | some i =>
          rw [hplace] at hx
          obtain ⟨gen, hg, _⟩ := bind_eq_ok.mp hx
          exact hgen gen hg
      | none =>
          rw [hplace] at hx
          obtain ⟨gen, hg, _⟩ := bind_eq_ok.mp hx
          exact hgen gen hg
  | render =>
      obtain ⟨x, hx, _⟩ := bind_eq_ok.mp ha
      rw [hmade.computed.render_eq] at hx
      obtain ⟨g, hx, _⟩ := map_eq_ok.mp hx
      obtain ⟨e, _, hx⟩ := bind_eq_ok.mp hx
      obtain ⟨gen, hg, _⟩ := bind_eq_ok.mp hx
      rw [hmade.computed.generator_settledGen, Item.settledGen_eq_map] at hg
      obtain ⟨gen', hg', _⟩ := map_eq_ok.mp hg
      exact hgen gen' hg'
  | etype hgame =>
      obtain ⟨t, ht, _⟩ := bind_eq_ok.mp ha
      simp only [array, hgame] at hw
      obtain ⟨x, hx, hw⟩ := bind_eq_ok.mp hw
      obtain ⟨_, _, hetype⟩ := isMade_roll hgame hx (Except.ok.inj hw).symm
      have ht : w.etype = .ok t := ht
      rw [hetype] at ht
      obtain ⟨xs, hxs, _⟩ := map_eq_ok.mp ht
      obtain ⟨ss, hss, _⟩ := exists_of_content hxs
      exact ⟨ss, hss⟩

end RandomArray
end LazyApl
