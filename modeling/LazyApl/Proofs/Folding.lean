import LazyApl.Tower
import LazyApl.Proofs.Steps
/-!
# Folded chains lead where their steps lead

A tower folds as it grows: sections are merged, rotations are added up, and every level hands on a
single chain of links. What a level has to promise for this is collected in `Level.Keeps`. A step
on top of such a level gives such a level again, and its folded chain leads where the own link of
the step leads and from there where the chain below leads.
-/
namespace LazyApl

open Outcome Link

namespace Turn

/-- All that a rotation offers at once; nothing if it has more than one amount. -/
def offer (t : Turn) : Except Fault (Option (Number × Stage × Option Int)) := do
  match ← t.single.get with
  | none => return none
  | some _ =>
    let axis ← t.axis.get
    let (source, total) ← t.total.get
    return some (axis, source, total)

end Turn

namespace Level

/-- The chain of a stage leads from a shape to the root, if it has one. -/
def Descends (source : Stage) (s r : Shape) : Prop :=
  ∀ ls, source.chain.get = .ok ls → Chained ls s r

/-- What is offered to a section directly above: the source of all sections below, and one layout
that shows of it what the level shows. -/
def OffersSpans (r s : Shape) (chain : Except Fault (List Link))
    (offer : Except Fault (Stage × Layout)) : Prop :=
  ∃ (source : Stage) (l : List Span) (t : Shape), offer = .ok (source, Layout.ofSpans l) ∧
    source.shape.get = .ok (.ofShape t) ∧ Span.FitAll l t ∧ s = Span.shape l ∧
    Descends source t r ∧ chain = extend source (.ok (Section.linkOf l t))

/-- What is offered to a rotation directly above: the source of all rotations below, and one amount
that turns it into what the level shows. A failing offer betrays a failing chain. -/
def OffersTurn (r s : Shape) (chain : Except Fault (List Link)) :
    Except Fault (Option (Number × Stage × Option Int)) → Prop
  | .error _ => ∀ ls, chain ≠ .ok ls
  | .ok none => True
  | .ok (some (axis, source, total)) =>
    ∃ (a : Nat) (n k : Int), axis = .int a ∧ s[a]? = some n ∧ total = some k ∧
      Descends source s r ∧ chain = extend source (.ok ((Turning.uniform k).link (.ofShape s) a))

/-- A level of shape `s` over a root of shape `r` keeps what the levels above rely on. -/
structure Keeps (r s : Shape) (base : Level) : Prop where
  shape_eq : base.stage.shape.get = .ok (.ofShape s)
  proper : s.IsProper
  descends : Descends base.stage s r
  spans : ∀ m ∈ base.spans?, OffersSpans r s base.stage.chain.get m.get
  turn : s ≠ [] → ∀ t ∈ base.turn?, OffersTurn r s base.stage.chain.get t.offer

/-- A chain leads where a link leads and from there where another chain leads. If the link or the
other chain fails, it fails. -/
def Follows (chain : Except Fault (List Link)) (own : Except Fault Link)
    (below : Except Fault (List Link)) (u r : Shape) : Prop :=
  match own, below with
  | .ok l, .ok ls => ∃ ms, chain = .ok ms ∧ Chained ms u r ∧
      ∀ i, u.Holds i → reachAll ms i = (l.reach i).bind (reachAll ls)
  | _, _ => ∀ ms, chain ≠ .ok ms

theorem extend_eq_ok {source : Stage} {own : Except Fault Link} {ms : List Link} :
    extend source own = .ok ms ↔
      ∃ l ls, own = .ok l ∧ source.chain.get = .ok ls ∧ ms = l :: ls := by
  unfold extend
  constructor
  · intro h
    obtain ⟨ls, hls, h⟩ := bind_eq_ok.mp h
    obtain ⟨l, hl, h⟩ := bind_eq_ok.mp h
    cases h
    exact ⟨l, ls, hl, hls, rfl⟩
  · rintro ⟨l, ls, hl, hls, rfl⟩
    simp [hl, hls, bind, Except.bind, pure, Except.pure]

theorem follows_extend {source : Stage} {own : Except Fault Link} {u t r : Shape}
    (hd : Descends source t r) (ho : ∀ l, own = .ok l → l.Carries u t) :
    Follows (extend source own) own source.chain.get u r := by
  unfold Follows
  split
  · rename_i l ls hl
    exact ⟨_, extend_eq_ok.mpr ⟨l, ls, rfl, hl, rfl⟩, .cons (ho l rfl) (hd ls hl), fun i _ => rfl⟩
  · rename_i h
    intro ms hm
    obtain ⟨l, ls, hl, hls, _⟩ := extend_eq_ok.mp hm
    exact h l ls hl hls

theorem Follows.descends {chain : Except Fault (List Link)} {own : Except Fault Link}
    {below : Except Fault (List Link)} {u r : Shape} (h : Follows chain own below u r)
    {ms : List Link} (hm : chain = .ok ms) : Chained ms u r := by
  unfold Follows at h
  split at h
  · obtain ⟨ns, hn, hc, _⟩ := h
    rw [hm] at hn
    cases hn
    exact hc
  · exact absurd hm (h ms)

variable {fill : Item → Except Fault Item} {root : Facts Item} {base : Level} {r t : Shape}

/-- A merged layout shows of the source of all sections what the new section shows. -/
theorem mergedLayout_spec (hb : Keeps r t base) {drop : Bool} {counts : List Int}
    {axes : Option (List Int)} {o : List Span}
    (ho : Section.layout drop counts axes (.ofShape t) = .ok (Layout.ofSpans o))
    (hf : Span.FitAll o t) :
    ∃ (source : Stage) (l : List Span) (t' : Shape),
      mergedLayout base drop counts axes = .ok (source, Layout.ofSpans l) ∧
      source.shape.get = .ok (.ofShape t') ∧ Span.FitAll l t' ∧ Span.shape o = Span.shape l ∧
      Descends source t' r ∧
      Follows (extend source (.ok (Section.linkOf l t'))) (.ok (Section.linkOf o t))
        base.stage.chain.get (Span.shape o) r := by
  cases hm : base.spans? with
  | none =>
      refine ⟨base.stage, o, t, ?_, hb.shape_eq, hf, rfl, hb.descends, ?_⟩
      · simp [mergedLayout, hm, hb.shape_eq, ho, bind, Except.bind, pure, Except.pure]
      · refine follows_extend hb.descends fun l hl => ?_
        cases hl
        exact (Section.maps_linkOf hf).carries
  | some m =>
      obtain ⟨source, l, t', hg, hs, hl, rfl, hd, hc⟩ := hb.spans m hm
      have hsh := Span.shape_mergeAll hl hf
      refine ⟨source, Span.mergeAll l o, t', ?_, hs, hl.mergeAll hf, hsh.symm, hd, ?_⟩
      · simp [mergedLayout, hm, hg, hb.shape_eq, ho, Layout.merge_ofSpans, bind, Except.bind, pure,
          Except.pure]
      · rw [hc]
        unfold Follows
        split
        · rename_i own ls hown hls
          cases hown
          obtain ⟨_, ms, hl', hms, rfl⟩ := extend_eq_ok.mp hls
          cases hl'
          refine ⟨_, extend_eq_ok.mpr ⟨_, ms, rfl, hms, rfl⟩, ?_, fun i hi => ?_⟩
          · rw [← hsh]
            exact .cons (Section.maps_linkOf (hl.mergeAll hf)).carries (hd ms hms)
          · simp only [reachAll]
            rw [Section.reach_mergeAll hl hf hi, Option.bind_assoc]
        · rename_i h
          intro ms hms
          obtain ⟨_, ls, _, hls, _⟩ := extend_eq_ok.mp hms
          exact h _ _ rfl (extend_eq_ok.mpr ⟨_, ls, rfl, hls, rfl⟩)

/-- What a transform makes of a level that keeps its promises: a level of shape `u` that keeps
them as well, whose chain does what the link of the transform does and then the chain below. -/
structure Advances (fill : Item → Except Fault Item) (root : Facts Item) (base : Level)
    (r t : Shape) (s : Step) (u : Shape) : Prop where
  keeps : Keeps r u (above fill root s base)
  follows : Follows (above fill root s base).stage.chain.get (s.linkOver (.ofShape t))
    base.stage.chain.get u r

theorem advances_cut (hb : Keeps r t base) {style : Cut} {drop : Bool} {counts : List Int}
    {axes : Option (List Int)} {u : Shape}
    (hu : (Step.cut style drop counts axes).shapeOver (.ofShape t) = .ok (.ofShape u)) :
    Advances fill root base r t (.cut style drop counts axes) u := by
  obtain ⟨o, ho, hf⟩ := Section.layout_ofShape drop counts axes hb.proper
  obtain ⟨source, l, t', hm, hs, hl, hsh, hd, hfo⟩ := mergedLayout_spec hb ho hf
  simp only [Step.shapeOver, ho, Layout.extents_ofSpans, bind, Except.bind, Except.ok.injEq] at hu
  obtain rfl := Extents.ofShape_inj hu
  have hc : (above fill root (.cut style drop counts axes) base).stage.chain.get =
      extend source (.ok (Section.linkOf l t')) := by
    simp [above, hm, hs, Section.link_ofSpans, bind, Except.bind]
  have hown : (Step.cut style drop counts axes).linkOver (.ofShape t) =
      .ok (Section.linkOf o t) := by
    simp [Step.linkOver, ho, Section.link_ofSpans, bind, Except.bind]
  have hfollow : Follows (above fill root (.cut style drop counts axes) base).stage.chain.get
      ((Step.cut style drop counts axes).linkOver (.ofShape t)) base.stage.chain.get
      (Span.shape o) r := by
    rw [hc, hown]
    exact hfo
  refine ⟨⟨?_, hf.shape_isProper, fun ls hls => hfollow.descends hls, ?_, ?_⟩, hfollow⟩
  · simp [above, hm, Layout.extents_ofSpans, hsh, bind, Except.bind]
  · rintro m ⟨⟩
    exact ⟨source, l, t', hm, hs, hl, hsh, hd, hc⟩
  · rintro _ m ⟨⟩

variable {amount : Option IntArgument} {given : Option AxisArgument} {first : Bool}
  {origin : Origin}

/-- How a rotation adds its amount to the rotations below: it starts afresh, or it goes on with
what the rotation below offers, or it fails because its own amount or axis or that offer fails. -/
inductive Adds (base : Level) (t : Shape) (amount : Option IntArgument)
    (given : Option AxisArgument) (first : Bool) (origin : Origin) :
    Except Fault (Stage × Option Int) → Prop
  | afresh {own : Option Int} (h : Rotation.single amount = .ok own) :
      Adds base t amount given first origin (.ok (base.stage, own))
  | onward {below : Turn} {k : Int} {lower upper : Number} {source : Stage} {total : Option Int}
      (hs : Rotation.single amount = .ok (some k)) (hb : base.turn? = some below) (hne : t ≠ [])
      (ho : below.offer = .ok (some (lower, source, total)))
      (hu : Rotation.located given first origin (.ofShape t) = .ok upper)
      (he : lower.eq upper = true) :
      Adds base t amount given first origin (.ok (source, total.map (· + k)))
  | unread {f g : Fault} (h : Rotation.single amount = .error g) :
      Adds base t amount given first origin (.error f)
  | unplaced {f g : Fault} (hne : t ≠ [])
      (h : Rotation.located given first origin (.ofShape t) = .error g) :
      Adds base t amount given first origin (.error f)
  | refused {f g : Fault} {below : Turn} (hb : base.turn? = some below) (hne : t ≠ [])
      (h : below.offer = .error g) : Adds base t amount given first origin (.error f)

theorem adds_addedTurns (hb : base.stage.shape.get = .ok (.ofShape t)) :
    Adds base t amount given first origin (addedTurns base amount given first origin) := by
  unfold addedTurns
  cases hs : Rotation.single amount with
  | error f => exact .unread hs
  | ok own =>
      cases own with
      | none => exact .afresh hs
      | some k =>
          cases ht : base.turn? with
          | none => exact .afresh hs
          | some below =>
              simp only [hb, bind, Except.bind]
              rcases eq_or_ne t [] with rfl | hne
              · exact .afresh hs
              · have hemp : (Extents.ofShape t).isEmpty = false := by
                  simpa [Extents.ofShape] using hne
                rw [if_neg (by simp [hemp])]
                cases h1 : below.single.get with
                | error f =>
                    exact .refused ht hne (g := f) (by simp [Turn.offer, h1, bind, Except.bind])
                | ok one =>
                    cases one with
                    | none => exact .afresh hs
                    | some m =>
                        cases h2 : below.axis.get with
                        | error f =>
                            exact .refused ht hne (g := f)
                              (by simp [Turn.offer, h1, h2, bind, Except.bind])
                        | ok lower =>
                            cases h3 : Rotation.located given first origin (.ofShape t) with
                            | error f => exact .unplaced hne h3
                            | ok upper =>
                                dsimp only
                                cases he : lower.eq upper with
                                | false => exact .afresh hs
                                | true =>
                                    cases h4 : below.total.get with
                                    | error f =>
                                        exact .refused ht hne (g := f)
                                          (by simp [Turn.offer, h1, h2, h4, bind, Except.bind])
                                    | ok p =>
                                        exact .onward hs ht hne
                                          (by simp [Turn.offer, h1, h2, h4, bind, Except.bind, pure,
                                            Except.pure]) h3 he

theorem linkWith_some (total : Int) {k : Int} {a : Nat} {e : Extents} (hne : t ≠ [])
    (he : Rotation.shape amount given first origin (.ofShape t) = .ok e)
    (hs : Rotation.single amount = .ok (some k))
    (ha : Rotation.located given first origin (.ofShape t) = .ok (.int a)) :
    Rotation.linkWith amount given first origin (.ofShape t) (some total) =
      .ok ((Turning.uniform total).link (.ofShape t) a) := by
  rw [Rotation.linkWith_of_ne_nil hne he]
  cases amount with
  | none => cases hs
  | some y => simp [Rotation.axis, ha, bind, Except.bind, pure, Except.pure]

theorem linkWith_unplaced (total : Option Int) {f : Fault} {e : Extents} (hne : t ≠ [])
    (he : Rotation.shape amount given first origin (.ofShape t) = .ok e)
    (ha : Rotation.located given first origin (.ofShape t) = .error f) :
    Rotation.linkWith amount given first origin (.ofShape t) total = .error f := by
  rw [Rotation.linkWith_of_ne_nil hne he]
  simp [Rotation.axis, ha, bind, Except.bind]

/-- The chain that belongs to an added amount. -/
def turnedChain (amount : Option IntArgument) (given : Option AxisArgument) (first : Bool)
    (origin : Origin) (t : Shape) (added : Except Fault (Stage × Option Int)) :
    Except Fault (List Link) := do
  let (source, k) ← added
  extend source (Rotation.linkWith amount given first origin (.ofShape t) k)

theorem Follows.of_own_error {chain : Except Fault (List Link)} {f : Fault}
    {below : Except Fault (List Link)} {u r : Shape} :
    Follows chain (.error f) below u r ↔ ∀ ms, chain ≠ .ok ms :=
  Iff.rfl

theorem Follows.of_below_error {chain own} {below : Except Fault (List Link)} {u r : Shape}
    (hb : ∀ ls, below ≠ .ok ls) (hc : ∀ ms, chain ≠ .ok ms) : Follows chain own below u r := by
  unfold Follows
  split
  · exact absurd rfl (hb _)
  · exact hc

theorem Adds.follows {added : Except Fault (Stage × Option Int)} {o : Int} {e : Extents}
    (h : Adds base t amount given first origin added) (hb : Keeps r t base)
    (hy : ∀ y ∈ amount, y.IsCounted) (ho : origin.number = .ok (.int o))
    (he : Rotation.shape amount given first origin (.ofShape t) = .ok e) :
    Follows (turnedChain amount given first origin t added)
      (Rotation.single amount >>= Rotation.linkWith amount given first origin (.ofShape t))
      base.stage.chain.get t r := by
  cases h with
  | @afresh own hs =>
      rw [hs]
      refine follows_extend hb.descends fun l hl => ?_
      refine Rotation.carries_linkWith hy hb.proper he (fun hn => ?_) hl
      rw [hs, hn]
  -- both rotations turn one axis, so their sum turns it once
  | @onward below k lower upper source total hs ht hne hof hu heq =>
      have hoff := hb.turn hne below ht
      rw [hof] at hoff
      obtain ⟨a, n, m, rfl, hn, rfl, hd, hc⟩ := hoff
      obtain ⟨b, rfl⟩ : ∃ b, upper = .int b := by
        cases given with
        | some g => exact AxisArgument.located_whole ho hu
        | none => exact ⟨_, (Except.ok.inj hu).symm⟩
      obtain rfl : (a : Int) = b := by simpa using heq
      have hown := linkWith_some k hne he hs hu
      have hadd := linkWith_some (m + k) hne he hs hu
      simp only [hs, bind, Except.bind, hown, turnedChain, Option.map_some, hadd, hc]
      unfold Follows
      split
      · rename_i l ls hl hls
        cases hl
        obtain ⟨_, ms, hl', hms, rfl⟩ := extend_eq_ok.mp hls
        cases hl'
        refine ⟨_, extend_eq_ok.mpr ⟨_, ms, rfl, hms, rfl⟩,
          .cons (Turning.carries_uniform hb.proper hn (m + k)) (hd ms hms), fun i hi => ?_⟩
        simp only [reachAll]
        rw [Turning.reach_uniform_add hb.proper hn k m hi, Option.bind_assoc]
      · rename_i h
        intro ms hms
        obtain ⟨_, ls, _, hls, _⟩ := extend_eq_ok.mp hms
        exact h _ _ rfl (extend_eq_ok.mpr ⟨_, ls, rfl, hls, rfl⟩)
  | @unread f g hs =>
      rw [hs]
      exact Follows.of_own_error.mpr fun ms hms => by cases hms
  | @unplaced f g hne hl =>
      have hown (k : Option Int) := linkWith_unplaced k hne he hl
      cases hs : Rotation.single amount with
      | error g => exact Follows.of_own_error.mpr fun ms hms => by cases hms
      | ok k =>
          simp only [bind, Except.bind, hown]
          exact Follows.of_own_error.mpr fun ms hms => by cases hms
  | @refused f g below ht hne hof =>
      have hoff := hb.turn hne below ht
      rw [hof] at hoff
      exact Follows.of_below_error hoff fun ms hms => by cases hms

/-- What a rotation offers in turn is what it has added up. -/
theorem Adds.offers {added : Except Fault (Stage × Option Int)} {o : Int} {e : Extents}
    (h : Adds base t amount given first origin added) (hb : Keeps r t base)
    (hy : ∀ y ∈ amount, y.IsCounted) (ho : origin.number = .ok (.int o))
    (he : Rotation.shape amount given first origin (.ofShape t) = .ok e) (hne : t ≠ [])
    {turn : Turn}
    (h1 : turn.single.get = Rotation.single amount)
    (h2 : turn.axis.get = Rotation.located given first origin (.ofShape t))
    (h3 : turn.total.get = added) :
    OffersTurn r t (turnedChain amount given first origin t added) turn.offer := by
  have hf := h.follows hb hy ho he
  unfold Turn.offer
  rw [h1, h2, h3]
  cases hs : Rotation.single amount with
  | error f =>
      rw [hs] at hf
      exact Follows.of_own_error.mp hf
  | ok own =>
      cases own with
      | none => trivial
      | some k =>
          cases hl : Rotation.located given first origin (.ofShape t) with
          | error f =>
              simp only [hs, bind, Except.bind, linkWith_unplaced _ hne he hl] at hf
              exact Follows.of_own_error.mp hf
          | ok x =>
              obtain ⟨b, rfl⟩ : ∃ b, x = .int b := by
                cases given with
                | some g => exact AxisArgument.located_whole ho hl
                | none => exact ⟨_, (Except.ok.inj hl).symm⟩
              obtain ⟨h0, hlt⟩ := Rotation.located_int hne hl
              obtain ⟨a, rfl⟩ := Int.eq_ofNat_of_zero_le h0
              have ha : t[a]? = some t[a] := List.getElem?_eq_getElem (by omega)
              -- the sum is offered if the rotation below was added, else the amount
              cases h with
              | @afresh own hs' =>
                  rw [hs] at hs'
                  cases hs'
                  refine ⟨a, _, k, rfl, ha, rfl, hb.descends, ?_⟩
                  simp only [turnedChain, bind, Except.bind]
                  rw [linkWith_some _ hne he hs hl]
              | @onward below k' lower upper source total hs' ht _ hof hu heq =>
                  rw [hs] at hs'
                  cases hs'
                  have hoff := hb.turn hne below ht
                  rw [hof] at hoff
                  obtain ⟨_, _, m, _, _, rfl, hd, _⟩ := hoff
                  refine ⟨a, _, m + k, rfl, ha, rfl, hd, ?_⟩
                  simp only [turnedChain, bind, Except.bind, Option.map_some]
                  rw [linkWith_some _ hne he hs hl]
              | unread _ => exact fun ms hms => by cases hms
              | unplaced _ _ => exact fun ms hms => by cases hms
              | refused _ _ _ => exact fun ms hms => by cases hms

theorem advances_rotate (hb : Keeps r t base) {o : Int} {e : Extents}
    (hy : ∀ y ∈ amount, y.IsCounted) (ho : origin.number = .ok (.int o))
    (he : Rotation.shape amount given first origin (.ofShape t) = .ok e) :
    Advances fill root base r t (.rotate amount given first origin) t := by
  have ha : Adds base t amount given first origin (addedTurns base amount given first origin) :=
    adds_addedTurns hb.shape_eq
  have hc : (above fill root (.rotate amount given first origin) base).stage.chain.get =
      turnedChain amount given first origin t (addedTurns base amount given first origin) := by
    simp [above, turnedChain, hb.shape_eq, bind, Except.bind]
  have hf := ha.follows hb hy ho he
  rw [← hc] at hf
  refine ⟨⟨?_, hb.proper, fun ls hls => hf.descends hls, ?_, fun hne => ?_⟩, hf⟩
  · simp only [above, Step.fixedShape?, Lazy.get_keep, hb.shape_eq, Step.shapeOver, bind,
      Except.bind, he, Rotation.shape_eq he]
  · rintro m ⟨⟩
  · rintro m ⟨⟩
    rw [hc]
    refine ha.offers hb hy ho he hne rfl ?_ rfl
    simp [hb.shape_eq, bind, Except.bind]

theorem advances_plain (hb : Keeps r t base) {s : Step} {u : Shape} (hl : s.Leads u t)
    (hshape : (above fill root s base).stage.shape.get = .ok (.ofShape u))
    (hchain : (above fill root s base).stage.chain.get =
      extend base.stage (s.linkOver (.ofShape t)))
    (hspans : (above fill root s base).spans? = none)
    (hturn : (above fill root s base).turn? = none) : Advances fill root base r t s u := by
  have hf := follows_extend hb.descends hl.2
  rw [← hchain] at hf
  refine ⟨⟨hshape, hl.1, fun ls hls => hf.descends hls, ?_, fun _ => ?_⟩, hf⟩
  · rw [hspans]
    rintro m ⟨⟩
  · rw [hturn]
    rintro m ⟨⟩

/-- A transform with a shape on top of a level has a shape over the extents of that level. -/
theorem shapeOver_of_above (hb : Keeps r t base) {s : Step} {e : Extents}
    (he : (above fill root s base).stage.shape.get = .ok e) :
    ∃ x, s.shapeOver (.ofShape t) = .ok x := by
  cases s with
  | reshape style dims => exact ⟨_, rfl⟩
  | window offset dims => exact ⟨_, rfl⟩
  | cut style drop counts axes =>
      obtain ⟨l, hl, _⟩ := Section.layout_ofShape drop counts axes hb.proper
      simp only [Step.shapeOver, hl, Layout.extents_ofSpans, bind, Except.bind]
      exact ⟨_, rfl⟩
  | _ =>
      simp only [above, Step.fixedShape?, Lazy.get_keep, hb.shape_eq, bind, Except.bind] at he
      exact ⟨e, he⟩

variable (fill root) in
/-- Every sound transform advances a level. -/
theorem advances_of_isSound (hb : Keeps r t base) {s : Step} {u : Shape} (hs : s.IsSound t)
    (hu : s.shapeOver (.ofShape t) = .ok (.ofShape u)) : Advances fill root base r t s u := by
  obtain ⟨v, hv, hl⟩ := hs.leads hb.proper hu
  obtain rfl := Extents.ofShape_inj hv
  cases s with
  | cut style drop counts axes => exact advances_cut hb hu
  | rotate amount given first origin =>
      obtain ⟨hy, o, ho⟩ := hs
      obtain rfl := Extents.ofShape_inj (Rotation.shape_eq hu)
      exact advances_rotate hb hy ho hu
  | reshape style dims =>
      refine advances_plain hb hl hu ?_ rfl rfl
      simp [above, hb.shape_eq, bind, Except.bind]
  | window offset dims =>
      refine advances_plain hb hl hu ?_ rfl rfl
      simp [above, hb.shape_eq, bind, Except.bind]
  | permute axes =>
      refine advances_plain hb hl ?_ ?_ rfl rfl <;>
        simp [above, Step.fixedShape?, hb.shape_eq, hu, bind, Except.bind]
  | compress degrees isScalar given first origin =>
      refine advances_plain hb hl ?_ ?_ rfl rfl <;>
        simp [above, Step.fixedShape?, hb.shape_eq, hu, bind, Except.bind]
  | select indices origin =>
      refine advances_plain hb hl ?_ ?_ rfl rfl <;>
        simp [above, Step.fixedShape?, hb.shape_eq, hu, bind, Except.bind]

end Level

namespace Tower

/-- A tower over a root of shape `r` stands at shape `s`: every transform is sound over the array
below it and has a shape there. -/
inductive Stands (root : Facts Item) (r : Shape) : List Step → Shape → Prop
  | root (h : root.shape.get = .ok (.ofShape r)) (hr : r.IsProper) : Stands root r [] r
  | above {steps : List Step} {s : Step} {t u : Shape} (h : Stands root r steps t)
      (hs : s.IsSound t) (hu : s.shapeOver (.ofShape t) = .ok (.ofShape u)) :
      Stands root r (s :: steps) u

theorem Stands.keeps {root : Facts Item} {r s : Shape} {steps : List Step}
    (h : Stands root r steps s) (fill : Item → Except Fault Item) :
    Level.Keeps r s (Level.ofSteps fill root steps) := by
  induction h with
  | root h hr =>
      refine ⟨h, hr, fun ls hls => ?_, ?_, fun _ => ?_⟩
      · obtain rfl := Except.ok.inj hls
        exact .nil r
      · rintro m ⟨⟩
      · rintro m ⟨⟩
  | above h hs hu ih => exact (Level.advances_of_isSound fill root ih hs hu).keeps

/-- The item that shows where a position of the root shows, or the fill where none does. -/
def shown (cells : Gen Item) (prototype : Except Fault Item) : Option Int → Except Fault Item
  | some j => cells.cell (.int j)
  | none => prototype

theorem match_shown (cells : Gen Item) (prototype : Except Fault Item) (r : Option Int) :
    (do
      match ← (match r.map Number.int with
        | none => return none
        | some j => return some (← cells.cell j) : Except Fault (Option Item)) with
      | some x => return x
      | none => prototype) = shown cells prototype r := by
  cases r with
  | none => rfl
  | some j =>
      simp only [shown, Option.map_some, bind, Except.bind, pure, Except.pure]
      cases cells.cell (.int j) <;> rfl

variable {fill : Item → Except Fault Item} {root : Facts Item} {r s : Shape} {steps : List Step}

theorem shape_facts : (facts fill root steps).shape.get =
    (Level.ofSteps fill root steps).stage.shape.get := by
  cases steps <;> rfl

theorem etype_facts : (facts fill root steps).etype.get =
    (Level.ofSteps fill root steps).stage.etype.get := by
  cases steps <;> rfl

theorem prototype_facts : (facts fill root steps).prototype .now =
    (Level.ofSteps fill root steps).stage.prototype.get := by
  cases steps <;> rfl

theorem prototype_cons {x : Step} (hx : x.isWindow = false) :
    (facts fill root (x :: steps)).prototype .now = (facts fill root steps).prototype .now := by
  rw [prototype_facts, prototype_facts]
  cases x with
  | window offset dims => cases hx
  | _ => rfl

/-- The cells of a tower that stands are cells of the root and fills, as its chain leads. -/
theorem Stands.generator_eq (h : Stands root r steps s) {ls : List Link} {cells : Gen Item}
    (hc : (Level.ofSteps fill root steps).stage.chain.get = .ok ls)
    (hg : root.generator .now = .ok cells) :
    ∃ g, (facts fill root steps).generator .now = .ok g ∧ ∀ i, s.Holds i →
      g.cell (.int i) = shown cells ((facts fill root steps).prototype .now) (reachAll ls i) := by
  have hd := (h.keeps fill).descends ls hc
  cases steps with
  | nil =>
      cases hc
      exact ⟨cells, hg, fun i _ => rfl⟩
  | cons x rest =>
      refine ⟨_, bind_eq_ok.mpr ⟨ls, hc, bind_eq_ok.mpr ⟨cells, hg, rfl⟩⟩, fun i hi => ?_⟩
      rw [Gen.cell_indexed, Level.source, hd.compose_eq hi]
      exact match_shown cells _ (reachAll ls i)

theorem generator_ok {g : Gen Item} (h : (facts fill root steps).generator .now = .ok g) :
    ∃ ls cells, (Level.ofSteps fill root steps).stage.chain.get = .ok ls ∧
      root.generator .now = .ok cells := by
  cases steps with
  | nil => exact ⟨[], g, rfl, h⟩
  | cons x rest =>
      obtain ⟨ls, hls, h⟩ := bind_eq_ok.mp h
      obtain ⟨cells, hcells, _⟩ := bind_eq_ok.mp h
      exact ⟨ls, cells, hls, hcells⟩

end Tower
end LazyApl
