import LazyApl.Proofs.Covering
import LazyApl.Proofs.Landing
import LazyApl.Proofs.Overtaking
/-!
# The types of a tower cover what it shows

The element type of a level is made of types and fills alone. It covers what shows through the
chain of the level nevertheless: every cell of the root that the chain leads to, and the fill of the
level if the chain leads to none anywhere. A section or a rotation may start from a level further
down, so the same is kept of the source that a level offers to them.
-/
namespace LazyApl

open Outcome Link

/-- The array has a cell at the position, and the cell renders to the item. -/
def Facts.Shows (f : Facts Item) (k : Int) (y : Item) : Prop :=
  ∃ gen x, f.generator .now = .ok gen ∧ gen.cell (.int k) = .ok x ∧ x.settle = .ok y

variable {root : Facts Item} {prototype : Except Fault Item} {t t' : EType} {s u : Shape}
  {ls : List Link} {l : Link}

/-- The type covers all that shows through a chain over an array of the given shape. Where the chain
leads to no cell of the root, the fill shows. -/
structure EType.CoversAll (t : EType) (root : Facts Item) (prototype : Except Fault Item)
    (s : Shape) (ls : List Link) : Prop where
  cells : ∀ {q : Place} {r : Shape} {k : Int} {y : Item}, Meets ls s (some q) →
    root.shape.get = .ok (.ofShape r) → q.Names r k → root.Shows k y → t.covers y.stored = true
  pads : Meets ls s none → t.CoversFill ∧ ∀ p, prototype = .ok p → t.covers p.stored = true

theorem EType.CoversFill.mono (h : t.CoversFill)
    (ht : ∀ x, t.covers x = true → t'.covers x = true) : t'.CoversFill := by
  obtain ⟨p, hp, hc⟩ := h
  exact ⟨p, hp, ht _ hc⟩

theorem EType.CoversAll.cons (h : t.CoversAll root prototype s ls) (hl : Lands l u s)
    (ht : ∀ x, t.covers x = true → t'.covers x = true)
    (hn : (∃ p i, p.Names u i ∧ l.apply p = .ok none) →
      t'.CoversFill ∧ ∀ p, prototype = .ok p → t'.covers p.stored = true) :
    t'.CoversAll root prototype u (l :: ls) := by
  refine ⟨fun hq hr hk hy => ht _ (h.cells (hq.cons hl) hr hk hy), fun hm => ?_⟩
  rcases hm.cons_none hl with hm | hm
  · exact hn hm
  · obtain ⟨hf, hp⟩ := h.pads hm
    exact ⟨hf.mono ht, fun p hp' => ht _ (hp p hp')⟩

theorem EType.CoversAll.refill (h : t.CoversAll root prototype s ls)
    {prototype' : Except Fault Item} (hp : Meets ls s none → t.CoversFill →
      ∀ p, prototype' = .ok p → t.covers p.stored = true) :
    t.CoversAll root prototype' s ls := by
  refine ⟨h.cells, fun hm => ?_⟩
  have hf := (h.pads hm).1
  exact ⟨hf, hp hm hf⟩

/-- What a stage of a tower answers fits together: its fill is one, its chain leads into the root,
and its type covers what shows. Where a stage gives no answer nothing is said. -/
structure Stage.IsTyped (root : Facts Item) (st : Stage) : Prop where
  shape : ∀ e, st.shape.get = .ok e → ∃ s : Shape, e = .ofShape s ∧ s.IsProper
  fill : ∀ p, st.prototype.get = .ok p → p.IsFill
  bounds : ∀ t, st.etype.get = .ok t → t.HasWholeBounds
  landing : ∀ s ls, st.shape.get = .ok (.ofShape s) → st.chain.get = .ok ls →
    ∃ r, root.shape.get = .ok (.ofShape r) ∧ Landing ls s r
  covers : ∀ s ls t, st.shape.get = .ok (.ofShape s) → st.chain.get = .ok ls →
    st.etype.get = .ok t → t.CoversAll root st.prototype.get s ls

theorem Stage.IsTyped.refill {st : Stage} (h : st.IsTyped root) {fill : Lazy Item}
    (hfill : ∀ p, fill.get = .ok p → p.IsFill)
    (hp : ∀ s ls t, st.shape.get = .ok (.ofShape s) → st.chain.get = .ok ls →
      st.etype.get = .ok t → Meets ls s none → t.CoversFill →
      ∀ p, fill.get = .ok p → t.covers p.stored = true) :
    { st with prototype := fill }.IsTyped root := by
  refine ⟨h.shape, hfill, h.bounds, h.landing, fun s ls t hs hls ht => ?_⟩
  exact (h.covers s ls t hs hls ht).refill (hp s ls t hs hls ht)

/-- A stage that a rotation offers as its source answers like the rotation. -/
structure Stage.Resembles (source st : Stage) : Prop where
  shape : ∀ e, st.shape.get = .ok e → source.shape.get = .ok e
  etype : source.etype.get = st.etype.get
  prototype : source.prototype.get = st.prototype.get

/-- A stage that a level offers is typed, and it differs from the level only by what a transform on
top of it can reckon with. -/
structure Level.IsTyped (root : Facts Item) (base : Level) : Prop where
  stage : base.stage.IsTyped root
  spans : ∀ m ∈ base.spans?, ∀ source layout, m.get = .ok (source, layout) →
    source.IsTyped root ∧ source.prototype.get = base.stage.prototype.get ∧
      ∃ (i : List Span) (d : Shape), layout = Layout.ofSpans i ∧
        source.shape.get = .ok (.ofShape d) ∧ Span.FitAll i d ∧
        base.stage.shape.get = .ok (.ofShape (Span.shape i))
  turn : ∀ m ∈ base.turn?, ∀ source total, m.total.get = .ok (source, total) →
    source.IsTyped root ∧ source.Resembles base.stage ∧ (total = none → m.single.get = .ok none)

namespace Level

variable {base : Level}

theorem paddedType_spec {source : Stage} (hs : source.IsTyped root)
    (h : paddedType source = .ok t') :
    t'.HasWholeBounds ∧ t'.CoversFill ∧
      (∀ p, source.prototype.get = .ok p → t'.covers p.stored = true) ∧
      ∃ t, source.etype.get = .ok t ∧ ∀ x, t.covers x = true → t'.covers x = true := by
  obtain ⟨t, ht, h⟩ := bind_eq_ok.mp h
  obtain ⟨p, hp, h⟩ := bind_eq_ok.mp h
  obtain rfl := Except.ok.inj h
  have hw := hs.bounds t ht
  have hw' := Item.hasWholeBounds_etype p
  have hfill := EType.covers_join hw hw' (.inr (hs.fill p hp).covers_etype)
  refine ⟨hw.join hw', ⟨p, hs.fill p hp, hfill⟩, fun p' hp' => ?_, t, ht, fun x hx => ?_⟩
  · rw [hp] at hp'
    obtain rfl := Except.ok.inj hp'
    exact hfill
  · exact EType.covers_join hw hw' (.inl hx)

theorem IsTyped.landing_plain (hb : base.IsTyped root) {x : Step} {st : Stage}
    (hlegal : x.IsLegal base.stage.shape.get)
    (hshape : ∀ d e, base.stage.shape.get = .ok d → st.shape.get = .ok e → x.shapeOver d = .ok e)
    (hchain : st.chain.get = extend base.stage (base.stage.shape.get >>= x.linkOver))
    {ms : List Link} (hs : st.shape.get = .ok (.ofShape s)) (hm : st.chain.get = .ok ms) :
    ∃ d l ls, base.stage.shape.get = .ok (.ofShape d) ∧ x.linkOver (.ofShape d) = .ok l ∧
      Lands l s d ∧ base.stage.chain.get = .ok ls ∧ ms = l :: ls := by
  rw [hchain] at hm
  obtain ⟨l, ls, hl, hls, rfl⟩ := extend_eq_ok.mp hm
  obtain ⟨e, he, hl⟩ := bind_eq_ok.mp hl
  obtain ⟨d, rfl, hd⟩ := hb.stage.shape e he
  rw [he] at hlegal
  obtain ⟨u, hu, _, hlands⟩ := hlegal.lands hd (hshape _ _ he hs)
  obtain rfl := Extents.ofShape_inj hu
  exact ⟨d, l, ls, he, hl, hlands l hl, hls, rfl⟩

/-- A transform that nothing is folded into is typed if its type covers what the type below does,
and the fills that its own link shows. -/
theorem IsTyped.plain (hb : base.IsTyped root) {x : Step} {st : Stage}
    (hlegal : x.IsLegal base.stage.shape.get)
    (hproper : ∀ e, st.shape.get = .ok e → ∃ u : Shape, e = .ofShape u ∧ u.IsProper)
    (hshape : ∀ d e, base.stage.shape.get = .ok d → st.shape.get = .ok e → x.shapeOver d = .ok e)
    (hchain : st.chain.get = extend base.stage (base.stage.shape.get >>= x.linkOver))
    (hfill : st.prototype.get = base.stage.prototype.get)
    (hbounds : ∀ t, st.etype.get = .ok t → t.HasWholeBounds)
    (hcovers : ∀ d s l t, base.stage.shape.get = .ok (.ofShape d) →
      st.shape.get = .ok (.ofShape s) → x.linkOver (.ofShape d) = .ok l → Lands l s d →
      st.etype.get = .ok t →
        (∀ ls, base.stage.chain.get = .ok ls →
          t.CoversAll root base.stage.prototype.get s (l :: ls))) : st.IsTyped root := by
  refine ⟨hproper, fun p hp => hb.stage.fill p (hfill ▸ hp), hbounds, fun s ms hs hm => ?_,
    fun s ms t hs hm ht => ?_⟩
  · obtain ⟨d, l, ls, hd, _, hlands, hls, rfl⟩ := hb.landing_plain hlegal hshape hchain hs hm
    obtain ⟨r, hr, hland⟩ := hb.stage.landing d ls hd hls
    exact ⟨r, hr, .cons hlands hland⟩
  · obtain ⟨d, l, ls, hd, hl, hlands, hls, rfl⟩ := hb.landing_plain hlegal hshape hchain hs hm
    rw [hfill]
    exact hcovers d s l t hd hs hl hlands ht ls hls

theorem IsTyped.covers_full (hb : base.IsTyped root) {d : Shape} (hl : Lands l s d)
    (hf : l.IsFull) (hd : base.stage.shape.get = .ok (.ofShape d))
    (ht : base.stage.etype.get = .ok t) (hls : base.stage.chain.get = .ok ls) :
    t.CoversAll root base.stage.prototype.get s (l :: ls) := by
  refine (hb.stage.covers d ls t hd hls ht).cons hl (fun _ h => h) ?_
  rintro ⟨p, _, _, hn⟩
  exact absurd hn (hf p)

theorem covers_padded {source : Stage} (hs : source.IsTyped root) {d : Shape}
    (hl : Lands l s d) (hd : source.shape.get = .ok (.ofShape d))
    (ht : paddedType source = .ok t) (hls : source.chain.get = .ok ls) :
    t.CoversAll root source.prototype.get s (l :: ls) := by
  obtain ⟨_, hfill, hp, t', ht', hmono⟩ := paddedType_spec hs ht
  exact (hs.covers d ls t' hd hls ht').cons hl hmono fun _ => ⟨hfill, hp⟩

theorem IsTyped.exists_shape (hb : base.IsTyped root) {x : Step}
    (hlegal : x.IsLegal base.stage.shape.get) {e : Extents}
    (he : (base.stage.shape.get >>= x.shapeOver) = .ok e) :
    ∃ u : Shape, e = .ofShape u ∧ u.IsProper := by
  obtain ⟨e', he', hs⟩ := bind_eq_ok.mp he
  obtain ⟨d, rfl, hd⟩ := hb.stage.shape e' he'
  obtain ⟨u, hu, hp, _⟩ := (he' ▸ hlegal).lands hd hs
  exact ⟨u, hu, hp⟩

theorem shapeOver_of_bind {x : Step} {source : Except Fault Extents} {d e : Extents}
    (hd : source = .ok d) (he : (source >>= x.shapeOver) = .ok e) : x.shapeOver d = .ok e := by
  rw [hd] at he
  exact he

theorem IsTyped.permute (hb : base.IsTyped root) (axes : Option (List Number)) :
    (above Item.fillOf root (.permute axes) base).stage.IsTyped root := by
  have hlegal : (Step.permute axes).IsLegal base.stage.shape.get := trivial
  refine hb.plain hlegal (fun e he => hb.exists_shape hlegal he)
    (fun d e hd he => shapeOver_of_bind hd he) rfl rfl hb.stage.bounds
    fun d s l t hd _ hl hlands ht ls hls => ?_
  obtain ⟨_, _, hl⟩ := bind_eq_ok.mp hl
  exact hb.covers_full hlands (Transpose.isFull_link hl) hd ht hls

theorem IsTyped.select (hb : base.IsTyped root) {indices : List (Option IntArgument)}
    {origin : Origin} (hlegal : (Step.select indices origin).IsLegal base.stage.shape.get) :
    (above Item.fillOf root (.select indices origin) base).stage.IsTyped root := by
  refine hb.plain hlegal (fun e he => hb.exists_shape hlegal he)
    (fun d e hd he => shapeOver_of_bind hd he) rfl rfl hb.stage.bounds
    fun d s l t hd _ hl hlands ht ls hls => ?_
  exact hb.covers_full hlands (Selection.isFull_link hl) hd ht hls

/-- A replication has a padded type if it counts fills. -/
theorem IsTyped.compress (hb : base.IsTyped root) (degrees : List Int) (isScalar : Bool)
    (given : Option AxisArgument) (first : Bool) (origin : Origin) (room : Room) :
    (above Item.fillOf root (.compress degrees isScalar given first origin room) base).stage.IsTyped
      root := by
  have hlegal : (Step.compress degrees isScalar given first origin room).IsLegal
    base.stage.shape.get := trivial
  refine hb.plain hlegal (fun e he => hb.exists_shape hlegal he)
    (fun d e hd he => shapeOver_of_bind hd he) rfl rfl (fun t ht => ?_)
    fun d s l t hd _ hl hlands ht ls hls => ?_
  · obtain ⟨_, _, ht⟩ := bind_eq_ok.mp ht
    obtain ⟨_, _, ht⟩ := bind_eq_ok.mp ht
    obtain ⟨_, _, ht⟩ := bind_eq_ok.mp ht
    obtain ⟨_, _, ht⟩ := bind_eq_ok.mp ht
    split at ht
    · exact (paddedType_spec hb.stage ht).1
    · exact hb.stage.bounds t ht
  · obtain ⟨a, ha, hl⟩ := bind_eq_ok.mp hl
    obtain ⟨n, hn, hl⟩ := bind_eq_ok.mp hl
    obtain ⟨cells, hc, hl⟩ := bind_eq_ok.mp hl
    obtain rfl := Except.ok.inj hl
    simp only [above, Lazy.get_delay, hd, ha, hn, hc, bind, Except.bind] at ht
    split at ht
    · exact covers_padded hb.stage hlands hd ht hls
    · rename_i hnone
      have hfull := Replicate.isFull_link (Bool.eq_false_iff.mpr hnone) a (.ofShape d)
      exact hb.covers_full hlands hfull hd ht hls

/-- A reshape of no cells shows fills only, and has their type. -/
theorem IsTyped.reshape (hb : base.IsTyped root) (style : Recast) {dims : Shape}
    (hdims : dims.IsProper) :
    (above Item.fillOf root (.reshape style dims) base).stage.IsTyped root := by
  have hlegal : (Step.reshape style dims).IsLegal base.stage.shape.get := hdims
  refine hb.plain hlegal (fun e he => ?_) (fun d e _ he => he) rfl rfl (fun t ht => ?_)
    fun d s l t hd _ hl hlands ht ls hls => ?_
  · obtain rfl := Except.ok.inj he
    exact ⟨dims, rfl, hdims⟩
  · obtain ⟨_, _, ht⟩ := bind_eq_ok.mp ht
    obtain ⟨_, _, ht⟩ := bind_eq_ok.mp ht
    split at ht
    · obtain ⟨p, _, ht⟩ := bind_eq_ok.mp ht
      obtain rfl := Except.ok.inj ht
      exact Item.hasWholeBounds_etype p
    · exact hb.stage.bounds t ht
  · simp only [above, Lazy.get_delay, hd, bind, Except.bind, Extents.size_ofShape,
      Number.isZero_int, beq_iff_eq] at ht
    split at ht
    · rename_i h0
      obtain ⟨p, hp, ht⟩ := bind_eq_ok.mp ht
      obtain rfl := Except.ok.inj ht
      have hfill := (hb.stage.fill p hp).covers_etype
      refine ⟨fun hq _ _ _ => ?_, fun _ => ⟨⟨p, hb.stage.fill p hp, hfill⟩, fun p' hp' => ?_⟩⟩
      · obtain ⟨_, i, hi, _⟩ := hq.cons hlands
        exact absurd h0 hi.holds.size_pos.ne'
      · rw [hp] at hp'
        obtain rfl := Except.ok.inj hp'
        exact hfill
    · rename_i h0
      exact hb.covers_full hlands (Reshape.isFull_link h0 hl) hd ht hls

/-- The fill of a window is that of its source, or made from the cell that its chain meets first. -/
theorem windowFill_cases {st : Stage} {shape : Lazy Extents} {chain : Lazy (List Link)} {p : Item}
    (h : windowFill Item.fillOf root st shape chain = .ok p) :
    (∃ e n, shape.get = .ok e ∧ e.size = .ok n ∧ n.isZero = true ∧ st.prototype.get = .ok p) ∨
      ∃ ls gen j x y, chain.get = .ok ls ∧ root.generator .now = .ok gen ∧
        compose ls 0 = .ok (some j) ∧ gen.cell j = .ok x ∧ x.settle = .ok y ∧ p = y.typify := by
  obtain ⟨e, he, h⟩ := bind_eq_ok.mp h
  obtain ⟨n, hn, h⟩ := bind_eq_ok.mp h
  split at h
  · rename_i h0
    exact .inl ⟨e, n, he, hn, h0, h⟩
  · obtain ⟨ls, hls, h⟩ := bind_eq_ok.mp h
    obtain ⟨gen, hgen, h⟩ := bind_eq_ok.mp h
    obtain ⟨r, hr, h⟩ := bind_eq_ok.mp h
    obtain ⟨j, hj, hr⟩ := bind_eq_ok.mp hr
    cases j with
    | none =>
        obtain rfl := Except.ok.inj hr
        cases h
    | some j =>
        obtain ⟨x, hx, hr⟩ := bind_eq_ok.mp hr
        obtain rfl := Except.ok.inj hr
        obtain ⟨y, hy, hp⟩ := map_eq_ok.mp h
        exact .inr ⟨ls, gen, j, x, y, hls, hgen, hj, hx, hy, hp.symm⟩

/-- A window has the type of its source, which covers its own fill as well: that is made from a cell
of the source, or it does not show. -/
theorem IsTyped.window (hb : base.IsTyped root) {offset : Scalar} {dims : List (Number × Number)}
    (hlegal : (Step.window offset dims).IsLegal base.stage.shape.get) :
    (above Item.fillOf root (.window offset dims) base).stage.IsTyped root := by
  have hproper : ∃ u : Shape, dims.map Prod.fst = Extents.ofShape u ∧ u.IsProper := by
    obtain ⟨_, _, ds, _, _, rfl, hf⟩ := hlegal
    exact ⟨_, map_fst_ofDims ds, hf.proper⟩
  -- with the fill of its source, a window is a transform like any other
  have hplain : { (above Item.fillOf root (.window offset dims) base).stage with
      prototype := base.stage.prototype }.IsTyped root := by
    refine hb.plain hlegal (fun e he => ?_) (fun d e _ he => he) rfl rfl hb.stage.bounds
      fun d s l t hd _ hl hlands ht ls hls => ?_
    · obtain rfl := Except.ok.inj he
      exact hproper
    · obtain rfl := Except.ok.inj hl
      exact hb.covers_full hlands isFull_affine hd ht hls
  refine hplain.refill (fun p hp => ?_) fun s ls t hs hls ht hm hfill p hp => ?_
  · rcases windowFill_cases hp with ⟨_, _, _, _, _, hp⟩ | ⟨_, _, _, _, y, _, _, _, _, _, rfl⟩
    · exact hb.stage.fill p hp
    · exact y.isFill_typify
  · obtain ⟨_, i, hi, _⟩ := hm
    have hpos := hi.holds.size_pos
    rcases windowFill_cases hp with
      ⟨e, n, he, hn, h0, _⟩ | ⟨ls', gen, j, x, y, hls', hgen, hj, hx, hy, rfl⟩
    · have he' : e = .ofShape s := Except.ok.inj (he.symm.trans hs)
      rw [he', Extents.size_ofShape] at hn
      obtain rfl := Except.ok.inj hn
      rw [Number.isZero_int, beq_iff_eq] at h0
      exact absurd h0 hpos.ne'
    · obtain rfl := Except.ok.inj (hls'.symm.trans hls)
      obtain ⟨r, hr, hland⟩ := hplain.landing s ls' hs hls
      have hfirst : s.Holds 0 := ⟨le_refl 0, hpos⟩
      rcases hland.compose_answers hfirst hj with ⟨hnone, _⟩ | ⟨q, k, hk, hq, hnames⟩
      · cases hnone
      · obtain rfl := Option.some.inj hk
        have hshows : root.Shows k y := ⟨gen, x, hgen, hx, hy⟩
        have hcovers := hplain.covers s ls' t hs hls ht
        exact hfill.covers_typify (hcovers.cells hq hr hnames hshows)

/-- A merged layout is one over a typed source, which has the fill of the section. -/
theorem IsTyped.mergedLayout (hb : base.IsTyped root) {drop : Bool} {counts : List Int}
    {axes : Option (List Int)} {source : Stage} {layout : Layout}
    (h : mergedLayout base drop counts axes = .ok (source, layout)) :
    source.IsTyped root ∧ source.prototype.get = base.stage.prototype.get ∧
      ∃ (i : List Span) (d : Shape), layout = Layout.ofSpans i ∧
        source.shape.get = .ok (.ofShape d) ∧ Span.FitAll i d := by
  unfold Level.mergedLayout at h
  cases hm : base.spans? with
  | none =>
      rw [hm] at h
      obtain ⟨e, he, h⟩ := bind_eq_ok.mp h
      obtain ⟨own, hown, h⟩ := bind_eq_ok.mp h
      cases h
      obtain ⟨d, rfl, hd⟩ := hb.stage.shape e he
      obtain ⟨i, hi, hf⟩ := Section.layout_ofShape drop counts axes hd
      rw [hi] at hown
      exact ⟨hb.stage, rfl, i, d, (Except.ok.inj hown).symm, he, hf⟩
  | some m =>
      rw [hm] at h
      obtain ⟨⟨source', inner⟩, hg, h⟩ := bind_eq_ok.mp h
      obtain ⟨e, he, h⟩ := bind_eq_ok.mp h
      obtain ⟨own, hown, h⟩ := bind_eq_ok.mp h
      obtain ⟨merged, hmerged, h⟩ := bind_eq_ok.mp h
      cases h
      obtain ⟨hs, hp, i, d, rfl, hd, hf, hshape⟩ := hb.spans m hm _ _ hg
      rw [he] at hshape
      obtain rfl := Except.ok.inj hshape
      obtain ⟨o, ho, hfo⟩ := Section.layout_ofShape drop counts axes hf.shape_isProper
      rw [ho] at hown
      obtain rfl := Except.ok.inj hown
      rw [Layout.merge_ofSpans] at hmerged
      exact ⟨hs, hp, _, d, (Except.ok.inj hmerged).symm, hd, hf.mergeAll hfo⟩

/-- A section has the type of the source of all sections, padded if its layout is. -/
theorem IsTyped.cut (hb : base.IsTyped root) (style : Cut) (drop : Bool) (counts : List Int)
    (axes : Option (List Int)) :
    (above Item.fillOf root (.cut style drop counts axes) base).IsTyped root := by
  have hstage (e : Extents)
      (he : (above Item.fillOf root (.cut style drop counts axes) base).stage.shape.get = .ok e) :
      ∃ source i d, Level.mergedLayout base drop counts axes = .ok (source, Layout.ofSpans i) ∧
        source.IsTyped root ∧ source.prototype.get = base.stage.prototype.get ∧
        source.shape.get = .ok (.ofShape d) ∧ Span.FitAll i d ∧ e = .ofShape (Span.shape i) := by
    obtain ⟨⟨source, layout⟩, hm, he⟩ := bind_eq_ok.mp he
    obtain ⟨hs, hp, i, d, rfl, hd, hf⟩ := hb.mergedLayout hm
    rw [Layout.extents_ofSpans] at he
    exact ⟨source, i, d, hm, hs, hp, hd, hf, (Except.ok.inj he).symm⟩
  -- the link of the section leads into the source of the merged layout
  have hlink {source : Stage} {i : List Span} {d : Shape} {ms : List Link}
      (hm : Level.mergedLayout base drop counts axes = .ok (source, Layout.ofSpans i))
      (hd : source.shape.get = .ok (.ofShape d))
      (hms : (above Item.fillOf root (.cut style drop counts axes) base).stage.chain.get = .ok ms) :
      ∃ ls, source.chain.get = .ok ls ∧ ms = Section.linkOf i d :: ls := by
    simp only [above, Lazy.get_keep, hm, hd, bind, Except.bind, Section.link_ofSpans] at hms
    obtain ⟨l, ls, hl, hls, rfl⟩ := extend_eq_ok.mp hms
    obtain rfl := Except.ok.inj hl
    exact ⟨ls, hls, rfl⟩
  refine ⟨⟨fun e he => ?_, hb.stage.fill, fun t ht => ?_, fun s ms hs hms => ?_,
    fun s ms t hs hms ht => ?_⟩, fun m hm source layout hg => ?_, ?_⟩
  · obtain ⟨_, i, _, _, _, _, _, hf, rfl⟩ := hstage e he
    exact ⟨_, rfl, hf.shape_isProper⟩
  · simp only [above, Lazy.get_delay, Lazy.get_keep] at ht
    obtain ⟨⟨source, layout⟩, hm, ht⟩ := bind_eq_ok.mp ht
    have hs := (hb.mergedLayout hm).1
    dsimp only at ht
    split at ht
    · exact (paddedType_spec hs ht).1
    · exact hs.bounds t ht
  · obtain ⟨source, i, d, hm, hsource, _, hd, hf, hu⟩ := hstage _ hs
    obtain rfl := Extents.ofShape_inj hu
    obtain ⟨ls, hls, rfl⟩ := hlink hm hd hms
    obtain ⟨r, hr, hland⟩ := hsource.landing d ls hd hls
    exact ⟨r, hr, .cons (Section.maps_linkOf hf).carries.lands hland⟩
  · obtain ⟨source, i, d, hm, hsource, hp, hd, hf, hu⟩ := hstage _ hs
    obtain rfl := Extents.ofShape_inj hu
    obtain ⟨ls, hls, rfl⟩ := hlink hm hd hms
    have hlands := (Section.maps_linkOf hf).carries.lands
    have hfill : (above Item.fillOf root (.cut style drop counts axes) base).stage.prototype.get =
        source.prototype.get := hp.symm
    rw [etype_cut hm] at ht
    rw [hfill]
    split at ht
    · exact covers_padded hsource hlands hd ht hls
    · rename_i hpad
      refine (hsource.covers d ls t hd hls ht).cons hlands (fun _ h => h) ?_
      rintro ⟨p, j, hj, hn⟩
      exact absurd (Section.isPadded_of_apply hf hj hn) hpad
  · obtain rfl := Option.some.inj hm
    obtain ⟨hs, hp, i, d, rfl, hd, hf⟩ := hb.mergedLayout hg
    refine ⟨hs, hp, i, d, rfl, hd, hf, ?_⟩
    rw [Lazy.get_keep] at hg
    simp only [above, Lazy.get_keep, hg, bind, Except.bind, Layout.extents_ofSpans]
  · rintro m ⟨⟩

variable {amount : Option IntArgument} {given : Option AxisArgument} {first : Bool}
  {origin : Origin}

/-- A rotation turns its base, or a typed source that answers like its base. An amount is left out
only if the rotation has no single one. -/
theorem IsTyped.addedTurns (hb : base.IsTyped root) {source : Stage} {total : Option Int}
    (h : addedTurns base amount given first origin = .ok (source, total)) :
    source.IsTyped root ∧ source.Resembles base.stage ∧
      (total = none → Rotation.single amount = .ok none) := by
  unfold Level.addedTurns at h
  obtain ⟨own, hown, h⟩ := bind_eq_ok.mp h
  have afresh (h : (Except.ok (base.stage, own) : Except Fault _) = .ok (source, total)) :
      source.IsTyped root ∧ source.Resembles base.stage ∧
        (total = none → Rotation.single amount = .ok none) := by
    obtain ⟨rfl, rfl⟩ := Prod.mk.inj (Except.ok.inj h)
    exact ⟨hb.stage, ⟨fun _ he => he, rfl, rfl⟩, fun hn => hn ▸ hown⟩
  cases own with
  | none => exact afresh h
  | some k =>
      cases hm : base.turn? with
      | none =>
          rw [hm] at h
          exact afresh h
      | some below =>
          rw [hm] at h
          obtain ⟨shape, hshape, h⟩ := bind_eq_ok.mp h
          split at h
          · exact afresh h
          · obtain ⟨one, hone, h⟩ := bind_eq_ok.mp h
            cases one with
            | none => exact afresh h
            | some m =>
                obtain ⟨lower, _, h⟩ := bind_eq_ok.mp h
                obtain ⟨upper, _, h⟩ := bind_eq_ok.mp h
                split at h
                · obtain ⟨⟨source', total'⟩, hg, h⟩ := bind_eq_ok.mp h
                  obtain ⟨hs, hlike, hk⟩ := hb.turn below hm _ _ hg
                  obtain ⟨rfl, rfl⟩ := Prod.mk.inj (Except.ok.inj h)
                  refine ⟨hs, hlike, fun hn => ?_⟩
                  -- the rotation below has a single amount, so it has left none out
                  rw [hk (Option.map_eq_none_iff.mp hn)] at hone
                  cases hone
                · exact afresh h

/-- A rotation has the type of its base, and so has every source that it may turn instead. -/
theorem IsTyped.rotate (hb : base.IsTyped root)
    (hlegal : (Step.rotate amount given first origin).IsLegal base.stage.shape.get) :
    (above Item.fillOf root (.rotate amount given first origin) base).IsTyped root := by
  have hstage (e : Extents)
      (he : (above Item.fillOf root (.rotate amount given first origin) base).stage.shape.get =
        .ok e) :
      ∃ d : Shape, e = .ofShape d ∧ d.IsProper ∧ base.stage.shape.get = .ok (.ofShape d) ∧
        Rotation.shape amount given first origin (.ofShape d) = .ok (.ofShape d) := by
    obtain ⟨e', he', he⟩ := bind_eq_ok.mp he
    obtain ⟨d, rfl, hd⟩ := hb.stage.shape e' he'
    obtain rfl := Rotation.shape_eq he
    exact ⟨d, rfl, hd, he', he⟩
  -- the link of a rotation is full: it shows no fill of its own
  have hlink {s : Shape} {ms : List Link}
      (hs : (above Item.fillOf root (.rotate amount given first origin) base).stage.shape.get =
        .ok (.ofShape s))
      (hms : (above Item.fillOf root (.rotate amount given first origin) base).stage.chain.get =
        .ok ms) :
      ∃ (source : Stage) (l : Link) (ls : List Link), source.IsTyped root ∧
        source.Resembles base.stage ∧ source.shape.get = .ok (.ofShape s) ∧
        source.chain.get = .ok ls ∧ Lands l s s ∧ l.IsFull ∧ ms = l :: ls := by
    obtain ⟨d, hu, hproper, hd, he⟩ := hstage _ hs
    obtain rfl := Extents.ofShape_inj hu
    simp only [above, Lazy.get_keep] at hms
    obtain ⟨⟨source, total⟩, hg, hms⟩ := bind_eq_ok.mp hms
    obtain ⟨hsource, hlike, hn⟩ := hb.addedTurns hg
    obtain ⟨l, ls, hl, hls, rfl⟩ := extend_eq_ok.mp hms
    simp only [hd, bind, Except.bind] at hl
    have hc := Rotation.carries_linkWith hlegal.1 hproper he hn hl
    exact ⟨source, l, ls, hsource, hlike, hlike.shape _ hd, hls, hc.lands,
      Rotation.isFull_linkWith hl, rfl⟩
  refine ⟨⟨fun e he => ?_, hb.stage.fill, hb.stage.bounds, fun s ms hs hms => ?_,
    fun s ms t hs hms ht => ?_⟩, ?_, fun m hm source total hg => ?_⟩
  · obtain ⟨d, rfl, hd, _⟩ := hstage e he
    exact ⟨d, rfl, hd⟩
  · obtain ⟨source, l, ls, hsource, _, hshape, hls, hlands, _, rfl⟩ := hlink hs hms
    obtain ⟨r, hr, hland⟩ := hsource.landing s ls hshape hls
    exact ⟨r, hr, .cons hlands hland⟩
  · obtain ⟨source, l, ls, hsource, hlike, hshape, hls, hlands, hfull, rfl⟩ := hlink hs hms
    have hc := hsource.covers s ls t hshape hls (hlike.etype.trans ht)
    rw [hlike.prototype] at hc
    refine hc.cons hlands (fun _ h => h) ?_
    rintro ⟨p, _, _, hn⟩
    exact absurd hn (hfull p)
  · rintro m ⟨⟩
  · obtain rfl := Option.some.inj hm
    rw [Lazy.get_keep] at hg
    obtain ⟨hs, hlike, hn⟩ := hb.addedTurns hg
    refine ⟨hs, ⟨fun e he => ?_, hlike.etype, hlike.prototype⟩, hn⟩
    obtain ⟨d, rfl, _, hd, _⟩ := hstage e he
    exact hlike.shape _ hd

theorem isTyped_of_stage {st : Stage} (h : st.IsTyped root) : IsTyped root ⟨st, none, none⟩ := by
  refine ⟨h, ?_, ?_⟩
  · rintro m ⟨⟩
  · rintro m ⟨⟩

theorem IsTyped.above (hb : base.IsTyped root) {x : Step}
    (hlegal : x.IsLegal base.stage.shape.get) : (above Item.fillOf root x base).IsTyped root := by
  cases x with
  | reshape style dims => exact isTyped_of_stage (hb.reshape style hlegal)
  | cut style drop counts axes => exact hb.cut style drop counts axes
  | permute axes => exact isTyped_of_stage (hb.permute axes)
  | rotate amount given first origin => exact hb.rotate hlegal
  | compress degrees isScalar given first origin room =>
      exact isTyped_of_stage (hb.compress degrees isScalar given first origin room)
  | window offset dims => exact isTyped_of_stage (hb.window hlegal)
  | select indices origin => exact isTyped_of_stage (hb.select hlegal)

end Level
end LazyApl
