import LazyApl.Platform.Usual
import LazyApl.Proofs.Packing
import LazyApl.Proofs.Replicating
import LazyApl.Proofs.SoundItems
/-!
# Assignment under a mask is the update of replication by the mask

A Boolean mask marks positions. An assignment fills them in order from its values, by a table that
it makes of the mask. A replication by the same mask finds them by expanding the mask into a list
of positions. Both name the ones in increasing order, so the values are found again where they
have gone to, and values that have been found are put back where they were. The two do not read the
mask alike: a replication refuses truth values that an array hands out, which an assignment takes.
-/
namespace LazyApl

open Outcome

namespace Item

variable {bs : List Bool}

/-- The ones of a mask are positions of the array, and they are numbered through. -/
theorem holds_onesFrom {t : Shape} {i : Int} {j : Nat} (hl : (bs.length : Int) = t.size)
    (hj : (onesFrom 0 bs)[j]? = some i) :
    t.Holds i ∧ Shape.Holds [(bs.count true : Int)] j := by
  obtain ⟨n, hn, rfl⟩ := mem_onesFrom.mp (List.mem_of_getElem? hj)
  have hlt := (List.getElem?_eq_some_iff.mp hn).1
  have hlt' := (List.getElem?_eq_some_iff.mp hj).1
  rw [length_onesFrom] at hlt'
  constructor
  · unfold Shape.Holds
    omega
  · simpa [Shape.Holds] using hlt'

end Item

namespace Replicate

theorem blocks_degree (i : Int) (bs : List Bool) :
    blocks i (bs.map Item.degree) = (Item.onesFrom i bs).map some := by
  induction bs generalizing i with
  | nil => rfl
  | cons b bs ih => cases b <;> simp [blocks, block, Item.degree, Item.onesFrom, ih]

theorem takes_degree {room : Room} {length : Nat} {bs : List Bool}
    (h : length + bs.length ≤ room.limit) :
    room.Takes 0 length ((bs.map Item.degree).map Int.natAbs) := by
  induction bs generalizing length with
  | nil => exact Room.takes_nil h
  | cons b bs ih =>
      rw [List.length_cons] at h
      rw [List.map_cons, List.map_cons, Room.takes_cons]
      cases b
      · exact ⟨⟨by decide, by simp [Item.degree]; omega⟩, ih (by simp [Item.degree]; omega)⟩
      · exact ⟨⟨by decide, by simp [Item.degree]; omega⟩, ih (by simp [Item.degree]; omega)⟩

theorem expand_degree (room : Room) (bs : List Bool) :
    expand (room.beside bs.length) 0 0 (bs.map Item.degree) =
      .ok ((Item.onesFrom 0 bs).map some) := by
  have htakes : (room.beside bs.length).Takes 0 0 ((bs.map Item.degree).map Int.natAbs) :=
    takes_degree (by simp [Room.beside])
  rcases expand_eq (room.beside bs.length) 0 (bs.map Item.degree) (Nat.zero_le _) with
    ⟨_, he⟩ | ⟨hno, _⟩
  · rw [he, blocks_degree]
  · exact absurd htakes hno

end Replicate

namespace Selection

/-- A table that pairs positions with others holds what a position is paired with, and none for a
position that is not among them. -/
theorem find?_zip {i : Int} {xs js : List Int} (hl : xs.length = js.length) :
    match find? (.int i) ((xs.map Number.int).zip js) with
    | none => i ∉ xs
    | some j => ∃ n : Nat, xs[n]? = some i ∧ js[n]? = some j := by
  induction xs generalizing js with
  | nil => simp [find?]
  | cons x xs ih =>
      cases js with
      | nil => cases hl
      | cons j js =>
          have ih := ih (Nat.succ.inj hl)
          rw [List.map_cons, List.zip_cons_cons, find?, Number.eq_int]
          by_cases hx : x = i
          · rw [if_pos (by simpa using hx)]
            exact ⟨0, congrArg some hx, rfl⟩
          · rw [if_neg (by simpa using hx)]
            cases hfind : find? (.int i) ((xs.map Number.int).zip js) with
            | none =>
                rw [hfind] at ih
                exact List.not_mem_cons_of_ne_of_not_mem (Ne.symm hx) ih
            | some k =>
                rw [hfind] at ih
                obtain ⟨n, hn, hk⟩ := ih
                exact ⟨n + 1, hn, hk⟩

end Selection

namespace Item

variable {v mask values : View Item} {s t : Shape} {f fm : Int → Item} {bs : List Bool}

theorem mapM_asWhole {xs : List Item} (h : List.Forall₂ IsBit xs bs)
    (hx : ∀ b, .truth b ∉ xs) (role : String) : xs.mapM (asWhole role) = .ok (bs.map degree) := by
  rw [mapM_eq_ok, List.forall₂_map_right_iff]
  induction h with
  | nil => exact .nil
  | @cons x b xs bs hb _ ih =>
      refine .cons ?_ (ih fun c hc => hx c (List.mem_cons_of_mem _ hc))
      cases hb with
      | truth => exact absurd List.mem_cons_self (hx b)
      | counted => rfl

theorem mapM_asWhole_of_truth {xs : List Item} (h : List.Forall₂ IsBit xs bs) {c : Bool}
    (hx : .truth c ∈ xs) (role : String) :
    xs.mapM (asWhole role) = .error (.domain (.notInteger role)) := by
  induction h with
  | nil => cases hx
  | @cons x b xs bs hb _ ih =>
      rw [List.mapM_cons]
      cases hb with
      | truth => rfl
      | counted =>
          have hmem : .truth c ∈ xs := by
            rcases List.mem_cons.mp hx with heq | hmem
            · cases heq
            · exact hmem
          rw [ih hmem]
          rfl

/-- The table of an assignment under a mask: the ones, numbered through. -/
def slots (bs : List Bool) : List (Number × Int) :=
  ((onesFrom 0 bs).map Number.int).zip (upTo (onesFrom 0 bs).length)

theorem length_slots (bs : List Bool) : (slots bs).length = bs.count true := by
  simp [slots, length_onesFrom]

theorem find?_slots (bs : List Bool) (i : Int) :
    match Selection.find? (.int i) (slots bs) with
    | none => i ∉ onesFrom 0 bs
    | some j => ∃ n : Nat, j = n ∧ (onesFrom 0 bs)[n]? = some i := by
  have hfind : match Selection.find? (.int i) (slots bs) with
      | none => i ∉ onesFrom 0 bs
      | some j => ∃ n : Nat, (onesFrom 0 bs)[n]? = some i ∧
          (upTo (onesFrom 0 bs).length)[n]? = some j :=
    Selection.find?_zip (by simp)
  cases hj : Selection.find? (.int i) (slots bs) with
  | none =>
      rw [hj] at hfind
      exact hfind
  | some j =>
      rw [hj] at hfind
      obtain ⟨n, hn, hj'⟩ := hfind
      obtain ⟨hlt, _⟩ := List.getElem?_eq_some_iff.mp hn
      have hnumbered : (n : Int) = j := by simpa [upTo, hlt] using hj'
      exact ⟨n, hnumbered.symm, hn⟩

/-- An array that has been amended under a mask yields what it did where the mask has a zero, and
the next value at each of its ones. -/
theorem amendMasked_spec [Platform] (hB : Platform.bitLists.IsLawful) (hv : v.Yields t f)
    (hm : mask.Offers t fm) (hb : List.Forall₂ IsBit ((upTo t.size).map fm) bs) {fv : Int → Item}
    (hvalues : values.Offers s fv) (hs : s.IsSingle ∨ s = [(bs.count true : Int)]) :
    ∃ f', (amendMasked (.view v) (.view mask) (.view values) none).Yields t f' ∧
      (∀ i, t.Holds i → i ∉ onesFrom 0 bs → f' i = f i) ∧
      ∀ (j : Nat) i, t.Holds i → (onesFrom 0 bs)[j]? = some i → f' i = fv (s.valueAt j) := by
  obtain ⟨value, hvalue, hassigned⟩ := Amend.assignment_spec hvalues hs
  obtain ⟨gen, hgen, hcell⟩ := hv.cells
  obtain ⟨e, he⟩ := hv.etype
  obtain ⟨e', he'⟩ := hvalues.etype
  have hshape : (view v).based.shape = .ok (.ofShape t) := hv.shape
  have hmarked : (view mask).lift.shape = .ok (.ofShape t) := hm.shape
  have hetype : (view v).based.etype = .ok e := he
  have hetype' : (view values).lift.etype = .ok e' := he'
  have hcells : (view v).based.generator = .ok gen := hgen
  have hshows : (view (view mask).lift).ShowsBits bs := ⟨_, items_of_offers hm, hb⟩
  obtain ⟨b, hbits, hbs⟩ := hshows.packed hB .notBooleanMask
  have hones : onesIn b = .ok (onesFrom 0 bs) := hbs ▸ onesIn_eq hB b
  have hfit : Amend.assignment (view values).lift [((slots bs).length : Number)] = .ok value := by
    rw [length_slots]
    exact hvalue
  have hout : (amendMasked (.view v) (.view mask) (.view values) none).shape =
      .ok (.ofShape t) := by
    simp [amendMasked, hshape, hmarked, bind, Except.bind, pure, Except.pure]
  -- a cell is looked up among the ones of the mask, where it stands at one place or at none
  have hnew : ∀ i, t.Holds i → ∃ x,
      Amend.cell gen (slots bs) (some value) none (.int i) >>= settle = .ok x ∧
      (i ∉ onesFrom 0 bs → x = f i) ∧
      ∀ j : Nat, (onesFrom 0 bs)[j]? = some i → x = fv (s.valueAt j) := by
    intro i hi
    obtain ⟨before, hbefore, hsettle⟩ := bind_eq_ok.mp (hcell i hi)
    have hslot := find?_slots bs i
    simp only [Amend.cell, hbefore, bind, Except.bind]
    cases hj : Selection.find? (.int i) (slots bs) with
    | none =>
        rw [hj] at hslot
        exact ⟨f i, hsettle, fun _ => rfl, fun k hk => absurd (List.mem_of_getElem? hk) hslot⟩
    | some j =>
        rw [hj] at hslot
        obtain ⟨n, rfl, hn⟩ := hslot
        have hlt := (List.getElem?_eq_some_iff.mp hn).1
        have hholds : Shape.Holds [(bs.count true : Int)] n := by
          rw [length_onesFrom] at hlt
          simpa [Shape.Holds] using hlt
        refine ⟨_, hassigned n hholds, fun hnot => ?_, fun k hk => ?_⟩
        · exact absurd (List.mem_of_getElem? hn) hnot
        · rw [onesFrom_inj hk hn]
  have hitem : Nonempty Item := ⟨.nothing⟩
  choose! f' hf' hkept hmarked' using hnew
  refine ⟨f', ⟨⟨hout, ?_, ?_⟩, ⟨fun x hx => ?_, hv.ready.fill, ?_⟩, hv.prototype⟩, hkept,
    fun j i hi hj => hmarked' i hi j hj⟩
  · simp only [amendMasked, View.etype_computed, Lazy.get_delay, Amend.etype, hetype, hetype', bind,
      Except.bind]
    exact ⟨_, rfl⟩
  · unfold slots at hfit hf'
    simp only [amendMasked, View.generator_computed, Lazy.get_keep, hmarked, hshape, hcells, hbits,
      hones, hfit, Extents.eq_ofShape, beq_self_eq_true, if_true, bind, Except.bind, pure,
      Except.pure]
    exact ⟨_, rfl, hf'⟩
  · exact ⟨t, Except.ok.inj (hx.symm.trans hout), hv.isProper⟩
  · intro g hg
    cases hg

end Item

namespace Shape

theorem coordinates_vector {n i : Int} (hi : Holds [n] i) : coordinates [n] i = [i] := by
  have hb : 0 ≤ i ∧ i < n := by simpa [Holds] using hi
  have hn : n ≠ 0 := by omega
  simp [coordinates, split, hn, Int.fmod_eq_emod_of_nonneg _ (by omega : 0 ≤ n),
    Int.emod_eq_of_lt hb.1 hb.2]

end Shape

namespace Reshape

/-- Cells are numbered through, and start over where there are too few. -/
theorem reach_link {dims t : Shape} (hd : dims.IsProper) (ht : t.IsProper) :
    ∃ l, link dims (.ofShape t) = .ok l ∧
      ∀ i, dims.Holds i → t.size ≠ 0 → l.reach i = some (i % t.size) := by
  have h0 := Shape.size_nonneg ht
  by_cases hz : t.size = 0
  · refine ⟨⟨.linear fun _ => .ok none, .ofShape dims, .ofShape t⟩, ?_, fun i _ h => absurd hz h⟩
    simp [link, hz, bind, Except.bind, pure, Except.pure]
  · by_cases hle : dims.size ≤ t.size
    · refine ⟨Link.identity (.ofShape dims), ?_, fun i hi _ => ?_⟩
      · simp [link, hz, hle, bind, Except.bind, pure, Except.pure]
      · have hlt {i : Int} (hi : dims.Holds i) : i < t.size := lt_of_lt_of_le hi.2 hle
        have hmaps : (Link.identity (.ofShape dims)).Maps dims t some :=
          Link.maps_linear hd fun i hi => ⟨rfl, fun j hj => by
            cases hj
            exact ⟨hi.1, hlt hi⟩⟩
        rw [hmaps.reach_eq hi, Int.emod_eq_of_lt hi.1 (hlt hi)]
    · refine ⟨⟨.linear fun i => return some (← cyclic i (.int t.size)), .ofShape dims, .ofShape t⟩,
        ?_, fun i hi _ => ?_⟩
      · simp [link, hz, hle, bind, Except.bind, pure, Except.pure]
      · have hmaps : (⟨.linear fun i => return some (← cyclic i (.int t.size)), .ofShape dims,
            .ofShape t⟩ : Link).Maps dims t fun i => some (i % t.size) := by
          refine Link.maps_linear hd fun i _ => ⟨?_, ?_⟩
          · simp [cyclic, Number.mod, Number.pair, hz, Int.fmod_eq_emod_of_nonneg _ h0, bind,
              Except.bind, pure, Except.pure]
          · rintro j ⟨⟩
            exact ⟨Int.emod_nonneg i hz, Int.emod_lt_of_pos i (by omega)⟩
        exact hmaps.reach_eq hi

theorem reach_ravel {t : Shape} (ht : t.IsProper) :
    ∃ l, link [t.size] (.ofShape t) = .ok l ∧ ∀ i, t.Holds i → l.reach i = some i := by
  have hd : Shape.IsProper [t.size] := by simpa [Shape.IsProper] using Shape.size_nonneg ht
  obtain ⟨l, hl, hreach⟩ := reach_link hd ht
  refine ⟨l, hl, fun i hi => ?_⟩
  rw [hreach i (by simpa [Shape.Holds] using hi) hi.size_pos.ne', Int.emod_eq_of_lt hi.1 hi.2]

end Reshape

namespace Replicate

theorem reach_vector {n : Int} {ps : List Int} (hp : ∀ x ∈ ps, 0 ≤ x ∧ x < n) {i : Nat} {x : Int}
    (hx : ps[i]? = some x) : (link (ps.map some) 0 (.ofShape [n])).reach i = some x := by
  have hn := hp x (List.mem_of_getElem? hx)
  have hlt := (List.getElem?_eq_some_iff.mp hx).1
  have hproper : Shape.IsProper [n] := Shape.isProper_cons.mpr ⟨by omega, Shape.isProper_nil⟩
  have hmaps := maps_link (a := 0) hproper rfl
    (show ∀ x, some x ∈ ps.map some → 0 ≤ x ∧ x < n by simpa using hp)
  have hi : Shape.Holds [(ps.length : Int)] i := by simpa [Shape.Holds] using hlt
  have hreach := hmaps.reach_eq (i := i) (by simpa using hi)
  simpa [source, Shape.coordinates_vector hi, hx, Shape.dot, Shape.strides] using hreach

end Replicate

namespace View

variable {root : Root Item} {r t : Shape} {v w : View Item} {f : Int → Item}

theorem exists_etype_reshape (hs : v.shape = .ok (.ofShape t)) (he : ∃ e, v.etype = .ok e)
    (hp : t.size = 0 → ∃ p, v.prototype = .ok p) (style : Recast) (dims : Shape) :
    ∃ e, (v.under (.reshape style dims)).etype = .ok e := by
  have hunder : (v.under (.reshape style dims)).etype = (do
      if (← (← v.shape).size).isZero then return (← v.prototype).etype else v.etype) := by
    simp only [View.shape, View.prototype, View.etype, View.facts, Tower.etype_facts,
      Tower.shape_facts, Tower.prototype_facts]
    rfl
  rw [hunder, hs]
  simp only [Extents.size_ofShape, bind, Except.bind, Number.isZero_int]
  by_cases h0 : t.size = 0
  · obtain ⟨p, hp⟩ := hp h0
    simp [h0, hp, pure, Except.pure]
  · simpa [h0] using he

theorem StandsOn.ravel_spec (h : StandsOn root r v t) (hv : v.Offers t f)
    (hp : t.size = 0 → ∃ p, v.prototype = .ok p) :
    ∃ w, Item.ravel (.view v) = .ok w ∧ StandsOn root r w [t.size] ∧
      w.prototype = v.prototype ∧ w.Offers [t.size] f := by
  have ht : t.IsProper := (h.stands.keeps Item.fillOf).proper
  have h0 := Shape.size_nonneg ht
  have hd : Shape.IsProper [t.size] := by simpa [Shape.IsProper] using h0
  obtain ⟨l, hl, hreach⟩ := Reshape.reach_ravel ht
  have hsize : (Item.view v).lift.size = .ok (.int t.size) := by
    have hshape : (Item.view v).lift.shape = .ok (.ofShape t) := hv.shape
    simp [View.size, hshape, bind, Except.bind]
  have hdims : Item.newShape [Item.ofNumber (.int t.size)] = .ok [t.size] := by
    have hwhole : Item.asWhole "shape" (.int t.size) = .ok t.size := rfl
    simp [Item.newShape, hwhole, h0, bind, Except.bind, pure, Except.pure]
  refine ⟨v.under (.reshape .ravel [t.size]), ?_, h.reshape hd, prototype_under rfl, ?_⟩
  · simp only [Item.ravel, hsize, hdims, bind, Except.bind, pure, Except.pure]
    rfl
  · exact h.offers_under (p := id) hd rfl hl rfl (fun j hj => by
      have hj' : t.Holds j := by simpa [Shape.Holds] using hj
      exact ⟨hj', hreach j hj'⟩) hv (exists_etype_reshape hv.shape hv.etype hp _ _)

/-- A vector under the degrees that a list of its positions stands for. -/
theorem StandsOn.replicate_spec [Platform] {n : Int} (h : StandsOn root r v [n])
    (hv : v.Offers [n] f) {degrees : View Item} {ks ps : List Int} {m : Int}
    (hd : degrees.shape = .ok (.ofShape [m]))
    (hks : (Item.view degrees).asInts "left argument" = .ok ks) (hlen : (ks.length : Int) ≤ n)
    (hps : Replicate.expand (Platform.room.beside ks.length) 0 0 ks = .ok (ps.map some))
    (first : Bool) (origin : Origin) :
    ∃ w, Item.replicate (.view v) (.view degrees) none first origin = .ok w ∧
      StandsOn root r w [(ps.length : Int)] ∧ w.prototype = v.prototype ∧
      w.Offers [(ps.length : Int)] fun j => f (ps.getD j.toNat 0) := by
  have haxis : Replicate.axis none first origin (.ofShape [n]) = .ok ((0 : Nat) : Int) := by
    cases first <;> rfl
  have hpositions : Replicate.positions Platform.room ks false (.int n) = .ok (ps.map some) := by
    rw [Replicate.positions_each, if_neg (not_lt.mpr hlen), hps]
  have hshape : (Step.compress ks false none first origin Platform.room).shapeOver (.ofShape [n]) =
      .ok (.ofShape [(ps.length : Int)]) := by
    rw [Step.shapeOver_compress haxis rfl, hpositions, ← List.length_map (f := some)]
    rfl
  have hlink : (Step.compress ks false none first origin Platform.room).linkOver (.ofShape [n]) =
      .ok (Replicate.link (ps.map some) 0 (.ofShape [n])) := by
    rw [Step.linkOver_compress haxis rfl, hpositions]
    rfl
  have hwithin (x : Int) (hx : x ∈ ps) : 0 ≤ x ∧ x < n :=
    Replicate.positions_spec hpositions (List.mem_map_of_mem hx)
  refine ⟨v.under (.compress ks false none first origin Platform.room),
    Item.replicate_eq (listsDegrees_vector hd hks) hv.shape (List.cons_ne_nil n []),
    h.above trivial hshape, prototype_under rfl, ?_⟩
  refine h.offers_under (p := fun j => ps.getD j.toNat 0) trivial hshape hlink rfl
    (fun j hj => ?_) hv ?_
  · have hj' : 0 ≤ j ∧ j < ps.length := by simpa [Shape.Holds] using hj
    have hlt : j.toNat < ps.length := by omega
    have hreach := Replicate.reach_vector hwithin (List.getElem?_eq_getElem hlt)
    rw [Int.toNat_of_nonneg hj'.1] at hreach
    have hget : ps.getD j.toNat 0 = ps[j.toNat] := by simp [hlt]
    rw [hget]
    exact ⟨by simpa [Shape.Holds] using hwithin _ (List.getElem_mem hlt), hreach⟩
  · exact exists_etype_compress hv haxis rfl hpositions fun hfills => by simp at hfills

/-- The second array is the cells of the first that a mask marks: both are made vectors, and the one
is replicated by the other. -/
def Compresses [Platform] (mask v w : View Item) (first : Bool) (origin : Origin) : Prop :=
  ∃ degrees cells, Item.ravel (.view mask) = .ok degrees ∧ Item.ravel (.view v) = .ok cells ∧
    Item.replicate (.view cells) (.view degrees) none first origin = .ok w

/-- A cell of the array is rendered to a truth value, not to the whole number that it counts as. -/
def HandsOutTruth (v : View Item) : Prop :=
  ∃ xs b, (Item.view v).items = .ok xs ∧ .truth b ∈ xs

variable {mask values : View Item} {fm : Int → Item} {bs : List Bool}

theorem StandsOn.degrees_spec (h : StandsOn root r mask t) (hm : mask.Offers t fm)
    (hp : ∃ p, mask.prototype = .ok p)
    (hb : List.Forall₂ Item.IsBit ((upTo t.size).map fm) bs) :
    ∃ degrees, Item.ravel (.view mask) = .ok degrees ∧ degrees.shape = .ok (.ofShape [t.size]) ∧
      (¬ mask.HandsOutTruth →
        (Item.view degrees).asInts "left argument" = .ok (bs.map Item.degree)) ∧
      (mask.HandsOutTruth → (Item.view degrees).asInts "left argument" =
        .error (.domain (.notInteger "left argument"))) := by
  obtain ⟨degrees, hdegrees, _, _, hoffers⟩ := h.ravel_spec hm fun _ => hp
  have hsize : Shape.size [t.size] = t.size := by simp
  refine ⟨degrees, hdegrees, hoffers.shape, fun hplain => ?_, fun ⟨xs, b, hxs, hx⟩ => ?_⟩
  · rw [Item.asInts_of_offers hoffers, hsize]
    exact Item.mapM_asWhole hb (fun b hx => hplain ⟨_, b, Item.items_of_offers hm, hx⟩) _
  · rw [Item.items_of_offers hm] at hxs
    cases hxs
    rw [Item.asInts_of_offers hoffers, hsize]
    exact Item.mapM_asWhole_of_truth hb hx _

theorem StandsOn.compress_spec [Platform] (h : StandsOn root r v t) (hv : v.Offers t f)
    (hp : ∃ p, v.prototype = .ok p) {degrees : View Item}
    (hravel : Item.ravel (.view mask) = .ok degrees)
    (hd : degrees.shape = .ok (.ofShape [t.size]))
    (hks : (Item.view degrees).asInts "left argument" = .ok (bs.map Item.degree))
    (hlen : (bs.length : Int) = t.size) (first : Bool) (origin : Origin) :
    ∃ w, mask.Compresses v w first origin ∧ StandsOn root r w [(bs.count true : Int)] ∧
      w.prototype = v.prototype ∧
      w.Offers [(bs.count true : Int)] fun j => f ((Item.onesFrom 0 bs).getD j.toNat 0) := by
  obtain ⟨cells, hcells, hstands, hfill, hoffers⟩ := h.ravel_spec hv fun _ => hp
  obtain ⟨w, hw, hstands', hfill', hoffers'⟩ := hstands.replicate_spec hoffers hd hks
    (by simp [hlen])
    (by simpa using Replicate.expand_degree Platform.room bs) first origin
  rw [Item.length_onesFrom] at hstands' hoffers'
  exact ⟨w, ⟨degrees, cells, hravel, hcells, hw⟩, hstands', hfill'.trans hfill, hoffers'⟩

/-- Assignment under a mask and compression by the mask fit together. The items at the zeros stay,
and each one gets the next of the values. Unless the mask hands out a truth value, compressing what
has been assigned gives the values, and assigning what has been compressed changes nothing. A mask
that hands out a truth value compresses no array. -/
theorem ShownAs.amendMasked_compress [Platform] (hB : Platform.bitLists.IsLawful)
    {g gm gv : Grid Item} (hv : v.ShownAs g) (hm : mask.ShownAs gm) (hvalues : values.ShownAs gv)
    (hs : gm.shape = g.shape) (hb : (Item.view mask).ShowsBits bs)
    (hk : gv.shape.IsSingle ∨ gv.shape = [(bs.count true : Int)]) (first : Bool)
    (origin : Origin) :
    ∃ w h, Item.amendMasked (.view v) (.view mask) (.view values) none = w ∧
      (Item.view w).render = .ok (.array h) ∧ h.shape = g.shape ∧
      (∀ i, g.shape.Holds i → bs[i.toNat]? = some false → h.AlikeAt i g i) ∧
      (∀ i : Nat, bs[i]? = some true →
        h.AlikeAt i (gv.extended [(bs.count true : Int)]) ((bs.take i).count true : Nat)) ∧
      (¬ mask.HandsOutTruth →
        (∃ again h', mask.Compresses w again first origin ∧
          (Item.view again).render = .ok (.array h') ∧
          Item.Alike (.array h') (.array (gv.extended [(bs.count true : Int)]))) ∧
        ∃ own h', mask.Compresses v own first origin ∧
          (Item.view (Item.amendMasked (.view v) (.view mask) (.view own) none)).render =
            .ok (.array h') ∧ Item.Alike (.array h') (.array g)) ∧
      (mask.HandsOutTruth → ∃ degrees, Item.ravel (.view mask) = .ok degrees ∧
        ∀ base, Item.replicate base (.view degrees) none first origin =
          .error (.domain (.notInteger "left argument"))) := by
  obtain ⟨_, _, f, hstands, hf, hg⟩ := hv.exists_yields
  obtain ⟨_, _, fm, hstandsm, hfm, _⟩ := hm.exists_yields
  obtain ⟨_, _, fv, _, hfv, hgv⟩ := hvalues.exists_yields
  rw [hs] at hstandsm hfm
  have hbits : List.Forall₂ Item.IsBit ((upTo g.shape.size).map fm) bs := by
    obtain ⟨xs, hxs, hbits⟩ := hb
    cases (Item.items_of_offers hfm.toOffers).symm.trans hxs
    exact hbits
  have hlen : (bs.length : Int) = g.shape.size := by
    have hl := hbits.length_eq
    have h0 := Shape.size_nonneg hf.isProper
    simp only [List.length_map, length_upTo] at hl
    omega
  have hext := hgv.extended hk
  obtain ⟨f', hf', hkept, hmarked⟩ := Item.amendMasked_spec hB hf hfm.toOffers hbits hfv.toOffers hk
  obtain ⟨degrees, hravel, hdegrees, hplain, htruth⟩ :=
    hstandsm.degrees_spec hfm.toOffers hm.fill hbits
  obtain ⟨h, hr, hh⟩ := hf'.exists_render
  refine ⟨_, h, rfl, hr, hh.shape_eq, fun i hi hzero => ?_, fun i hone => ?_, fun hno => ⟨?_, ?_⟩,
    fun htruth' => ⟨degrees, hravel, fun base => ?_⟩⟩
  · refine hh.alikeAt hg hi hi (hkept i hi fun hmem => ?_)
    obtain ⟨n, hn, rfl⟩ := Item.mem_onesFrom.mp hmem
    simp [hn] at hzero
  · have hj := Item.getElem?_onesFrom (i := 0) hone
    rw [Int.zero_add] at hj
    obtain ⟨hi, hj'⟩ := Item.holds_onesFrom hlen hj
    exact hh.alikeAt hext hi hj' (hmarked _ i hi hj)
  · have hcomputed : IsComputed (Item.amendMasked (.view v) (.view mask) (.view values) none) :=
      ⟨_, rfl⟩
    have hstands' := hcomputed.standsOn hf'.shape hf.isProper
    -- the marked cells, taken out again, are those that were assigned, in order
    obtain ⟨again, hagain, hagainStands, hfill, hoffers⟩ := hstands'.compress_spec hf'.toOffers
      hv.fill hravel hdegrees (hplain hno) hlen first origin
    have hroot : (⟨(Item.amendMasked (.view v) (.view mask) (.view values) none).root, []⟩ :
      View Item).IsReady := hf'.ready
    have hyields : again.Yields [(bs.count true : Int)] _ :=
      ⟨hoffers, hagainStands.isReady hroot, fun _ => hfill ▸ hv.fill⟩
    obtain ⟨h', hr', hh'⟩ := hyields.exists_render
    refine ⟨again, h', hagain, hr', hh'.alike hext fun j hj => ?_⟩
    have hlt : j.toNat < (Item.onesFrom 0 bs).length := by
      have hj' : 0 ≤ j ∧ j < bs.count true := by simpa [Shape.Holds] using hj
      rw [Item.length_onesFrom]
      omega
    have hget := List.getElem?_eq_getElem hlt
    have hassigned := hmarked _ _ (Item.holds_onesFrom hlen hget).1 hget
    rw [Int.toNat_of_nonneg hj.1] at hassigned
    simpa [hlt] using hassigned
  · obtain ⟨own, hown, _, _, hoffers⟩ := hstands.compress_spec hf.toOffers hv.fill hravel hdegrees
      (hplain hno) hlen first origin
    -- a marked cell gets what was taken out for it, which is the cell itself
    obtain ⟨f'', hf'', hkept', hmarked'⟩ :=
      Item.amendMasked_spec hB hf hfm.toOffers hbits hoffers (.inr rfl)
    obtain ⟨h', hr', hh'⟩ := hf''.exists_render
    refine ⟨own, h', hown, hr', hh'.alike hg fun i hi => ?_⟩
    by_cases hmem : i ∈ Item.onesFrom 0 bs
    · obtain ⟨j, hj⟩ := List.getElem?_of_mem hmem
      rw [hmarked' j i hi hj, Shape.valueAt_self (Item.holds_onesFrom hlen hj).2]
      simp [hj]
    · exact hkept' i hi hmem
  · simp only [Item.replicate, flat_of_vector hdegrees, htruth htruth', bind, Except.bind]

theorem shownAs_ofScalars {l : List Scalar} (hl : ∀ s ∈ l, (Item.scalar s).IsKept) :
    (ofGrid (Grid.ofList (l.map Item.scalar))).ShownAs (Grid.ofList (l.map Item.scalar)) := by
  refine shownAs_ofGrid (Item.isReady_of ?_ ?_ ?_).1 ?_
  · simp [Shape.IsProper]
  · simp
  · intro x hx
    obtain ⟨s, hs, rfl⟩ := List.mem_map.mp hx
    rw [(hl s hs).stored_eq]
    exact ⟨hl s hs, .scalar s⟩
  · simp [Grid.ofList, Grid.of, Shape.IsProper]

open scoped Usual in
/-- The first and the last of three numbers are assigned to and compressed again. Marked by truth
values they are assigned to alike, but nothing is compressed. -/
theorem numbers_amendMasked_compress :
    (∃ w h again h', Item.amendMasked (.view (ofGrid (Grid.ofList ([10, 20, 30].map Item.int))))
        (.view (ofGrid (Grid.ofList ([1, 0, 1].map Item.int))))
        (.view (ofGrid (Grid.ofList ([8, 9].map Item.int)))) none = w ∧
      (Item.view w).render = .ok (.array h) ∧ h.items = [8, 20, 9].map Item.int ∧
      (ofGrid (Grid.ofList ([1, 0, 1].map Item.int))).Compresses w again false (.int 0) ∧
      (Item.view again).render = .ok (.array h') ∧
      Item.Alike (.array h') (.array (Grid.ofList ([8, 9].map Item.int)))) ∧
    ∃ w h degrees, Item.amendMasked (.view (ofGrid (Grid.ofList ([10, 20, 30].map Item.int))))
        (.view (ofGrid (Grid.ofList ([true, false, true].map Item.truth))))
        (.view (ofGrid (Grid.ofList ([8, 9].map Item.int)))) none = w ∧
      (Item.view w).render = .ok (.array h) ∧ h.items = [8, 20, 9].map Item.int ∧
      Item.ravel (.view (ofGrid (Grid.ofList ([true, false, true].map Item.truth)))) =
        .ok degrees ∧
      ∀ base, Item.replicate base (.view degrees) none false (.int 0) =
        .error (.domain (.notInteger "left argument")) := by
  have base := shownAs_ofScalars (l := [.int 10, .int 20, .int 30])
    (by simp [Item.IsKept, Item.stored])
  have values := shownAs_ofScalars (l := [.int 8, .int 9]) (by simp [Item.IsKept, Item.stored])
  have counts := shownAs_ofScalars (l := [.int 1, .int 0, .int 1])
    (by simp [Item.IsKept, Item.stored])
  have truths := shownAs_ofScalars (l := [.truth true, .truth false, .truth true])
    (by simp [Item.IsKept, Item.stored])
  have marked : (Item.view (ofGrid (Grid.ofList ([1, 0, 1].map Item.int)))).ShowsBits
      [true, false, true] :=
    ⟨_, rfl, .cons (.counted true) (.cons (.counted false) (.cons (.counted true) .nil))⟩
  have marked' : (Item.view (ofGrid (Grid.ofList ([true, false, true].map Item.truth)))).ShowsBits
      [true, false, true] :=
    ⟨_, rfl, .cons (.truth true) (.cons (.truth false) (.cons (.truth true) .nil))⟩
  have plain : ¬ (ofGrid (Grid.ofList ([1, 0, 1].map Item.int))).HandsOutTruth := by
    rintro ⟨xs, b, hxs, hb⟩
    cases hxs
    have hb : .truth b ∈ [1, 0, 1].map Item.int := hb
    simp [Item.int, Item.truth] at hb
  have handed : (ofGrid (Grid.ofList ([true, false, true].map Item.truth))).HandsOutTruth :=
    ⟨[true, false, true].map Item.truth, true, rfl, by simp⟩
  constructor
  · obtain ⟨w, h, hw, hr, _, _, _, hlaws, _⟩ :=
      base.amendMasked_compress Usual.isLawful_bitLists counts values rfl marked (.inr rfl) false
        (.int 0)
    obtain ⟨⟨again, h', hagain, hr', halike⟩, _⟩ := hlaws plain
    cases hw
    cases hr
    exact ⟨_, _, again, h', rfl, rfl, rfl, hagain, hr', halike⟩
  · obtain ⟨w, h, hw, hr, _, _, _, _, hrefused⟩ :=
      base.amendMasked_compress Usual.isLawful_bitLists truths values rfl marked' (.inr rfl) false
        (.int 0)
    obtain ⟨degrees, hdegrees, hall⟩ := hrefused handed
    cases hw
    cases hr
    exact ⟨_, _, degrees, rfl, rfl, rfl, hdegrees, hall⟩

end View
end LazyApl
