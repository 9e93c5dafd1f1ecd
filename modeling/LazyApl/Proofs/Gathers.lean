import LazyApl.Proofs.Outcome
import LazyApl.Proofs.Links
import LazyApl.Proofs.Rooms
import LazyApl.Transform
import Mathlib.Data.List.Nodup
import Mathlib.Data.List.Perm.Subperm
/-!
# Reshapes, transposes, replications and selections lead cells to cells

Over a source of whole extents the other transforms have whole extents as well, and their links
send each cell to a cell of the source or to none. New extents are not negative and indices lie on
their axes; the constructors make sure of both.
-/
namespace LazyApl

open Outcome Link

namespace Reshape

theorem carries_link {dims t : Shape} (hd : dims.IsProper) (ht : t.IsProper) :
    ∃ l, link dims (.ofShape t) = .ok l ∧ l.Carries dims t := by
  have h0 := Shape.size_nonneg ht
  simp only [link, Extents.size_ofShape, Number.isZero_int, beq_iff_eq, Number.le_int, bind,
    Except.bind, pure, Except.pure, decide_eq_true_eq]
  split
  · refine ⟨_, rfl, (maps_linear (f := fun _ => none) hd fun i _ => ⟨rfl, ?_⟩).carries⟩
    simp
  · split
    · rename_i hle
      refine ⟨_, rfl, (maps_linear (f := some) hd fun i hi => ⟨rfl, ?_⟩).carries⟩
      rintro j ⟨⟩
      exact ⟨hi.1, lt_of_lt_of_le hi.2 hle⟩
    · rename_i hz _
      have hp : 0 < t.size := by omega
      refine ⟨_, rfl, (maps_linear (f := fun i => some (i.fmod t.size)) hd
        fun i _ => ⟨?_, ?_⟩).carries⟩
      · simp [cyclic, Number.mod, Number.pair, hz, bind, Except.bind, pure, Except.pure]
      · rintro j ⟨⟩
        exact ⟨Int.fmod_nonneg_of_pos i hp, Int.fmod_lt_of_pos i hp⟩

end Reshape

/-- The greatest of some numbers is at least each of them. -/
theorem le_foldl_max {α : Type} [LinearOrder α] {xs : List α} {m x : α} (h : x = m ∨ x ∈ xs) :
    x ≤ xs.foldl max m := by
  induction xs generalizing m x with
  | nil =>
      rcases h with rfl | h
      · exact le_refl _
      · cases h
  | cons y xs ih =>
      rw [List.foldl_cons]
      have hm : max m y ≤ xs.foldl max (max m y) := ih (.inl rfl)
      rcases h with rfl | h
      · exact (le_max_left x y).trans hm
      · rcases List.mem_cons.mp h with rfl | h
        · exact (le_max_right m x).trans hm
        · exact ih (.inr h)

theorem foldl_min_spec (xs : List Int) (m : Int) :
    (xs.foldl min m = m ∨ xs.foldl min m ∈ xs) ∧ ∀ x, x = m ∨ x ∈ xs → xs.foldl min m ≤ x := by
  induction xs generalizing m with
  | nil => simp
  | cons y xs ih =>
      rw [List.foldl_cons]
      obtain ⟨hm, hl⟩ := ih (min m y)
      constructor
      · rcases hm with hm | hm
        · rw [hm, List.mem_cons]
          omega
        · exact .inr (List.mem_cons_of_mem y hm)
      · intro x hx
        have h0 := hl _ (.inl rfl)
        rcases hx with rfl | hx
        · omega
        · rcases List.mem_cons.mp hx with rfl | hx
          · omega
          · exact hl x (.inr hx)

theorem nodup_upTo (n : Int) : (upTo n).Nodup :=
  List.Nodup.map (fun _ _ h => Int.ofNat.inj h) List.nodup_range

namespace Transpose

theorem lt_length_eraseDups {ts : List Int} {a : Int} (h0 : 0 ≤ a)
    (h : ∀ x, 0 ≤ x → x ≤ a → x ∈ ts) : a < ts.eraseDups.length := by
  have hs : upTo (a + 1) ⊆ ts.eraseDups := by
    intro x hx
    rw [mem_upTo] at hx
    exact List.mem_eraseDups.mpr (h x hx.1 (by omega))
  have hl := (List.subperm_of_subset (nodup_upTo _) hs).length_le
  rw [length_upTo] at hl
  omega

theorem targets_spec {axes : Option (List Number)} {source : Extents} {ts : List Int}
    (h : targets axes source = .ok ts) :
    ts.length = source.length ∧ ∀ a ∈ ts, 0 ≤ a ∧ a < ts.eraseDups.length := by
  cases axes with
  | none =>
      obtain rfl := Except.ok.inj h
      refine ⟨by simp, fun a ha => ?_⟩
      rw [List.mem_reverse, mem_upTo] at ha
      refine ⟨ha.1, lt_length_eraseDups ha.1 fun x h0 hx => ?_⟩
      rw [List.mem_reverse, mem_upTo]
      omega
  | some axes =>
      simp only [targets] at h
      split at h
      · cases h
      · rename_i hl
        obtain ⟨whole, hw, h⟩ := bind_eq_ok.mp h
        split at h
        · rename_i hc
          obtain rfl := Except.ok.inj h
          have hlen := (mapM_eq_ok.mp hw).length_eq
          refine ⟨by omega, fun a ha => ?_⟩
          simp only [covers, Bool.and_eq_true, List.all_eq_true, decide_eq_true_eq,
            List.contains_iff_mem] at hc
          have h0 := hc.2 a ha
          have hm : a ≤ whole.foldl max (-1) := le_foldl_max (.inr ha)
          refine ⟨h0, lt_length_eraseDups h0 fun x hx hxa => hc.1 x ?_⟩
          rw [mem_upTo]
          omega
        · cases h

/-- What belongs to the source axes that go to a result axis. -/
def goingTo {α : Type} (ts : List Int) (xs : List α) (t : Int) : List α :=
  (ts.zip xs).filterMap fun p => if p.1 = t then some p.2 else none

theorem mem_goingTo {α : Type} {ts : List Int} {xs : List α} {t : Int} {x : α} :
    x ∈ goingTo ts xs t ↔ (t, x) ∈ ts.zip xs := by
  rw [goingTo, List.mem_filterMap]
  constructor
  · rintro ⟨⟨a, y⟩, h, he⟩
    by_cases ha : a = t
    · simp only [ha, ite_true, Option.some.injEq] at he
      rwa [← ha, ← he]
    · simp [ha] at he
  · intro h
    exact ⟨(t, x), h, by simp⟩

theorem goingTo_ofShape (ts : List Int) (s : Shape) (t : Int) :
    goingTo ts (Extents.ofShape s) t = (goingTo ts s t).map Number.int := by
  rw [goingTo, goingTo, Extents.ofShape, List.zip_map_right, List.filterMap_map, List.map_filterMap]
  congr 1
  funext p
  by_cases h : p.1 = t <;> simp [h]

/-- The least extent of the source axes that go to a result axis, as a whole number. -/
def leastExtent (ts : List Int) (s : Shape) (t : Int) : Int :=
  (goingTo ts s t).tail.foldl min ((goingTo ts s t).headD 0)

theorem least_int (a : Int) (xs : List Int) :
    Number.least (.int a) (xs.map .int) = .ok (.int (xs.foldl min a)) := by
  induction xs generalizing a with
  | nil => rfl
  | cons x xs ih => simp [Number.least, ih, bind, Except.bind]

theorem extent_eq (ts : List Int) (xs : Extents) (t : Int) :
    extent ts xs t = Number.least ((goingTo ts xs t).headD 0) (goingTo ts xs t).tail := rfl

theorem extent_ofShape (ts : List Int) (s : Shape) (t : Int) :
    extent ts (.ofShape s) t = .ok (.int (leastExtent ts s t)) := by
  rw [extent_eq, goingTo_ofShape, leastExtent]
  cases goingTo ts s t with
  | nil => rfl
  | cons n ns => exact least_int n ns

theorem leastExtent_spec (ts : List Int) {s : Shape} (hs : s.IsProper) (t : Int) :
    0 ≤ leastExtent ts s t ∧ ∀ n, (t, n) ∈ ts.zip s → leastExtent ts s t ≤ n := by
  have hm (n : Int) : n ∈ goingTo ts s t ↔ (t, n) ∈ ts.zip s := mem_goingTo
  unfold leastExtent
  cases hx : goingTo ts s t with
  | nil =>
      rw [hx] at hm
      refine ⟨by simp, fun n hn => ?_⟩
      exact absurd ((hm n).mpr hn) (by simp)
  | cons n ns =>
      rw [hx] at hm
      obtain ⟨hi, hl⟩ := foldl_min_spec ns n
      simp only [List.tail_cons, List.headD_cons]
      constructor
      · have hc := (hm _).mp (List.mem_cons.mpr hi)
        exact hs _ (List.of_mem_zip hc).2
      · intro x hx
        exact hl x (List.mem_cons.mp ((hm x).mpr hx))

/-- The extents of a transpose, as whole numbers. -/
def turnedShape (ts : List Int) (s : Shape) : Shape :=
  (upTo ts.eraseDups.length).map (leastExtent ts s)

theorem shape_ofShape (ts : List Int) (s : Shape) :
    shape ts (.ofShape s) = .ok (.ofShape (turnedShape ts s)) := by
  rw [shape, mapM_ok fun t _ => extent_ofShape ts s t, turnedShape, Extents.ofShape, List.map_map]
  rfl

theorem turnedShape_isProper {ts : List Int} {s : Shape} (hs : s.IsProper) :
    (turnedShape ts s).IsProper := by
  intro n hn
  obtain ⟨t, _, rfl⟩ := List.mem_map.mp hn
  exact (leastExtent_spec ts hs t).1

theorem pickAt_gathered {ts : List Int} {s : Shape}
    (ht : ∀ a ∈ ts, 0 ≤ a ∧ a < ts.eraseDups.length) {c : List Int}
    (hc : (turnedShape ts s).Within c) {a : Int} (ha : a ∈ ts) :
    ∃ x, pickAt (c.map Number.int) a = .ok (.int x) ∧ c.getD a.toNat 0 = x ∧ 0 ≤ x ∧
      x < leastExtent ts s a := by
  obtain ⟨h0, h1⟩ := ht a ha
  have hn : (turnedShape ts s)[a.toNat]? = some (leastExtent ts s a) := by
    have hlt : a.toNat < ts.eraseDups.length := by omega
    simp [turnedShape, upTo, hlt, Int.toNat_of_nonneg h0]
  obtain ⟨x, hx, hp, hb⟩ := pickAt_within hc hn
  rw [Int.toNat_of_nonneg h0] at hp
  exact ⟨x, hp, by simp [List.getD_eq_getElem?_getD, hx], hb⟩

theorem gathered_within {ts : List Int} {s : Shape} (hs : s.IsProper) (hl : ts.length = s.length)
    (ht : ∀ a ∈ ts, 0 ≤ a ∧ a < ts.eraseDups.length) {c : List Int}
    (hc : (turnedShape ts s).Within c) : s.Within (ts.map fun a => c.getD a.toNat 0) := by
  rw [Shape.Within, List.forall₂_map_right_iff]
  refine List.forall₂_iff_get.mpr ⟨hl.symm, fun i h1 h2 => ?_⟩
  have hmem : (ts[i], s[i]) ∈ ts.zip s := by
    rw [List.mem_iff_getElem]
    exact ⟨i, by simp; omega, by simp⟩
  obtain ⟨x, _, hx, h0, hlt⟩ := pickAt_gathered ht hc (List.getElem_mem h2)
  have hle := (leastExtent_spec ts hs ts[i]).2 s[i] hmem
  simp only [List.get_eq_getElem, hx]
  omega

/-- Each source axis reads the coordinate of the result axis that it goes to. -/
theorem maps_link {ts : List Int} {s : Shape} (hs : s.IsProper) (hl : ts.length = s.length)
    (ht : ∀ a ∈ ts, 0 ≤ a ∧ a < ts.eraseDups.length) :
    ∃ l, link ts (.ofShape s) = .ok l ∧ l.Maps (turnedShape ts s) s fun i =>
      some (Shape.dot (ts.map fun a => (Shape.coordinates (turnedShape ts s) i).getD a.toNat 0)
        s.strides) := by
  rw [link, shape_ofShape]
  refine ⟨_, rfl, maps_decoded (f := fun c => some (ts.map fun a => c.getD a.toNat 0))
    (turnedShape_isProper hs) fun c hc => ⟨?_, ?_⟩⟩
  · have hd : (ts.mapM fun t => pickAt (c.map Number.int) t) =
        .ok (ts.map fun a => Number.int (c.getD a.toNat 0)) := by
      refine mapM_ok fun a ha => ?_
      obtain ⟨x, hp, hx, _⟩ := pickAt_gathered ht hc ha
      rw [hp, hx]
    simp only [hd, bind, Except.bind, pure, Except.pure, Option.map_some, List.map_map]
    rfl
  · rintro d ⟨⟩
    exact gathered_within hs hl ht hc

theorem carries_link {ts : List Int} {s : Shape} (hs : s.IsProper) (hl : ts.length = s.length)
    (ht : ∀ a ∈ ts, 0 ≤ a ∧ a < ts.eraseDups.length) :
    ∃ l, link ts (.ofShape s) = .ok l ∧ l.Carries (turnedShape ts s) s := by
  obtain ⟨l, hl, hmaps⟩ := maps_link hs hl ht
  exact ⟨l, hl, hmaps.carries⟩

end Transpose

namespace Replicate

/-- The axis of a replication is one of the axes of its source. -/
theorem axis_spec {given : Option AxisArgument} {first : Bool} {origin : Origin} {s : Shape}
    {k : Int} {x : Number} (hk : axis given first origin (.ofShape s) = .ok k)
    (hx : pickAt (Extents.ofShape s) k = .ok x) :
    ∃ (a : Nat) (n : Int), k = a ∧ s[a]? = some n ∧ x = .int n := by
  have hlt := (pickAt_lt hx).2
  have h0 : 0 ≤ k := by
    obtain ⟨y, hy, hk⟩ := bind_eq_ok.mp hk
    obtain rfl := Number.index_eq_ok.mp hk
    cases given with
    | some a => exact (AxisArgument.located_int hy).1
    | none =>
        have hpos : 0 < (Extents.ofShape s).length := by
          rcases Nat.eq_zero_or_pos (Extents.ofShape s).length with h | h
          · rw [List.length_eq_zero_iff.mp h] at hx
            have he := pickAt_lt hx
            simp only [List.length_nil] at he
            omega
          · exact h
        simp only [located, Except.ok.injEq, Number.int.injEq] at hy
        split at hy <;> omega
  rw [pickAt_ok h0, Extents.ofShape, List.getElem?_map, Option.map_eq_some_iff] at hx
  obtain ⟨n, hn, rfl⟩ := hx
  exact ⟨k.toNat, n, by omega, hn, rfl⟩

/-- What a cell gives: as many copies of its position as its count says, or as many fills. -/
def block (i d : Int) : List (Option Int) :=
  List.replicate d.natAbs (if 0 ≤ d then some i else none)

/-- What the cells from the given one on give, one after another. -/
def blocks (i : Int) : List Int → List (Option Int)
  | [] => []
  | d :: ds => block i d ++ blocks (i + 1) ds

theorem mem_blocks {i : Int} {ds : List Int} {x : Option Int} (h : x ∈ blocks i ds) :
    ∃ (k : Nat) (d : Int), ds[k]? = some d ∧ x = if 0 ≤ d then some (i + k) else none := by
  induction ds generalizing i with
  | nil => cases h
  | cons d ds ih =>
      rcases List.mem_append.mp h with h | h
      · exact ⟨0, d, rfl, by simpa using (List.mem_replicate.mp h).2⟩
      · obtain ⟨k, e, hk, hx⟩ := ih h
        refine ⟨k + 1, e, hk, ?_⟩
        rw [hx, Nat.cast_add_one, add_assoc, add_comm 1 (k : Int)]

variable {room : Room}

theorem expand_cons (length : Nat) (i d : Int) (ds : List Int) : expand room length i (d :: ds) =
    room.copies (if 0 ≤ d then some i else none) d.natAbs >>= fun own =>
      room.grown length (own.length + 0) >>= fun length =>
        expand room length (i + 1) ds >>= fun rest => .ok (own ++ rest) := by
  by_cases hd : 0 ≤ d
  · have habs : d = d.natAbs := by omega
    simp only [expand, if_pos hd, ← habs]
    rfl
  · have habs : -d = d.natAbs := by omega
    simp only [expand, if_neg hd, ← habs]
    rfl

/-- The blocks are made one after another, unless a block or the list of them has no room. -/
theorem expand_eq (room : Room) (i : Int) (ds : List Int) {length : Nat}
    (hl : length ≤ room.limit) :
    (room.Takes 0 length (ds.map Int.natAbs) ∧ expand room length i ds = .ok (blocks i ds)) ∨
      ¬ room.Takes 0 length (ds.map Int.natAbs) ∧
        (expand room length i ds = .error .overflow ∨
          expand room length i ds = .error .noRoom) := by
  induction ds generalizing i length with
  | nil => exact .inl ⟨Room.takes_nil hl, rfl⟩
  | cons d ds ih =>
      rw [expand_cons, List.map_cons, Room.takes_cons]
      -- what follows once the block of the first cell has been put into the list
      rcases room.copies_grown (if 0 ≤ d then some i else none) d.natAbs 0 length
        fun own length => expand room length (i + 1) ds >>= fun rest => .ok (own ++ rest)
        with ⟨⟨hd, hle⟩, hown⟩ | ⟨hd, hown⟩
      · rw [hown]
        rcases ih (i + 1) hle with ⟨hds, hrest⟩ | ⟨hds, hrest⟩
        · exact .inl ⟨⟨⟨hd, hle⟩, hds⟩, by rw [hrest]; rfl⟩
        · refine .inr ⟨fun h => hds h.2, hrest.imp ?_ ?_⟩ <;> rintro hrest <;> rw [hrest] <;> rfl
      · exact .inr ⟨fun h => hd h.1, hown⟩

theorem expand_eq_ok {i : Int} {ds : List Int} {length : Nat} {ps : List (Option Int)}
    (hl : length ≤ room.limit) (h : expand room length i ds = .ok ps) : ps = blocks i ds := by
  rcases expand_eq room i ds hl with ⟨_, he⟩ | ⟨_, he | he⟩ <;> cases h.symm.trans he
  rfl

theorem mem_blocks_bounds {i x : Int} {ds : List Int} (h : some x ∈ blocks i ds) :
    i ≤ x ∧ x < i + ds.length := by
  obtain ⟨k, d, hk, hx⟩ := mem_blocks h
  have hlt := (List.getElem?_eq_some_iff.mp hk).1
  split at hx
  · obtain rfl := Option.some.inj hx
    omega
  · cases hx

theorem positions_eq_ok {degrees : List Int} {isScalar : Bool} {n : Int} {ps : List (Option Int)}
    (h : positions room degrees isScalar (.int n) = .ok ps) :
    ∃ counts : List Int, (counts.length : Int) ≤ n ∧
      expand (room.beside counts.length) 0 0 counts = .ok ps := by
  have hc : ∃ counts : List Int, (do
      if ← (Number.int n).lt counts.length then
        .error (.length .countsBeyondCells [[counts.length], [Number.int n]])
      else expand (room.beside counts.length) 0 0 counts) = Except.ok ps := by
    simp only [positions] at h
    split at h
    · obtain ⟨m, _, h⟩ := bind_eq_ok.mp h
      obtain ⟨counts, _, h⟩ := bind_eq_ok.mp h
      exact ⟨counts, h⟩
    · exact ⟨degrees, h⟩
  obtain ⟨counts, hc⟩ := hc
  obtain ⟨b, hb, hc⟩ := bind_eq_ok.mp hc
  cases b with
  | true => cases hc
  | false =>
      have hn := of_decide_eq_false (Except.ok.inj hb)
      exact ⟨counts, by omega, hc⟩

theorem positions_spec {degrees : List Int} {isScalar : Bool} {n : Int} {ps : List (Option Int)}
    (h : positions room degrees isScalar (.int n) = .ok ps) {x : Int} (hx : some x ∈ ps) :
    0 ≤ x ∧ x < n := by
  obtain ⟨counts, hle, he⟩ := positions_eq_ok h
  obtain rfl := expand_eq_ok (Nat.zero_le _) he
  have hbounds := mem_blocks_bounds hx
  omega

theorem pickFrom_ok {α : Type} {xs : List α} {i : Int} (h0 : 0 ≤ i) {x : α}
    (h : xs[i.toNat]? = some x) : pickFrom xs.toArray (.int i) = .ok x := by
  simp [pickFrom, placeIn, Int.not_lt.mpr h0, h, bind, Except.bind, pure, Except.pure]

/-- Where a cell of a replication is taken from: its coordinate along the axis is looked up. -/
def source (ps : List (Option Int)) (a : Nat) (c : List Int) : Option (List Int) :=
  (ps.getD (c.getD a 0).toNat none).map fun x => c.set a x

theorem maps_link {ps : List (Option Int)} {s : Shape} (hs : s.IsProper) {a : Nat} {n : Int}
    (ha : s[a]? = some n) (h : ∀ x, some x ∈ ps → 0 ≤ x ∧ x < n) :
    (link ps a (.ofShape s)).Maps (s.set a ps.length) s fun i =>
      (source ps a (Shape.coordinates (s.set a ps.length) i)).map
        fun d => Shape.dot d s.strides := by
  have ho : replaced (Extents.ofShape s) a ((ps.length : Nat) : Number) =
      Extents.ofShape (s.set a ps.length) := by
    simp [replaced, Extents.ofShape, List.map_set]
  have hal := (List.getElem?_eq_some_iff.mp ha).1
  unfold link
  dsimp only
  rw [ho]
  refine maps_decoded (f := source ps a) (hs.set (Int.natCast_nonneg _) a) fun c hc => ?_
  have hset : (s.set a ps.length)[a]? = some (ps.length : Int) := by simp [hal]
  obtain ⟨y, hy, hp, h0, h1⟩ := pickAt_within hc hset
  have hlt : y.toNat < ps.length := by omega
  have hf := pickFrom_ok h0 (List.getElem?_eq_getElem hlt)
  have hsource : source ps a c = ps[y.toNat].map fun x => c.set a x := by
    simp [source, List.getD_eq_getElem?_getD, hy, hlt]
  rw [hsource]
  cases hq : ps[y.toNat] with
  | none =>
      refine ⟨?_, by simp⟩
      simp [hp, hf, hq, bind, Except.bind, pure, Except.pure]
  | some x =>
      refine ⟨?_, ?_⟩
      · simp [hp, hf, hq, replaced, List.map_set, bind, Except.bind, pure, Except.pure]
      · rintro d ⟨⟩
        have hw := hc.set (n := n) a (h x (hq ▸ List.getElem_mem hlt))
        rw [List.set_set] at hw
        obtain ⟨hk, rfl⟩ := List.getElem?_eq_some_iff.mp ha
        rwa [List.set_getElem_self hk] at hw

theorem carries_link {ps : List (Option Int)} {s : Shape} (hs : s.IsProper) {a : Nat} {n : Int}
    (ha : s[a]? = some n) (h : ∀ x, some x ∈ ps → 0 ≤ x ∧ x < n) :
    (link ps a (.ofShape s)).Carries (s.set a ps.length) s := (maps_link hs ha h).carries

end Replicate

/-- The argument lists cells of an axis, counted from an origin, in a shape. -/
def IntArgument.Picks (o n : Int) (y : IntArgument) : Prop :=
  ∃ (u : Shape) (vs : List Int), y.shape.get = .ok (.ofShape u) ∧ y.ints.get = .ok vs ∧
    u.IsProper ∧ vs.length = u.size.toNat ∧ ∀ v ∈ vs, o ≤ v ∧ v < o + n

namespace Selection

/-- Each index that is given lists cells of its axis. -/
def InRange (o : Int) (s : Shape) (indices : List (Option IntArgument)) : Prop :=
  List.Forall₂ (fun n y => ∀ z ∈ y, IntArgument.Picks o n z) s indices

def ownExtents (n : Number) : Option IntArgument → Except Fault Extents
  | none => .ok [n]
  | some y => y.shape.get

theorem shape_cons (n : Number) (ns : Extents) (y : Option IntArgument)
    (ys : List (Option IntArgument)) : shape (n :: ns) (y :: ys) =
      ownExtents n y >>= fun own => shape ns ys >>= fun rest => .ok (own ++ rest) := by
  cases y <;> rfl

theorem checked_ok {origin : Origin} {o n axis : Int} {vs : List Int}
    (ho : origin.number = .ok (.int o)) (h : ∀ v ∈ vs, o ≤ v ∧ v < o + n) :
    checked (.int n) axis origin vs = .ok (vs.map fun v => .int (v - o)) := by
  have hv : vs.mapM origin.strip = .ok (vs.map fun v => .int (v - o)) :=
    mapM_ok fun v _ => by simp [Scalar.strip, ho, bind, Except.bind]
  have hc : checkAll (.int n) axis origin (vs.map fun v => .int (v - o)) = .ok () := by
    clear hv
    induction vs with
    | nil => rfl
    | cons v vs ih =>
        obtain ⟨hv, hr⟩ := List.forall_mem_cons.mp h
        have hw : isWithin (.int n) (.int (v - o)) = .ok true := by
          have h0 : o ≤ v := hv.1
          have h1 : v - o < n := by omega
          simp [isWithin, h0, h1, bind, Except.bind]
        simpa [checkAll, hw, bind, Except.bind] using ih hr
  simp only [checked, hv, hc, bind, Except.bind, pure, Except.pure]

/-- The coordinate that is taken along an axis: the one that its index lists at coordinates of the
index, or the coordinate in the selection itself if the index is omitted. -/
inductive Takes (o : Int) : Option IntArgument → List Int → Int → Prop
  | whole (x : Int) : Takes o none [x] x
  | listed {z : IntArgument} {u : Shape} {vs c : List Int} {v : Int}
      (hu : z.shape.get = .ok (.ofShape u)) (hv : z.ints.get = .ok vs) (hc : u.Within c)
      (h : vs[(Shape.position u c).toNat]? = some v) : Takes o (some z) c (v - o)

/-- Coordinates in a selection address a cell of the array, axis by axis. -/
inductive Addresses (o : Int) : List (Option IntArgument) → List Int → List Int → Prop
  | nil : Addresses o [] [] []
  | cons {y : Option IntArgument} {ys : List (Option IntArgument)} {own c d : List Int} {x : Int}
      (h : Takes o y own x) (hs : Addresses o ys c d) : Addresses o (y :: ys) (own ++ c) (x :: d)

/-- The coordinates that a plan takes along one axis lie on that axis. -/
theorem axisPlan_spec {origin : Origin} {o n : Int} (axis : Int) {y : Option IntArgument}
    (hn : 0 ≤ n)
    (ho : origin.number = .ok (.int o)) (h : ∀ z ∈ y, IntArgument.Picks o n z) :
    ∃ (u : Shape) (p : AxisPlan),
      ownExtents (.int n) y = .ok (.ofShape u) ∧
      axisPlan (.int n) axis origin y = .ok p ∧ u.IsProper ∧ p.width = u.length ∧
      ∀ c, u.Within c →
        ∃ x, p.find (c.map .int) = .ok (.int x) ∧ (0 ≤ x ∧ x < n) ∧ Takes o y c x := by
  cases y with
  | none =>
      refine ⟨[n], .all, rfl, rfl, by simpa [Shape.IsProper] using hn, rfl, fun c hc => ?_⟩
      cases hc with
      | cons hx hc =>
          cases hc
          exact ⟨_, rfl, hx, .whole _⟩
  | some y =>
      obtain ⟨u, vs, hu, hv, hp, hl, hr⟩ := h y rfl
      simp only [axisPlan, hu, hv, checked_ok ho hr, bind, Except.bind]
      cases u with
      | nil =>
          obtain ⟨v, rfl⟩ := List.length_eq_one_iff.mp (by simpa using hl)
          have hb := hr v (by simp)
          refine ⟨[], .one (.int (v - o)), hu, rfl, hp, rfl, fun c hc => ?_⟩
          have hpos : Shape.position [] c = 0 := rfl
          exact ⟨_, rfl, by omega, .listed hu hv hc (by rw [hpos]; rfl)⟩
      | cons m u =>
          refine ⟨m :: u, .table (.ofShape (m :: u)) (vs.map fun v => .int (v - o)), hu, rfl, hp,
            by simp [AxisPlan.width], fun c hc => ?_⟩
          obtain ⟨h0, h1⟩ := hc.holds_position
          have hlt : (Shape.position (m :: u) c).toNat < vs.length := by omega
          have hv' := hr _ (List.getElem_mem hlt)
          refine ⟨vs[(Shape.position (m :: u) c).toNat] - o, ?_, by omega,
            .listed hu hv hc (List.getElem?_eq_getElem hlt)⟩
          simp only [AxisPlan.find, Extents.position_ofShape, pickBy_int, bind, Except.bind]
          rw [pickAt_ok h0]
          simp [hlt]

/-- Coordinates in a selection lead to coordinates in the array, which they address. -/
theorem plans_spec {origin : Origin} {o : Int} {s : Shape} {indices : List (Option IntArgument)}
    (hs : s.IsProper) (ho : origin.number = .ok (.int o)) (h : InRange o s indices) (axis : Int) :
    ∃ (u : Shape) (plans : List AxisPlan), shape (.ofShape s) indices = .ok (.ofShape u) ∧
      plan origin axis (.ofShape s) indices = .ok plans ∧ u.IsProper ∧
      ∀ c, u.Within c → ∃ d : List Int, locate plans (c.map .int) = .ok (d.map .int) ∧
        s.Within d ∧ Addresses o indices c d := by
  induction h generalizing axis with
  | nil =>
      refine ⟨[], [], rfl, rfl, Shape.isProper_nil, fun c hc => ⟨[], rfl, Shape.within_nil, ?_⟩⟩
      cases hc
      exact .nil
  | @cons n y s ys hy _ ih =>
      rw [Shape.isProper_cons] at hs
      obtain ⟨u, plans, hu, hp, hup, hd⟩ := ih hs.2 (axis + 1)
      obtain ⟨v, p, hv, ha, hvp, hw, hx⟩ := axisPlan_spec axis hs.1 ho hy
      refine ⟨v ++ u, p :: plans, ?_, ?_, hvp.append hup, fun c hc => ?_⟩
      · rw [show Extents.ofShape (n :: s) = .int n :: Extents.ofShape s from rfl, shape_cons, hv,
          hu]
        simp [bind, Except.bind, Extents.ofShape]
      · have hpl : plan origin axis (.ofShape (n :: s)) (y :: ys) = (do
            let own ← axisPlan (.int n) axis origin y
            let rest ← plan origin (axis + 1) (.ofShape s) ys
            return own :: rest) := rfl
        rw [hpl, ha, hp]
        rfl
      · have hct := hc.take v.length
        have hcd := hc.drop v.length
        rw [List.take_left'] at hct
        rw [List.drop_left'] at hcd
        all_goals try rfl
        obtain ⟨x, hf, hb, htake⟩ := hx _ hct
        obtain ⟨d, hl, hdw, haddr⟩ := hd _ hcd
        refine ⟨x :: d, ?_, Shape.within_cons.mpr ⟨hb, hdw⟩, ?_⟩
        · simp only [locate, hw, ← List.map_take, ← List.map_drop, hf, hl, bind, Except.bind, pure,
            Except.pure, List.map_cons]
        · have h := Addresses.cons htake haddr
          rwa [List.take_append_drop] at h

/-- The link of a selection sends each of its cells to the one that it addresses. -/
theorem maps_link {origin : Origin} {o : Int} {s : Shape} {indices : List (Option IntArgument)}
    (hs : s.IsProper) (ho : origin.number = .ok (.int o)) (h : InRange o s indices) :
    ∃ (u : Shape) (l : Link) (f : List Int → List Int),
      shape (.ofShape s) indices = .ok (.ofShape u) ∧ u.IsProper ∧
      link indices origin (.ofShape s) = .ok l ∧
      (l.Maps u s fun i => some (Shape.dot (f (u.coordinates i)) s.strides)) ∧
      ∀ c, u.Within c → s.Within (f c) ∧ Addresses o indices c (f c) := by
  obtain ⟨u, plans, hu, hp, hup, hd⟩ := plans_spec hs ho h 0
  choose! f hl hw haddr using hd
  simp only [link, hu, bind, Except.bind]
  refine ⟨u, _, f, rfl, hup, rfl, ?_, fun c hc => ⟨hw c hc, haddr c hc⟩⟩
  refine maps_decoded (f := fun c => some (f c)) hup fun c hc => ⟨?_, ?_⟩
  · simp [hp, hl c hc, pure, Except.pure]
  · rintro e ⟨⟩
    exact hw c hc

theorem carries_link {origin : Origin} {o : Int} {s : Shape} {indices : List (Option IntArgument)}
    (hs : s.IsProper) (ho : origin.number = .ok (.int o)) (h : InRange o s indices) :
    ∃ (u : Shape) (l : Link), shape (.ofShape s) indices = .ok (.ofShape u) ∧ u.IsProper ∧
      link indices origin (.ofShape s) = .ok l ∧ l.Carries u s := by
  obtain ⟨u, l, f, hu, hup, hl, hmaps, _⟩ := maps_link hs ho h
  exact ⟨u, l, hu, hup, hl, hmaps.carries⟩

end Selection

/-- The cells of a window are cells of the source. -/
structure Link.Frames (o : Int) (dims : List (Int × Int)) (s : Shape) : Prop where
  proper : Shape.IsProper (dims.map Prod.fst)
  holds : ∀ c, Shape.Within (dims.map Prod.fst) c → s.Holds (o + Shape.dot c (dims.map Prod.snd))

namespace Link

def ofDims (dims : List (Int × Int)) : List (Number × Number) :=
  dims.map fun (n, k) => (.int n, .int k)

theorem map_fst_ofDims (dims : List (Int × Int)) :
    (ofDims dims).map Prod.fst = Extents.ofShape (dims.map Prod.fst) := by
  simp [ofDims, Extents.ofShape, Function.comp_def]

theorem map_snd_ofDims (dims : List (Int × Int)) :
    (ofDims dims).map Prod.snd = (dims.map Prod.snd).map Number.int := by
  simp [ofDims, Function.comp_def]

/-- A window leads to evenly spaced cells. -/
theorem maps_affine {offset : Scalar} {o : Int} {dims : List (Int × Int)} {s : Shape}
    (ho : offset.number = .ok (.int o)) (h : Frames o dims s) :
    (affine offset (ofDims dims) (.ofShape s)).Maps (dims.map Prod.fst) s fun i =>
      some (o + Shape.dot (Shape.coordinates (dims.map Prod.fst) i) (dims.map Prod.snd)) := by
  unfold affine
  dsimp only
  rw [map_fst_ofDims, map_snd_ofDims]
  split
  · rename_i step heq
    obtain ⟨⟨n, k⟩, rfl⟩ : ∃ d, dims = [d] :=
      List.length_eq_one_iff.mp (by simpa [ofDims] using congrArg List.length heq)
    simp only [ofDims, List.map_cons, List.map_nil, List.cons.injEq, Prod.mk.injEq, and_true] at heq
    obtain ⟨_, rfl⟩ := heq
    refine maps_linear h.proper fun i hi => ?_
    have hn : n ≠ 0 := by
      rintro rfl
      simp [Shape.Holds] at hi
      omega
    have hc : Shape.coordinates [n] i = [i] := by
      have hb : 0 ≤ i ∧ i < n := by simpa [Shape.Holds] using hi
      simp [Shape.coordinates, Shape.split, hn, Int.fmod_eq_emod_of_nonneg _ (by omega : 0 ≤ n),
        Int.emod_eq_of_lt hb.1 hb.2]
    have hw := h.holds _ (Shape.coordinates_within h.proper hi)
    simp only [List.map_cons, List.map_nil, hc, Shape.dot, Int.add_zero] at hw ⊢
    refine ⟨?_, ?_⟩
    · simp [ho, bind, Except.bind, pure, Except.pure]
    · rintro j ⟨⟩
      exact hw
  · refine maps_flatten (f := fun c => some (o + Shape.dot c (dims.map Prod.snd))) h.proper
      fun c hc => ⟨?_, ?_⟩
    · simp only [ho, Extents.dot_map, Number.add_int, bind, Except.bind, pure, Except.pure,
        Option.map_some]
    · rintro j ⟨⟩
      exact h.holds c hc

end Link
end LazyApl
