import LazyApl.Platform.Usual
import LazyApl.Proofs.Grading
import LazyApl.Proofs.PathForms
import LazyApl.Proofs.Searching
import Mathlib.Data.List.Lex
/-!
# Grading by a key

A key gives each character its place: the position at which it stands first in the items of the key,
or the end of the key if it does not stand there. A grade by a key sorts the major cells of an array
of characters by the places of their characters, and keeps the order of cells that have the same
ones. Whether there are characters is asked of the element type of the array: one of another type is
refused unless it is empty, whatever its items are.
-/

namespace LazyApl

open Outcome

namespace Item

section

variable {α β : Type} [LinearOrder α] [LinearOrder β] {x y : α} {a b : β}

/-- The comparison of two values of a linear order. -/
def signOf (x y : α) : Int := sign (decide (x < y)) (decide (y < x))

theorem signOf_of_lt (h : x < y) : signOf x y = -1 := sign_of_lt h

@[simp] theorem signOf_self (x : α) : signOf x x = 0 := sign_self x

theorem signOf_of_gt (h : y < x) : signOf x y = 1 := sign_of_gt h

theorem signOf_congr (h : x < y ↔ a < b) (h' : y < x ↔ b < a) : signOf x y = signOf a b := by
  simp only [signOf, h, h']

theorem lexicographic_signOf (xs ys : List α) :
    lexicographic (fun x y : α => .ok (signOf x y)) xs ys = .ok (signOf xs ys) := by
  induction xs generalizing ys with
  | nil =>
      cases ys with
      | nil => rw [lexicographic_nil_nil, signOf_self]
      | cons y ys => rw [lexicographic_nil_cons, signOf_of_lt (by simp)]
  | cons x xs ih =>
      cases ys with
      | nil => rw [lexicographic_cons_nil, signOf_of_gt (by simp)]
      | cons y ys =>
          rw [lexicographic, ih]
          rcases lt_trichotomy x y with h | rfl | h
          · rw [signOf_of_lt h, signOf_of_lt (List.cons_lt_cons_iff.mpr (.inl h))]
            rfl
          · rw [signOf_self, thenBy_zero]
            exact congrArg _ (signOf_congr (by simp) (by simp))
          · rw [signOf_of_gt h, signOf_of_gt (List.cons_lt_cons_iff.mpr (.inl h))]
            rfl

end

theorem lexicographic_map {α β : Type} (f : β → β → Except Fault Int) (g : α → β)
    (xs ys : List α) :
    lexicographic f (xs.map g) (ys.map g) = lexicographic (fun x y => f (g x) (g y)) xs ys := by
  induction xs generalizing ys with
  | nil => simp [lexicographic]
  | cons x xs ih =>
      cases ys with
      | nil => simp [lexicographic]
      | cons y ys => simp [lexicographic, ih]

theorem compare_nat (j k : Nat) : compare (int j) (int k) = .ok (signOf j k) := by
  have hint : compare (int j) (int k) = .ok (signOf (j : Int) k) := rfl
  rw [hint, signOf_congr Int.ofNat_lt Int.ofNat_lt]

theorem compareCells_nat (xs ys : List Nat) :
    compareCells (xs.map fun k : Nat => int k) (ys.map fun k : Nat => int k) =
      .ok (signOf xs ys) := by
  rw [compareCells_eq, lexicographic_map]
  simp only [compare_nat]
  exact lexicographic_signOf xs ys

end Item

namespace Grade

open Item

/-- The characters of the cell of an array at a position along its first axis, each by its place in
the key. The cells have the given shape. Characters that are not in the key are all at its end. -/
def places (ks : List Char) (s : Shape) (cs : List Char) (i : Int) : List Nat :=
  ((cs.drop (i.toNat * s.size.toNat)).take s.size.toNat).map ks.idxOf

/-- A position may stand before another one in the result of a grade by a key: the places of its
characters are the lesser ones, downwards the greater ones, or they are the same and the position is
the lesser one. -/
def PlacedBefore (isDown : Bool) (place : Int → List Nat) (i j : Int) : Prop :=
  (if isDown then place j < place i else place i < place j) ∨ place i = place j ∧ i < j

theorem majorCell_places (ks : List Char) (s : Shape) (cs : List Char) (i : Int) :
    majorCell s (cs.map fun c => int (ks.idxOf c)) i =
      (places ks s cs i).map fun k : Nat => int k := by
  rw [majorCell, places, ← List.map_drop, ← List.map_take, List.map_map]
  rfl

theorem placedBefore_of_standsBefore {isDown : Bool} {cell : Int → List Item}
    {place : Int → List Nat} {i j : Int} (hcell : ∀ i, cell i = (place i).map fun k : Nat => int k)
    (h : StandsBefore isDown cell i j) : PlacedBefore isDown place i j := by
  obtain ⟨c, hc, hsign, htie⟩ := h
  rw [hcell, hcell, compareCells_nat] at hc
  obtain rfl := Except.ok.inj hc
  rcases lt_trichotomy (place i) (place j) with hlt | heq | hgt
  · rw [signOf_of_lt hlt] at hsign
    cases isDown with
    | false => exact .inl hlt
    | true => simp at hsign
  · exact .inr ⟨heq, htie (by rw [heq, signOf_self])⟩
  · rw [signOf_of_gt hgt] at hsign
    cases isDown with
    | false => simp at hsign
    | true => exact .inl hgt

end Grade

namespace Item

open Grade

def chars (cs : List Char) : List Item := cs.map fun c => text (String.ofList [c])

@[simp] theorem length_chars (cs : List Char) : (chars cs).length = cs.length := List.length_map _

theorem isValue_of_mem_chars {cs : List Char} {x : Item} (h : x ∈ chars cs) : Path.IsValue x := by
  obtain ⟨c, -, rfl⟩ := List.mem_map.mp h
  exact .character (by simp)

theorem mapM_chars {α : Type} (f : Item → Except Fault α) (cs : List Char) :
    (chars cs).mapM f = cs.mapM fun c => f (text (String.ofList [c])) := List.mapM_map

theorem foldl_join_chars (cs : List Char) :
    (cs.map fun _ => EType.char).foldl EType.join EType.char = EType.char := by
  induction cs with
  | nil => rfl
  | cons c cs ih => exact ih

theorem etype_chars {cs : List Char} (h : cs ≠ []) (s : Shape) (fill : Option Item) :
    (Grid.etype ⟨s, chars cs, fill⟩).kind = .char := by
  cases cs with
  | nil => exact absurd rfl h
  | cons c cs =>
      have hsimple : Grid.isNested ⟨s, chars (c :: cs), fill⟩ = false := by
        simp [Grid.isNested, chars, isGrid]
      have hjoin : EType.joinAll ((chars (c :: cs)).map etype) = some EType.char := by
        rw [chars, List.map_map, List.map_cons, EType.joinAll_cons]
        exact congrArg some (foldl_join_chars cs)
      have hetype : Grid.etype ⟨s, chars (c :: cs), fill⟩ =
          (EType.joinAll ((chars (c :: cs)).map etype)).getD EType.bit := by
        rw [Grid.etype, hsimple, ← EType.joinValues_none]
        rfl
      rw [hetype, hjoin]
      rfl

theorem lift_chars (ks : List Char) :
    (list (chars ks)).lift = View.ofGrid ⟨[(ks.length : Int)], chars ks, none⟩ := by
  simp only [lift, Path.vectorOf_list, Path.map_inArray fun x hx => isValue_of_mem_chars hx,
    length_chars, View.ofGrid]

theorem lists_chars (ks : List Char) : (list (chars ks)).Lists (chars ks) := by
  have hkept : Grid.IsKept ⟨[(ks.length : Int)], chars ks, none⟩ :=
    ⟨by simp, fun x hx => (isValue_of_mem_chars hx).isKept⟩
  refine ⟨⟨[ks.length], by rw [lift_chars]; rfl, by simp [Shape.IsProper], by simp⟩, ?_⟩
  rw [items_lift, lift_chars]
  exact items_of_isKept hkept

theorem getD_idxOf?_eq (ks : List Char) (c : Char) :
    ((ks.idxOf? c).map fun (k : Nat) => (k : Int)).getD ks.length = ks.idxOf c := by
  have hplace : ks.idxOf c = (ks.idxOf? c).getD ks.length := List.findIdx_eq_getD_findIdx?
  rw [hplace]
  cases ks.idxOf? c <;> rfl

theorem find_chars [Platform] (ks : List Char) (c : Char) (ct : Tolerance) :
    (Lookup.ofList (chars ks) ct).find (text (String.ofList [c])) =
      .ok ((ks.idxOf? c).map fun (k : Nat) => (k : Int)) := by
  obtain ⟨hfaithful, hvalues, htolerance⟩ := Lookup.ofList_spec (chars ks) ct
  have hnear : ∀ x ∈ chars ks, near ct (text (String.ofList [c])) x =
      .ok (x.exactValue == some (.text (String.ofList [c]))) := by
    intro x hx
    obtain ⟨k, -, rfl⟩ := List.mem_map.mp hx
    rw [near_of_exactValue ct rfl rfl]
    rfl
  rw [hfaithful.find_eq, hvalues, htolerance, Lookup.firstWhere_of_ok 0 hnear, chars,
    List.findIdx?_map]
  have hchar : ((fun x => exactValue x == some (.text (String.ofList [c]))) ∘
      fun k => text (String.ofList [k])) = fun k => k == c := by
    funext k
    by_cases h : k = c <;> simp [h, exactValue]
  rw [hchar]
  simp [List.idxOf?]

theorem size_eq_of_chars {v : View Item} {t : Shape} {cs : List Char} (hp : t.IsProper)
    (hs : v.shape = .ok (.ofShape t)) (hx : (view v).items = .ok (chars cs)) :
    t.size = cs.length := by
  rw [← length_chars cs, length_items hs hx, Int.toNat_of_nonneg (Shape.size_nonneg hp)]

/-- Characters are looked up in a key: each gives its place there. -/
theorem items_indexOf_chars [Platform] {v : View Item} {t : Shape} {cs : List Char}
    (ht : t.IsProper) (hs : v.shape = .ok (.ofShape t)) (hx : (view v).items = .ok (chars cs))
    (ks : List Char) (ct : Tolerance) :
    (view (indexOf (list (chars ks)) (view v) (.int 0) ct)).items =
      .ok (cs.map fun c => int (ks.idxOf c)) := by
  refine View.items_whole (t := t) ?content ?shape ?length ?settled
  case content =>
    have hv : (view v).lift = v := rfl
    simp only [Lazy.get_delay, (lists_chars ks).members_eq, hv, hx, bind, Except.bind, pure,
      Except.pure]
    rw [mapM_chars]
    refine mapM_ok fun c _ => ?_
    obtain ⟨-, hvalues, -⟩ := Lookup.ofList_spec (chars ks) ct
    simp only [find_chars, hvalues, length_chars, getD_idxOf?_eq]
    rfl
  case shape =>
    obtain ⟨u, hu, -, hflat⟩ := (lists_chars ks).shape
    have hrank : ¬ (1 : Int) < u.length := by omega
    simp only [Lazy.get_delay, View.rank_of_shape hu, if_neg hrank, bind, Except.bind]
    exact hs
  case length => rw [List.length_map, size_eq_of_chars ht hs hx]
  case settled =>
    intro x hx
    obtain ⟨c, -, rfl⟩ := List.mem_map.mp hx
    rfl

section

variable {base key : Item} {g : Grid Item} {n o : Int} {s : Shape} {cs ks : List Char} {e : EType}

theorem shape_grade [Platform] (key : Item) (isDown : Bool) (o : Int)
    (hs : base.based.shape = .ok (.ofShape (n :: s))) :
    (base.grade (some key) isDown (.int o)).shape = .ok (.ofShape [n]) := by
  have hextent : base.based.shape = .ok (.int n :: Extents.ofShape s) := hs
  simp only [grade, View.whole, View.shape_computed, Lazy.get_delay, hextent, bind, Except.bind]
  rfl

theorem exists_render_grade [Platform] {isDown : Bool} {perm : List Int} (hn : 0 ≤ n)
    (hs : base.based.shape = .ok (.ofShape (n :: s))) (hl : (perm.length : Int) = n)
    (hc : (base.grade (some key) isDown (.int o)).HasContent (perm.map fun i => int (i + o))) :
    ∃ fill, (view (base.grade (some key) isDown (.int o))).render =
      .ok (.array ⟨[n], perm.map fun i => int (i + o), fill⟩) := by
  refine (View.shown_ints (e := EType.integer o (max (n - 1) 0 + o)) (View.hasContent_whole.mp hc)
    (shape_grade key isDown o hs) ?etype ?length ?proper rfl).2
  case etype =>
    have hlast : (Number.int n).sub 1 = .ok (.int (n - 1)) := rfl
    have hcount : (Number.int (n - 1)).greater 0 = .ok (.int (max (n - 1) 0)) :=
      Number.greater_int _ 0
    simp only [Lazy.get_delay, hs, Extents.ofShape, List.map_cons, hlast, hcount, bind,
      Except.bind, pure, Except.pure]
    exact EType.counted_int o (max (n - 1) 0)
  case length => simpa using hl
  case proper => simpa [Shape.isProper_cons, Shape.isProper_nil] using hn

theorem size_based (hp : Shape.IsProper (n :: s))
    (hs : base.based.shape = .ok (.ofShape (n :: s)))
    (hx : (view base.based).items = .ok (chars cs)) :
    base.based.size = .ok (.int cs.length) := by
  simp only [View.size, hs, Extents.size_ofShape, size_eq_of_chars hp hs hx, bind, Except.bind]

/-- The content of a grade by a key: a permutation that sorts the cells by their places. -/
theorem exists_hasContent_grade [Platform] (hp : Shape.IsProper (n :: s))
    (hs : base.based.shape = .ok (.ofShape (n :: s)))
    (hx : (view base.based).items = .ok (chars cs)) (he : base.based.etype = .ok e)
    (hkey : (view key.lift).render = .ok (array g)) (hg : g.items = chars ks)
    (hchar : e.kind = .char ∨ cs = []) (isDown : Bool) (o : Int) :
    ∃ perm : List Int,
      (base.grade (some key) isDown (.int o)).HasContent (perm.map fun i => int (i + o)) ∧
        perm.Perm (upTo n) ∧ perm.Pairwise (PlacedBefore isDown (places ks s cs)) := by
  have hitems := items_indexOf_chars hp hs hx ks defaultTolerance
  have hexact : areExact (cs.map fun c => int (ks.idxOf c)) = true := by
    rw [areExact_iff]
    intro x hx
    obtain ⟨c, -, rfl⟩ := List.mem_map.mp hx
    rfl
  obtain ⟨perm, hperm, hall, hsorted⟩ := permutation_spec
    (fun i (_ : i ∈ upTo n) => areExact_majorCell hexact s i) isDown
  refine ⟨perm, View.hasContent_whole.mpr ?_, hall,
    hsorted.imp fun h => placedBefore_of_standsBefore (majorCell_places ks s cs) h⟩
  have hsize := size_based hp hs hx
  have haccept : (!decide (e.kind = .char) && !(Number.int cs.length).isZero) = false := by
    simpa using hchar.resolve_left
  simp only [Lazy.get_delay, hs, he, hsize, haccept, hkey, hg, hitems, Extents.ofShape,
    List.map_cons, bind, Except.bind, pure, Except.pure, Number.index_int, Bool.false_eq_true,
    if_false]
  rw [pieces_eq hp (by rw [List.length_map, size_eq_of_chars hp hs hx, Int.toNat_natCast]), hperm]
  exact mapM_ok fun i _ => rfl

theorem render_grade_refused [Platform] (hp : Shape.IsProper (n :: s))
    (hs : base.based.shape = .ok (.ofShape (n :: s)))
    (hx : (view base.based).items = .ok (chars cs)) (he : base.based.etype = .ok e)
    (hchar : e.kind ≠ .char) (hcs : cs ≠ []) (isDown : Bool) (o : Int) :
    (view (base.grade (some key) isDown (.int o))).render = .error (.domain .keyedGrade) := by
  have hn := (Shape.isProper_cons.mp hp).1
  refine View.render_whole_of_error ?content (shape_grade key isDown o hs) ?proper rfl
  case content =>
    have hsize := size_based hp hs hx
    have hrefuse : (!decide (e.kind = .char) && !(Number.int cs.length).isZero) = true := by
      simp [hchar, hcs]
    simp only [Lazy.get_delay, hs, he, hsize, hrefuse, Extents.ofShape, List.map_cons, bind,
      Except.bind, pure, Except.pure, if_true]
  case proper => simpa [Shape.isProper_cons, Shape.isProper_nil] using hn

/-- A grade by a key sorts the major cells of an array of characters by the places of their
characters in the key, upwards or downwards, and keeps the order of cells with the same places. The
key may be of any shape. It does so if the element type of the array is that of characters or the
array is empty, and is refused otherwise. -/
theorem grade_sorts_by_key [Platform] (base key : Item) (isDown : Bool) (o : Int)
    (hp : Shape.IsProper (n :: s)) (hs : base.based.shape = .ok (.ofShape (n :: s)))
    (hx : (view base.based).items = .ok (chars cs)) (he : base.based.etype = .ok e)
    (hkey : (view key.lift).render = .ok (array g)) (hg : g.items = chars ks) :
    (e.kind = .char ∨ cs = [] →
      ∃ (perm : List Int) (fill : Option Item),
        (view (base.grade (some key) isDown (.int o))).render =
            .ok (.array ⟨[n], perm.map fun i => int (i + o), fill⟩) ∧
          perm.Perm (upTo n) ∧ perm.Pairwise (PlacedBefore isDown (places ks s cs))) ∧
      (e.kind ≠ .char → cs ≠ [] →
        (view (base.grade (some key) isDown (.int o))).render = .error (.domain .keyedGrade)) := by
  refine ⟨fun hchar => ?_, fun hchar hcs => render_grade_refused hp hs hx he hchar hcs isDown o⟩
  have hn := (Shape.isProper_cons.mp hp).1
  obtain ⟨perm, hc, hperm, hsorted⟩ :=
    exists_hasContent_grade hp hs hx he hkey hg hchar isDown o
  have hl : (perm.length : Int) = n := by
    rw [hperm.length_eq, length_upTo, Int.toNat_of_nonneg hn]
  obtain ⟨fill, hrender⟩ := exists_render_grade hn hs hl hc
  exact ⟨perm, fill, hrender, hperm, hsorted⟩

end

/-- Three rows of characters. The key has neither the first letter of the first row nor that of the
last, so these two rows stay in order. -/
def threeRows : Grid Item := ⟨[3, 2], chars ['x', 'a', 'b', 'a', 'y', 'a'], none⟩

/-- A key of two rows, in which both letters stand twice. -/
def twoRows : Grid Item := ⟨[2, 2], chars ['b', 'a', 'a', 'b'], none⟩

open scoped Usual in
theorem threeRows_grade_sorts_by_key : ∃ (perm : List Int) (fill : Option Item),
    (view ((array threeRows).grade (some (array twoRows)) true (.int 1))).render =
        .ok (.array ⟨[3], perm.map fun i => int (i + 1), fill⟩) ∧
      perm.Perm (upTo 3) ∧ perm.Pairwise
        (PlacedBefore true (places ['b', 'a', 'a', 'b'] [2] ['x', 'a', 'b', 'a', 'y', 'a'])) := by
  have proper : Shape.IsProper [3, 2] := by
    simp [Shape.IsProper]
  have kept : threeRows.IsKept :=
    ⟨rfl, fun x hx => (isValue_of_mem_chars hx).isKept⟩
  have cells : (view (array threeRows).based).items = .ok (chars ['x', 'a', 'b', 'a', 'y', 'a']) :=
    items_of_isKept kept
  have typed : threeRows.etype.kind = .char := etype_chars (by simp) _ _
  exact (grade_sorts_by_key (array threeRows) (array twoRows) true 1 proper rfl cells rfl rfl
    rfl).1 (.inl typed)

def numberAndLetters : Grid Item := ⟨[3], [int 1, text "a", text "b"], none⟩

/-- The two letters, of the element type of all three. -/
def behindNumber : View Item := (View.ofGrid numberAndLetters).under (.cut .drop true [1] none)

open scoped Usual in
/-- Two letters are refused if they are what is left of an array with a number in it. -/
theorem behindNumber_refused_by_key :
    drop (array numberAndLetters) (int 1) none (.int 0) = .ok behindNumber ∧
      behindNumber.shape = .ok (.ofShape [2]) ∧
      (view behindNumber).items = .ok (chars ['a', 'b']) ∧
      (view (text "ba").lift).render = .ok (array ⟨[2], chars ['b', 'a'], some blank⟩) ∧
      (view ((view behindNumber).grade (some (text "ba")) false (.int 0))).render =
        .error (.domain .keyedGrade) := by
  have proper : Shape.IsProper [2] := by
    simp [Shape.IsProper]
  have cells : (view (view behindNumber).based).items = .ok (chars ['a', 'b']) := rfl
  have mixed : (view behindNumber).based.etype = .ok EType.mixed := rfl
  refine ⟨rfl, rfl, cells, rfl, ?_⟩
  exact render_grade_refused proper rfl cells mixed (by decide) (by simp) false 0

end Item
end LazyApl
