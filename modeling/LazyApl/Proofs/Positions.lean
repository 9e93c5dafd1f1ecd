import LazyApl.Shape
import Mathlib.Data.List.Forall2
import Mathlib.Tactic.Linarith
import Mathlib.Tactic.Ring
/-!
# Positions and coordinates name the same cells

The cells of an array of non-negative extents have two names. Every position below the size has
coordinates within the extents, every such list of coordinates has a position below the size, and
going from one name to the other and back changes nothing. An array with an empty axis has no cell
and therefore no name of either kind.
-/
namespace LazyApl.Shape

/-- Extents count cells, so none of them is negative. -/
def IsProper (s : Shape) : Prop := ∀ n ∈ s, 0 ≤ n

/-- The linear positions of the cells of an array. -/
def Holds (s : Shape) (i : Int) : Prop := 0 ≤ i ∧ i < size s

instance (s : Shape) (i : Int) : Decidable (Holds s i) :=
  inferInstanceAs (Decidable (0 ≤ i ∧ i < size s))

theorem Holds.of_size {s t : Shape} {i : Int} (h : t.Holds i) (hsize : s.size = t.size) :
    s.Holds i := by
  unfold Holds
  rwa [hsize]

/-- One coordinate along every axis, each within the extent of its axis. -/
def Within (s : Shape) (c : List Int) : Prop := List.Forall₂ (fun n x => 0 ≤ x ∧ x < n) s c

instance (s : Shape) (c : List Int) : Decidable (Within s c) :=
  inferInstanceAs (Decidable (List.Forall₂ _ s c))

theorem isProper_nil : IsProper [] := by
  simp [IsProper]

theorem isProper_cons {n : Int} {s : Shape} : IsProper (n :: s) ↔ 0 ≤ n ∧ IsProper s := by
  simp [IsProper]

theorem IsProper.set {s : Shape} (h : IsProper s) {n : Int} (hn : 0 ≤ n) (k : Nat) :
    IsProper (s.set k n) := by
  intro m hm
  rcases List.mem_or_eq_of_mem_set hm with hm | rfl
  · exact h m hm
  · exact hn

theorem IsProper.append {s t : Shape} (hs : IsProper s) (ht : IsProper t) : IsProper (s ++ t) := by
  intro n hn
  rcases List.mem_append.mp hn with hn | hn
  · exact hs n hn
  · exact ht n hn

theorem isProper_ones {α : Type} (xs : List α) : IsProper (xs.map fun _ => 1) := by
  intro n hn
  obtain ⟨_, _, rfl⟩ := List.mem_map.mp hn
  exact Int.one_nonneg

theorem size_ones {α : Type} (xs : List α) : size (xs.map fun _ => 1) = 1 := by
  induction xs with
  | nil => rfl
  | cons x xs ih => rw [List.map_cons, size_cons, ih, Int.one_mul]

theorem size_eq_zero {s : Shape} : size s = 0 ↔ 0 ∈ s := by
  induction s with
  | nil => simp
  | cons n s ih => rw [size_cons, Int.mul_eq_zero, ih, List.mem_cons, eq_comm]

theorem size_nonneg {s : Shape} (h : IsProper s) : 0 ≤ size s := by
  induction s with
  | nil => simp
  | cons n s ih =>
      rw [isProper_cons] at h
      exact Int.mul_nonneg h.1 (ih h.2)

@[simp] theorem within_nil : Within [] [] := .nil

theorem within_cons {n x : Int} {s : Shape} {c : List Int} :
    Within (n :: s) (x :: c) ↔ (0 ≤ x ∧ x < n) ∧ Within s c :=
  List.forall₂_cons

theorem Within.length_eq {s : Shape} {c : List Int} (h : Within s c) : c.length = s.length :=
  (List.Forall₂.length_eq h).symm

theorem Within.isProper {s : Shape} {c : List Int} (h : Within s c) : IsProper s := by
  induction h with
  | nil => exact isProper_nil
  | cons hx _ ih => exact isProper_cons.mpr ⟨by omega, ih⟩

theorem Within.extent_pos {s : Shape} {c : List Int} (h : Within s c) : ∀ n ∈ s, 0 < n := by
  induction h with
  | nil => simp
  | cons hx _ ih => exact List.forall_mem_cons.mpr ⟨by omega, ih⟩

theorem Within.getElem {s : Shape} {cs : List Int} (h : Within s cs) {k : Nat} {x n : Int}
    (hx : cs[k]? = some x) (hn : s[k]? = some n) : 0 ≤ x ∧ x < n := by
  induction h generalizing k with
  | nil => simp at hx
  | cons hb _ ih =>
      cases k with
      | zero =>
          simp only [List.getElem?_cons_zero, Option.some.injEq] at hx hn
          subst hx hn
          exact hb
      | succ k => exact ih (by simpa using hx) (by simpa using hn)

theorem Within.set {s : Shape} {c : List Int} (h : Within s c) {n x : Int} (k : Nat)
    (hx : 0 ≤ x ∧ x < n) : Within (s.set k n) (c.set k x) := by
  induction h generalizing k with
  | nil => exact within_nil
  | cons hb ht ih =>
      cases k with
      | zero => exact within_cons.mpr ⟨hx, ht⟩
      | succ k => exact within_cons.mpr ⟨hb, ih k⟩

theorem Within.set_self {s : Shape} {c : List Int} (h : Within s c) {n x : Int} {k : Nat}
    (hn : s[k]? = some n) (hx : 0 ≤ x ∧ x < n) : Within s (c.set k x) := by
  have hs : s.set k n = s := by
    obtain ⟨hk, rfl⟩ := List.getElem?_eq_some_iff.mp hn
    exact List.set_getElem_self hk
  simpa only [hs] using h.set k hx

theorem Within.eraseIdx {s : Shape} {c : List Int} (h : Within s c) (k : Nat) :
    Within (s.eraseIdx k) (c.eraseIdx k) := by
  induction h generalizing k with
  | nil => exact within_nil
  | cons hb ht ih =>
      cases k with
      | zero => exact ht
      | succ k => exact within_cons.mpr ⟨hb, ih k⟩

theorem Within.take {s : Shape} {c : List Int} (h : Within s c) (k : Nat) :
    Within (s.take k) (c.take k) :=
  List.forall₂_take k h

theorem Within.drop {s : Shape} {c : List Int} (h : Within s c) (k : Nat) :
    Within (s.drop k) (c.drop k) :=
  List.forall₂_drop k h

theorem Within.holds {s : Shape} {c : List Int} (h : Within s c) : Holds s (dot c (strides s)) := by
  induction h with
  | nil => simp [Holds, dot]
  | @cons n x s c hx hc ih =>
      have hs : 0 ≤ size s := size_nonneg (Within.isProper hc)
      simp only [Holds, dot, strides, size_cons] at ih ⊢
      constructor
      · nlinarith
      · nlinarith

theorem Holds.size_pos {s : Shape} {i : Int} (h : Holds s i) : 0 < size s := by
  unfold Holds at h
  omega

theorem extent_pos {s : Shape} (h : IsProper s) (hs : 0 < size s) : ∀ n ∈ s, 0 < n := by
  induction s with
  | nil => simp
  | cons n s ih =>
      rw [isProper_cons] at h
      rw [size_cons] at hs
      have hp : 0 < size s := by
        rcases (size_nonneg h.2).lt_or_eq with hp | hp
        · exact hp
        · rw [← hp] at hs
          omega
      have hn : 0 < n := by nlinarith
      simpa only [List.mem_cons, forall_eq_or_imp] using And.intro hn (ih h.2 hp)

theorem split_spec {s : Shape} (h : ∀ n ∈ s, 0 < n) (i : Int) :
    Within s (split s i).2 ∧ i = (split s i).1 * size s + dot (split s i).2 (strides s) := by
  induction s with
  | nil => simp [split, dot]
  | cons n s ih =>
      simp only [List.mem_cons, forall_eq_or_imp] at h
      obtain ⟨hw, hi⟩ := ih h.2
      have hn : n ≠ 0 := by omega
      have hm := Int.fmod_nonneg_of_pos (split s i).1 h.1
      have hl := Int.fmod_lt_of_pos (split s i).1 h.1
      have hd := Int.mul_fdiv_add_fmod (split s i).1 n
      simp only [split, hn, ite_false]
      refine ⟨within_cons.mpr ⟨⟨hm, hl⟩, hw⟩, ?_⟩
      simp only [dot, strides, size_cons]
      calc i = (split s i).1 * size s + dot (split s i).2 (strides s) := hi
        _ = (n * (split s i).1.fdiv n + (split s i).1.fmod n) * size s
              + dot (split s i).2 (strides s) := by rw [hd]
        _ = _ := by ring

theorem coordinates_within {s : Shape} {i : Int} (hs : IsProper s) (h : Holds s i) :
    Within s (coordinates s i) :=
  (split_spec (extent_pos hs h.size_pos) i).1

/-- Nothing is left over above the first axis when the position is that of a cell. -/
theorem dot_coordinates {s : Shape} {i : Int} (hs : IsProper s) (h : Holds s i) :
    dot (coordinates s i) (strides s) = i := by
  obtain ⟨hw, hi⟩ := split_spec (extent_pos hs h.size_pos) i
  have hb := Within.holds hw
  have hp := h.size_pos
  unfold Holds at h hb
  have hq : (split s i).1 = 0 := by
    rcases Int.lt_trichotomy (split s i).1 0 with hq | hq | hq
    · nlinarith
    · exact hq
    · nlinarith
  rw [hq] at hi
  unfold coordinates
  omega

/-- Two lists of coordinates with one position are the same. -/
theorem Within.dot_inj {s : Shape} {c d : List Int} (hc : Within s c) (hd : Within s d)
    (h : dot c (strides s) = dot d (strides s)) : c = d := by
  induction hc generalizing d with
  | nil =>
      cases hd
      rfl
  | @cons n x s c hx hc ih =>
      cases hd with
      | @cons _ y _ d hy hd =>
          have hb := Within.holds hc
          have hb' := Within.holds hd
          unfold Holds at hb hb'
          simp only [dot, strides] at h
          have he : x = y := by
            rcases Int.lt_trichotomy x y with hl | hl | hl
            · nlinarith
            · exact hl
            · nlinarith
          subst he
          rw [ih hd (by omega)]

theorem coordinates_dot {s : Shape} {c : List Int} (h : Within s c) :
    coordinates s (dot c (strides s)) = c :=
  Within.dot_inj (coordinates_within h.isProper h.holds) h
    (dot_coordinates h.isProper h.holds)

theorem horner_cons (s : Shape) (n acc x : Int) (c : List Int) (h : c.length = s.length) :
    horner acc (n :: s) (x :: c) = (acc + x) * size s + dot c (strides s) := by
  induction s generalizing n acc x c with
  | nil =>
      obtain rfl := List.length_eq_zero_iff.mp h
      simp [horner, dot]
  | cons m s ih =>
      cases c with
      | nil => simp at h
      | cons y c =>
          rw [horner, ih m _ y c (by simpa using h)]
          simp only [dot, strides, size_cons]
          ring

/-- Horner evaluation and the strides give coordinates the same position. -/
theorem position_eq_dot {s : Shape} {c : List Int} (h : c.length = s.length) :
    position s c = dot c (strides s) := by
  cases s with
  | nil => simp [position, horner, dot, strides]
  | cons n s =>
      cases c with
      | nil => simp at h
      | cons x c =>
          rw [position, horner_cons s n 0 x c (by simpa using h)]
          simp [dot, strides]

theorem position_coordinates {s : Shape} {i : Int} (hs : IsProper s) (h : Holds s i) :
    position s (coordinates s i) = i := by
  rw [position_eq_dot (length_coordinates s i), dot_coordinates hs h]

theorem coordinates_position {s : Shape} {c : List Int} (h : Within s c) :
    coordinates s (position s c) = c := by
  rw [position_eq_dot h.length_eq, coordinates_dot h]

theorem Within.holds_position {s : Shape} {c : List Int} (h : Within s c) :
    Holds s (position s c) := by
  rw [position_eq_dot h.length_eq]
  exact h.holds

/-- Positions below the size and coordinates within the extents name the same cells, and each name
gives the other one back. With the strides, the coordinates of a position come to the position,
too. -/
theorem positions_biject_coordinates {s : Shape} (hs : IsProper s) :
    (∀ i, Holds s i →
      Within s (coordinates s i) ∧ position s (coordinates s i) = i ∧
        dot (coordinates s i) (strides s) = i) ∧
      ∀ c, Within s c → Holds s (position s c) ∧ coordinates s (position s c) = c := by
  constructor
  · intro i hi
    exact ⟨coordinates_within hs hi, position_coordinates hs hi, dot_coordinates hs hi⟩
  · intro c hc
    exact ⟨hc.holds_position, coordinates_position hc⟩

/-- A number of seconds as hours, minutes and seconds. -/
theorem clock_biject_coordinates :
    Holds [24, 60, 60] 10000 ∧ coordinates [24, 60, 60] 10000 = [2, 46, 40] ∧
      position [24, 60, 60] [2, 46, 40] = 10000 := by
  have hs : IsProper [24, 60, 60] := by
    unfold IsProper
    decide
  have hi : Holds [24, 60, 60] 10000 := by decide
  have hc : coordinates [24, 60, 60] 10000 = [2, 46, 40] := by decide
  obtain ⟨_, hback, _⟩ := (positions_biject_coordinates hs).1 _ hi
  rw [hc] at hback
  exact ⟨hi, hc, hback⟩

theorem div_mod_place {k l n : Int} (hl : 0 ≤ l ∧ l < n) :
    (k * n + l) / n = k ∧ (k * n + l) % n = l := by
  have hn : n ≠ 0 := by omega
  rw [Int.add_comm, Int.add_mul_ediv_right _ _ hn, Int.ediv_eq_zero_of_lt hl.1 hl.2,
    Int.add_mul_emod_self_right, Int.emod_eq_of_lt hl.1 hl.2, Int.zero_add]
  exact ⟨rfl, rfl⟩

section

variable {s t : Shape} {c d : List Int} {i k : Int}

theorem dot_append_strides (hc : c.length = s.length) :
    dot (c ++ d) (s ++ t).strides = dot c s.strides * t.size + dot d t.strides := by
  induction s generalizing c with
  | nil =>
      obtain rfl := List.length_eq_zero_iff.mp hc
      simp [dot]
  | cons n s ih =>
      cases c with
      | nil => cases hc
      | cons x c =>
          have hrest := ih (Nat.succ.inj hc)
          simp only [List.cons_append, strides, dot, hrest, size_append]
          ring

theorem dot_coordinates_append (hs : s.IsProper) (ht : t.IsProper) (hk : s.Holds k)
    (hi : t.Holds i) :
    dot (s.coordinates k ++ t.coordinates i) (s ++ t).strides = k * t.size + i := by
  rw [dot_append_strides (coordinates_within hs hk).length_eq, dot_coordinates hs hk,
    dot_coordinates ht hi]

theorem Holds.append (hs : s.IsProper) (ht : t.IsProper) (hk : s.Holds k) (hi : t.Holds i) :
    (s ++ t).Holds (k * t.size + i) := by
  have hwithin : (s ++ t).Within (s.coordinates k ++ t.coordinates i) :=
    List.rel_append (coordinates_within hs hk) (coordinates_within ht hi)
  rw [← dot_coordinates_append hs ht hk hi]
  exact hwithin.holds

theorem exists_within_append (hs : s.IsProper) (ht : t.IsProper) (hi : Holds (s ++ t) i) :
    ∃ c d, s.Within c ∧ t.Within d ∧ i = dot (c ++ d) (strides (s ++ t)) := by
  have hw := coordinates_within (hs.append ht) hi
  have hleft := hw.take s.length
  have hright := hw.drop s.length
  rw [List.take_left] at hleft
  rw [List.drop_left] at hright
  refine ⟨_, _, hleft, hright, ?_⟩
  rw [List.take_append_drop, dot_coordinates (hs.append ht) hi]

theorem Holds.exists_append (hs : s.IsProper) (ht : t.IsProper) (h : (s ++ t).Holds i) :
    ∃ k j, s.Holds k ∧ t.Holds j ∧ i = k * t.size + j := by
  obtain ⟨c, d, hc, hd, hi⟩ := exists_within_append hs ht h
  exact ⟨_, _, hc.holds, hd.holds, hi.trans (dot_append_strides hc.length_eq)⟩

end

end LazyApl.Shape
