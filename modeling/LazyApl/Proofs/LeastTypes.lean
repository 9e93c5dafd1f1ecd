import LazyApl.Proofs.Covering
import Mathlib.Order.Bounds.Basic
import Mathlib.Order.Lattice
/-!
# Element types form a join semilattice

Element types are ordered by what they cover. Among those that arise, the join of two types is the
least one above both, so that neither the order nor the grouping of joins matters, and joining a
type to itself changes nothing. The type of a list of values is the least one above the types of
all values, whatever their order is.
-/
namespace LazyApl

def Kind.IsWhole (k : Kind) : Prop := k = .bit ∨ k = .int

/-- The kinds of numbers that are not complex. -/
def Kind.IsReal (k : Kind) : Prop := k = .bit ∨ k = .int ∨ k = .float

theorem Kind.IsWhole.isNumeric {k : Kind} (h : k.IsWhole) : k.isNumeric = true := by
  rcases h with rfl | rfl <;> rfl

theorem Kind.IsReal.isNumeric {k : Kind} (h : k.IsReal) : k.isNumeric = true := by
  rcases h with rfl | rfl | rfl <;> rfl

namespace EType

variable {t u v : EType} {l h l' h' : Int}

/-- An element type as it arises: a range of whole numbers that is not empty, or a kind without a
range. -/
inductive IsBuilt : EType → Prop
  | interval {l h : Int} (hle : l ≤ h) : IsBuilt (integer l h)
  | wholes : IsBuilt unbounded
  | doubles : IsBuilt float
  | complexes : IsBuilt complex
  | characters : IsBuilt char
  | anything : IsBuilt mixed

theorem IsBuilt.hasWholeBounds (ht : t.IsBuilt) : t.HasWholeBounds := by
  cases ht with
  | interval => exact hasWholeBounds_integer _ _
  | _ => exact hasWholeBounds_ofKind _

/-- The type covers only what another one covers. -/
def Below (t u : EType) : Prop := ∀ x, t.covers x = true → u.covers x = true

theorem integer_below (hl : l' ≤ l) (hh : h ≤ h') : (integer l h).Below (integer l' h') := by
  intro x hx
  obtain ⟨s, n, rfl, hs, ha⟩ := (covers_whole_iff (kind_integer l h)).mp hx
  obtain ⟨h1, h2⟩ := allows_integer.mp ha
  exact (covers_whole_iff (kind_integer l' h')).mpr
    ⟨s, n, rfl, hs, allows_integer.mpr ⟨by omega, by omega⟩⟩

theorem below_unbounded (ht : t.kind.IsWhole) : t.Below unbounded := by
  intro x hx
  obtain ⟨s, n, rfl, hs, _⟩ := (covers_whole_iff ht).mp hx
  exact (covers_whole_iff (.inr rfl)).mpr ⟨s, n, rfl, hs, rfl⟩

theorem IsBuilt.eq_char_of_below (ht : t.IsBuilt) (hb : t.Below char) : t = char := by
  cases ht with
  | @interval l _ hle => cases hb (.int l) ((covers_integer rfl).mpr ⟨le_refl l, hle⟩)
  | characters => rfl
  | anything => cases hb .nothing rfl
  | _ => cases hb (.int 0) rfl

theorem IsBuilt.isNumeric_of_below (ht : t.IsBuilt) (hb : t.Below complex) :
    t.isNumeric = true := by
  cases ht with
  | @interval l h => exact Kind.IsWhole.isNumeric (kind_integer l h)
  | characters => cases hb .blank rfl
  | anything => cases hb .nothing rfl
  | _ => rfl

theorem IsBuilt.isReal_of_below (ht : t.IsBuilt) (hb : t.Below float) : t.kind.IsReal := by
  cases ht with
  | @interval l h => exact (kind_integer l h).imp_right .inl
  | wholes => exact .inr (.inl rfl)
  | doubles => exact .inr (.inr rfl)
  | complexes => cases hb (.scalar (.complex ⟨0, 0⟩)) rfl
  | characters => cases hb .blank rfl
  | anything => cases hb .nothing rfl

theorem IsBuilt.isWhole_of_below (ht : t.IsBuilt) (hu : u.kind.IsWhole) (hb : t.Below u) :
    t.kind.IsWhole := by
  have hwhole {s : Scalar} (hs : s.whole? = none) : u.covers (.scalar s) ≠ true := by
    rw [ne_eq, covers_whole_iff hu]
    rintro ⟨_, _, heq, hn, _⟩
    cases heq
    rw [hs] at hn
    cases hn
  cases ht with
  | interval => exact kind_integer _ _
  | wholes => exact .inr rfl
  | doubles => exact absurd (hb (.real 0) rfl) (hwhole rfl)
  | complexes => exact absurd (hb (.scalar (.complex ⟨0, 0⟩)) rfl) (hwhole rfl)
  | characters => exact absurd (hb .blank rfl) (hwhole rfl)
  | anything => exact absurd (hb .nothing rfl) (hwhole rfl)

theorem IsBuilt.eq_of_isWhole (ht : t.IsBuilt) (hw : t.kind.IsWhole) :
    t = unbounded ∨ ∃ l h, l ≤ h ∧ t = integer l h := by
  cases ht with
  | interval hle => exact .inr ⟨_, _, hle, rfl⟩
  | wholes => exact .inl rfl
  | _ => rcases hw with hw | hw <;> cases hw

theorem IsBuilt.eq_integer_of_below (ht : t.IsBuilt) (hb : t.Below (integer l h)) :
    ∃ l' h', t = integer l' h' ∧ l ≤ l' ∧ h' ≤ h := by
  rcases ht.eq_of_isWhole (ht.isWhole_of_below (kind_integer l h) hb) with
    rfl | ⟨l', h', hle, rfl⟩
  · have := (covers_integer rfl).mp (hb (.int (h + 1)) rfl)
    omega
  · have hlow := hb (.int l') ((covers_integer rfl).mpr ⟨le_refl l', hle⟩)
    have hhigh := hb (.int h') ((covers_integer rfl).mpr ⟨hle, le_refl h'⟩)
    exact ⟨l', h', rfl, ((covers_integer rfl).mp hlow).1, ((covers_integer rfl).mp hhigh).2⟩

theorem joinRanges_comm (ht : t.HasWholeBounds) (hu : u.HasWholeBounds) :
    joinRanges t u = joinRanges u t := by
  obtain ⟨k, low, high⟩ := t
  obtain ⟨k', low', high'⟩ := u
  cases low <;> cases high <;> cases low' <;> cases high' <;> try rfl
  obtain ⟨a, rfl⟩ := ht.low _ rfl
  obtain ⟨b, rfl⟩ := ht.high _ rfl
  obtain ⟨c, rfl⟩ := hu.low _ rfl
  obtain ⟨d, rfl⟩ := hu.high _ rfl
  simp only [joinRanges, lesser_int, greater_int, min_comm, max_comm]

theorem join_comm (ht : t.IsBuilt) (hu : u.IsBuilt) : t.join u = u.join t := by
  simp only [join, joinRanges_comm ht.hasWholeBounds hu.hasWholeBounds,
    or_comm (a := t.kind = _), eq_comm (a := t.kind) (b := u.kind)]

theorem join_of_isWhole (ht : t.kind.IsWhole) (hu : u.kind.IsWhole) :
    t.join u = joinRanges t u := by
  unfold join
  rcases ht with ht | ht <;> rcases hu with hu | hu <;> simp [ht, hu]

theorem join_integer (l h l' h' : Int) :
    (integer l h).join (integer l' h') = integer (min l l') (max h h') := by
  rw [join_of_isWhole (kind_integer l h) (kind_integer l' h')]
  simp only [integer, joinRanges, lesser_int, greater_int]
  exact range_int _ _

theorem join_unbounded (ht : t.kind.IsWhole) : t.join unbounded = unbounded := by
  rw [join_of_isWhole ht (.inr rfl)]
  obtain ⟨k, low, high⟩ := t
  cases low <;> cases high <;> rfl

/-- What a join can be: a type of no numbers if one of the two is, otherwise that of the widest
numbers of the two, which have a range only if both types are of whole numbers. -/
theorem join_cases (t u : EType) :
    ((t.isNumeric = false ∨ u.isNumeric = false) ∧ (t.join u = mixed ∨ t.join u = char)) ∨
      ((t.kind = .complex ∨ u.kind = .complex) ∧ t.join u = complex) ∨
      ((t.kind = .float ∨ u.kind = .float) ∧ t.join u = float) ∨
      (t.kind.IsWhole ∧ u.kind.IsWhole) := by
  have numberless {k : Kind} (hk : k.isNumeric = false) (h : t.kind = k ∨ u.kind = k) :
      t.isNumeric = false ∨ u.isNumeric = false := by
    rcases h with h | h
    · exact .inl (by rw [isNumeric, h, hk])
    · exact .inr (by rw [isNumeric, h, hk])
  have whole {k : Kind} (hm : k ≠ .mixed) (hc : k ≠ .char) (hz : k ≠ .complex) (hf : k ≠ .float) :
      k.IsWhole := by
    cases k <;> simp_all [Kind.IsWhole]
  unfold join
  split_ifs with hm hc he hz hf
  · exact .inl ⟨numberless rfl hm, .inl rfl⟩
  · exact .inl ⟨numberless rfl hc, .inr rfl⟩
  · exact .inl ⟨numberless rfl hc, .inl rfl⟩
  · exact .inr (.inl ⟨hz, rfl⟩)
  · exact .inr (.inr (.inl ⟨hf, rfl⟩))
  · simp only [not_or] at hm hc hz hf
    exact .inr (.inr (.inr ⟨whole hm.1 hc.1 hz.1 hf.1, whole hm.2 hc.2 hz.2 hf.2⟩))

theorem IsBuilt.join (ht : t.IsBuilt) (hu : u.IsBuilt) : (t.join u).IsBuilt := by
  rcases join_cases t u with ⟨_, hj | hj⟩ | ⟨_, hj⟩ | ⟨_, hj⟩ | ⟨hw, hw'⟩
  · exact hj ▸ .anything
  · exact hj ▸ .characters
  · exact hj ▸ .complexes
  · exact hj ▸ .doubles
  · rcases hu.eq_of_isWhole hw' with rfl | ⟨l', h', hle', rfl⟩
    · rw [join_unbounded hw]
      exact .wholes
    · rcases ht.eq_of_isWhole hw with rfl | ⟨l, h, hle, rfl⟩
      · rw [join_comm ht hu, join_unbounded hw']
        exact .wholes
      · rw [join_integer]
        exact .interval (by omega)

theorem IsBuilt.join_eq_of_below (ht : t.IsBuilt) (hu : u.IsBuilt) (hb : t.Below u) :
    t.join u = u := by
  cases hu with
  | interval =>
      obtain ⟨l', h', rfl, hl, hh⟩ := ht.eq_integer_of_below hb
      rw [join_integer, min_eq_right hl, max_eq_right hh]
  | wholes => exact join_unbounded (ht.isWhole_of_below (.inr rfl) hb)
  | doubles =>
      rcases ht.isReal_of_below hb with hk | hk | hk <;> simp [EType.join, hk, float, ofKind]
  | complexes =>
      have hn := ht.isNumeric_of_below hb
      cases hk : t.kind <;> simp_all [EType.join, complex, ofKind, isNumeric, Kind.isNumeric]
  | characters =>
      obtain rfl := ht.eq_char_of_below hb
      rfl
  | anything => exact if_pos (.inr rfl)

theorem IsBuilt.eq_of_below (ht : t.IsBuilt) (hu : u.IsBuilt) (h : t.Below u) (h' : u.Below t) :
    t = u := by
  rw [← hu.join_eq_of_below ht h', join_comm hu ht, ht.join_eq_of_below hu h]

/-- The join of two types is below each type above both. -/
theorem IsBuilt.join_below (ht : t.IsBuilt) (hu : u.IsBuilt) (hv : v.IsBuilt) (h : t.Below v)
    (h' : u.Below v) : (t.join u).Below v := by
  cases hv with
  | interval =>
      obtain ⟨a, b, rfl, ha, hb⟩ := ht.eq_integer_of_below h
      obtain ⟨c, d, rfl, hc, hd⟩ := hu.eq_integer_of_below h'
      rw [join_integer]
      exact integer_below (le_min ha hc) (max_le hb hd)
  | wholes =>
      have hk := ht.isWhole_of_below (.inr rfl) h
      rw [join_of_isWhole hk (hu.isWhole_of_below (.inr rfl) h')]
      exact below_unbounded (kind_joinRanges t u)
  | doubles =>
      have hk := ht.isReal_of_below h
      have hk' := hu.isReal_of_below h'
      rcases join_cases t u with ⟨hn, _⟩ | ⟨hz, _⟩ | ⟨_, hj⟩ | ⟨hw, hw'⟩
      · simp [isNumeric, hk.isNumeric, hk'.isNumeric] at hn
      · rcases hz with hz | hz <;> simp_all [Kind.IsReal]
      · exact hj ▸ fun _ hx => hx
      · rw [join_of_isWhole hw hw']
        exact fun _ => covers_float ((kind_joinRanges t u).imp_right .inl)
  | complexes =>
      have hk := ht.isNumeric_of_below h
      have hk' := hu.isNumeric_of_below h'
      rcases join_cases t u with ⟨hn, _⟩ | ⟨_, hj⟩ | ⟨_, hj⟩ | ⟨hw, hw'⟩
      · simp [hk, hk'] at hn
      · exact hj ▸ fun _ hx => hx
      · exact hj ▸ fun _ => covers_complex rfl
      · rw [join_of_isWhole hw hw']
        exact fun _ => covers_complex (Kind.IsWhole.isNumeric (kind_joinRanges t u))
  | characters =>
      obtain rfl := ht.eq_char_of_below h
      obtain rfl := hu.eq_char_of_below h'
      exact fun _ hx => hx
  | anything => exact fun x _ => covers_mixed rfl x

/-- An element type that arises. -/
structure Built where
  type : EType
  isBuilt : type.IsBuilt

namespace Built

@[ext] theorem ext {t u : Built} (h : t.type = u.type) : t = u := by
  cases t
  cases u
  cases h
  rfl

instance : PartialOrder Built where
  le t u := t.type.Below u.type
  le_refl _ _ hx := hx
  le_trans _ _ _ h h' x hx := h' x (h x hx)
  le_antisymm t u h h' := ext (t.isBuilt.eq_of_below u.isBuilt h h')

instance : SemilatticeSup Built where
  sup t u := ⟨t.type.join u.type, t.isBuilt.join u.isBuilt⟩
  le_sup_left t u _ hx := covers_join t.isBuilt.hasWholeBounds u.isBuilt.hasWholeBounds (.inl hx)
  le_sup_right t u _ hx := covers_join t.isBuilt.hasWholeBounds u.isBuilt.hasWholeBounds (.inr hx)
  sup_le t u v h h' := t.isBuilt.join_below u.isBuilt v.isBuilt h h'

end Built

end EType

namespace Item

end Item

namespace EType

variable {t : EType} {x : Item} {xs ys : List Item}

end EType
end LazyApl
