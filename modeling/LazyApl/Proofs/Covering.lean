import LazyApl.Proofs.Keeping
/-!
# What an element type covers

An element type says which items the cells of an array can hold. The type of a value covers the
value, and the join of two types covers what each of them covers, provided that the bounds which
they state are whole numbers. A type that covers an item covers the fill made from it as soon as it
covers any fill at all, since it then allows for zero or for the blank.
-/
namespace LazyApl

namespace Scalar

def isCharacter : Scalar → Bool
  | text s => s.length == 1
  | _ => false

/-- A number that is not complex; a truth value counts as one. -/
def isReal : Scalar → Bool
  | int _ | truth _ | real _ => true
  | _ => false

end Scalar

namespace EType

/-- The whole number lies within the bounds that are given. -/
def allows (t : EType) (n : Int) : Bool :=
  t.low.all (atMost · (.int n)) && t.high.all (atMost (.int n))

/-- The type stands for the item, in the form in which an array at hand stores it. -/
def covers (t : EType) : Item → Bool
  | .scalar s =>
    match t.kind with
    | .mixed => true
    | .char => s.isCharacter
    | .bit | .int => s.whole?.any t.allows
    | .float => s.isReal
    | .complex => s.number?.isSome
  | _ => t.kind == .mixed

/-- Bounds that are given are whole numbers. -/
structure HasWholeBounds (t : EType) : Prop where
  low : ∀ s ∈ t.low, ∃ n, s = .int n
  high : ∀ s ∈ t.high, ∃ n, s = .int n

theorem hasWholeBounds_ofKind (k : Kind) : (ofKind k).HasWholeBounds := ⟨nofun, nofun⟩

theorem hasWholeBounds_integer (l h : Int) : (integer l h).HasWholeBounds := by
  refine ⟨fun s hs => ?_, fun s hs => ?_⟩
  · obtain rfl := Option.some.inj hs
    exact ⟨l, rfl⟩
  · obtain rfl := Option.some.inj hs
    exact ⟨h, rfl⟩

variable {t u : EType} {x : Item}

theorem covers_mixed (h : t.kind = .mixed) (x : Item) : t.covers x = true := by
  cases x <;> simp [covers, h]

theorem exists_scalar_of_covers (h : t.kind ≠ .mixed) (hx : t.covers x = true) :
    ∃ s, x = .scalar s := by
  cases x with
  | scalar s => exact ⟨s, rfl⟩
  | _ => exact absurd (by simpa [covers] using hx) h

theorem covers_char (h : t.kind = .char) (hx : t.covers x = true) : char.covers x = true := by
  obtain ⟨s, rfl⟩ := exists_scalar_of_covers (by simp [h]) hx
  simpa [covers, h, char, ofKind] using hx

theorem covers_whole_iff (h : t.kind = .bit ∨ t.kind = .int) :
    t.covers x = true ↔ ∃ s n, x = .scalar s ∧ s.whole? = some n ∧ t.allows n = true := by
  cases x with
  | scalar s => rcases h with h | h <;> simp [covers, h, Option.any_eq_true]
  | _ => rcases h with h | h <;> simp [covers, h]

theorem covers_float (h : t.kind = .bit ∨ t.kind = .int ∨ t.kind = .float)
    (hx : t.covers x = true) : float.covers x = true := by
  by_cases hf : t.kind = .float
  · obtain ⟨s, rfl⟩ := exists_scalar_of_covers (by simp [hf]) hx
    simpa [covers, hf, float, ofKind] using hx
  · have hw : t.kind = .bit ∨ t.kind = .int := by tauto
    obtain ⟨s, n, rfl, hs, _⟩ := (covers_whole_iff hw).mp hx
    cases s with
    | int n => rfl
    | truth b => rfl
    | _ => cases hs

theorem covers_complex (h : t.isNumeric = true) (hx : t.covers x = true) :
    complex.covers x = true := by
  by_cases hc : t.kind = .complex
  · obtain ⟨s, rfl⟩ := exists_scalar_of_covers (by simp [hc]) hx
    simpa [covers, hc, complex, ofKind] using hx
  · have hf : t.kind = .bit ∨ t.kind = .int ∨ t.kind = .float := by
      cases hk : t.kind <;> simp_all [isNumeric, Kind.isNumeric]
    have hx := covers_float hf hx
    obtain ⟨s, rfl⟩ := exists_scalar_of_covers (t := float) (by simp [float, ofKind]) hx
    cases s with
    | nothing => cases hx
    | text c => cases hx
    | _ => rfl

theorem allows_integer {l h n : Int} : (integer l h).allows n = true ↔ l ≤ n ∧ n ≤ h := by
  simp [allows, integer, atMost]

theorem covers_integer {l h n : Int} {s : Scalar} (hs : s.whole? = some n) :
    (integer l h).covers (.scalar s) = true ↔ l ≤ n ∧ n ≤ h := by
  rw [covers_whole_iff (kind_integer l h)]
  constructor
  · rintro ⟨_, _, heq, hn, ha⟩
    cases heq
    obtain rfl := Option.some.inj (hs.symm.trans hn)
    exact allows_integer.mp ha
  · intro ha
    exact ⟨s, n, rfl, hs, allows_integer.mpr ha⟩

/-- The covering range covers both ranges. -/
theorem allows_joinRanges (ht : t.HasWholeBounds) (hu : u.HasWholeBounds) {n : Int}
    (h : t.allows n = true ∨ u.allows n = true) : (joinRanges t u).allows n = true := by
  obtain ⟨k, l, r⟩ := t
  obtain ⟨k', l', r'⟩ := u
  cases l with
  | none => rfl
  | some l =>
      cases r with
      | none => rfl
      | some r =>
          cases l' with
          | none => rfl
          | some l' =>
              cases r' with
              | none => rfl
              | some r' =>
                  obtain ⟨a, rfl⟩ := ht.low l rfl
                  obtain ⟨b, rfl⟩ := ht.high r rfl
                  obtain ⟨c, rfl⟩ := hu.low l' rfl
                  obtain ⟨d, rfl⟩ := hu.high r' rfl
                  simp only [joinRanges, lesser_int, greater_int, range_int, allows_integer]
                  simp only [allows, atMost, Option.all_some, Bool.and_eq_true,
                    decide_eq_true_eq] at h
                  omega

theorem kind_joinRanges (t u : EType) :
    (joinRanges t u).kind = .bit ∨ (joinRanges t u).kind = .int := by
  unfold joinRanges range
  split
  · dsimp only
    split
    · exact .inl rfl
    · exact .inr rfl
  · exact .inr rfl

theorem hasWholeBounds_joinRanges (ht : t.HasWholeBounds) (hu : u.HasWholeBounds) :
    (joinRanges t u).HasWholeBounds := by
  unfold joinRanges
  split
  · obtain ⟨a, rfl⟩ := ht.low _ rfl
    obtain ⟨b, rfl⟩ := ht.high _ rfl
    obtain ⟨c, rfl⟩ := hu.low _ rfl
    obtain ⟨d, rfl⟩ := hu.high _ rfl
    rw [lesser_int, greater_int, range_int]
    exact hasWholeBounds_integer _ _
  · exact hasWholeBounds_ofKind .int

theorem HasWholeBounds.join (ht : t.HasWholeBounds) (hu : u.HasWholeBounds) :
    (t.join u).HasWholeBounds := by
  unfold EType.join
  split_ifs
  · exact hasWholeBounds_ofKind .mixed
  · exact hasWholeBounds_ofKind .char
  · exact hasWholeBounds_ofKind .mixed
  · exact hasWholeBounds_ofKind .complex
  · exact hasWholeBounds_ofKind .float
  · exact hasWholeBounds_joinRanges ht hu

/-- The join of two types covers what one of them covers. -/
theorem covers_join (ht : t.HasWholeBounds) (hu : u.HasWholeBounds)
    (h : t.covers x = true ∨ u.covers x = true) : (t.join u).covers x = true := by
  unfold join
  split_ifs with hm hc he hz hf
  · exact covers_mixed rfl x
  · have hchar : t.kind = .char ∧ u.kind = .char := by
      rcases hc with hc | hc
      · exact ⟨hc, he ▸ hc⟩
      · exact ⟨he ▸ hc, hc⟩
    rcases h with h | h
    · exact covers_char hchar.1 h
    · exact covers_char hchar.2 h
  · exact covers_mixed rfl x
  · have numeric {v : EType} (hv : v = t ∨ v = u) : v.isNumeric = true := by
      have hm' : v.kind ≠ .mixed ∧ v.kind ≠ .char := by
        rcases hv with rfl | rfl <;> tauto
      cases hk : v.kind <;> simp_all [isNumeric, Kind.isNumeric]
    rcases h with h | h
    · exact covers_complex (numeric (.inl rfl)) h
    · exact covers_complex (numeric (.inr rfl)) h
  · have real {v : EType} (hv : v = t ∨ v = u) :
        v.kind = .bit ∨ v.kind = .int ∨ v.kind = .float := by
      have hn : v.kind ≠ .mixed ∧ v.kind ≠ .char ∧ v.kind ≠ .complex := by
        rcases hv with rfl | rfl <;> tauto
      cases hk : v.kind <;> simp_all
    rcases h with h | h
    · exact covers_float (real (.inl rfl)) h
    · exact covers_float (real (.inr rfl)) h
  · have whole {v : EType} (hv : v = t ∨ v = u) : v.kind = .bit ∨ v.kind = .int := by
      have hn : v.kind ≠ .mixed ∧ v.kind ≠ .char ∧ v.kind ≠ .complex ∧ v.kind ≠ .float := by
        rcases hv with rfl | rfl <;> tauto
      cases hk : v.kind <;> simp_all
    rw [covers_whole_iff (kind_joinRanges t u)]
    rcases h with h | h
    · obtain ⟨s, n, hx, hs, ha⟩ := (covers_whole_iff (whole (.inl rfl))).mp h
      exact ⟨s, n, hx, hs, allows_joinRanges ht hu (.inl ha)⟩
    · obtain ⟨s, n, hx, hs, ha⟩ := (covers_whole_iff (whole (.inr rfl))).mp h
      exact ⟨s, n, hx, hs, allows_joinRanges ht hu (.inr ha)⟩

theorem covers_foldl_join {ts : List EType} (hs : ∀ t ∈ ts, t.HasWholeBounds) {a : EType}
    (ha : a.HasWholeBounds) :
    (ts.foldl join a).HasWholeBounds ∧
      (∀ x, a.covers x = true → (ts.foldl join a).covers x = true) ∧
      ∀ t ∈ ts, ∀ x, t.covers x = true → (ts.foldl join a).covers x = true := by
  induction ts generalizing a with
  | nil => exact ⟨ha, fun _ h => h, by simp⟩
  | cons t ts ih =>
      obtain ⟨ht, hs⟩ := List.forall_mem_cons.mp hs
      obtain ⟨hw, hacc, hall⟩ := ih hs (ha.join ht)
      refine ⟨hw, fun x hx => ?_, List.forall_mem_cons.mpr ⟨fun x hx => ?_, hall⟩⟩
      · exact hacc x (covers_join ha ht (.inl hx))
      · exact hacc x (covers_join ha ht (.inr hx))

/-- The join of a list of types covers what one of them covers. -/
theorem joinAll_spec {ts : List EType} (hs : ∀ t ∈ ts, t.HasWholeBounds) :
    ((joinAll ts).getD bit).HasWholeBounds ∧
      ∀ t ∈ ts, ∀ x, t.covers x = true → ((joinAll ts).getD bit).covers x = true := by
  cases ts with
  | nil => exact ⟨hasWholeBounds_integer 0 1, by simp⟩
  | cons t ts =>
      obtain ⟨ht, hs⟩ := List.forall_mem_cons.mp hs
      obtain ⟨hw, hacc, hall⟩ := covers_foldl_join hs ht
      rw [joinAll_cons, Option.getD_some]
      exact ⟨hw, List.forall_mem_cons.mpr ⟨hacc, hall⟩⟩

/-- Whole numbers are counted where the type says so, which changes nothing about being covered. -/
theorem covers_countedFor (h : t.covers x.stored = true) :
    t.covers (x.countedFor t.kind).stored = true := by
  unfold Item.countedFor
  split
  · rename_i hk
    cases x with
    | scalar s =>
        cases s with
        | truth b =>
            obtain ⟨_, n, hs, hn, ha⟩ := (covers_whole_iff hk).mp h
            cases hs
            cases hn
            exact (covers_whole_iff hk).mpr ⟨_, _, rfl, rfl, ha⟩
        | _ => exact h
    | _ => exact h
  · exact h

end EType

namespace Item

/-- The item is a fill: one that is made from an item. -/
def IsFill (p : Item) : Prop := ∃ x : Item, p = x.typify

theorem isFill_zero : (int 0).IsFill := ⟨int 0, rfl⟩

theorem isFill_typify (x : Item) : x.typify.IsFill := ⟨x, rfl⟩

theorem IsFill.settle_eq {p : Item} (h : p.IsFill) : p.settle = .ok p := by
  obtain ⟨x, rfl⟩ := h
  refine settle_of_ne_view fun v hv => ?_
  have hs := isSettled_typify x
  rw [hv] at hs
  cases hs

theorem hasWholeBounds_etype (x : Item) : x.etype.HasWholeBounds := by
  cases x with
  | scalar s =>
      cases s with
      | truth b => exact EType.hasWholeBounds_integer _ _
      | int n => exact EType.hasWholeBounds_integer _ _
      | _ => exact EType.hasWholeBounds_ofKind _
  | _ => exact EType.hasWholeBounds_ofKind .mixed

/-- The type of a whole number has it for both bounds. -/
theorem etype_of_whole? {s : Scalar} {n : Int} (h : s.whole? = some n) :
    (scalar s).etype = EType.integer n n := by
  cases s with
  | int m =>
      obtain rfl := Option.some.inj h
      rfl
  | truth b =>
      obtain rfl := Option.some.inj h
      rfl
  | _ => cases h

/-- The type of a value covers the value. -/
theorem covers_etype {x : Item} (h : x.IsSettled) : x.etype.covers x.stored = true := by
  have whole {s : Scalar} {n : Int} (hs : s.whole? = some n) :
      (scalar s).etype.covers (scalar s) = true := by
    rw [etype_of_whole? hs]
    exact (EType.covers_integer hs).mpr ⟨le_refl n, le_refl n⟩
  cases h with
  | @scalar s h =>
      rw [h.stored_eq]
      cases s with
      | nothing => rfl
      | truth b => exact whole rfl
      | int n => exact whole rfl
      | real x => rfl
      | complex z => rfl
      | text s =>
          have hl : s.length = 1 := by
            by_contra hn
            have hk := h.stored_eq
            simp only [stored, if_neg hn] at hk
            cases hk
          simpa [etype, Scalar.etype, EType.char, EType.covers, EType.ofKind,
            Scalar.isCharacter] using hl
  | _ => exact EType.covers_mixed rfl _

theorem IsFill.covers_etype {p : Item} (h : p.IsFill) : p.etype.covers p.stored = true := by
  obtain ⟨x, rfl⟩ := h
  exact Item.covers_etype (isSettled_typify x)

theorem typify_box (x : Item) (f : Option Item) :
    (array ⟨[], [x], f⟩).typify = array ⟨[], [x.typify.stored], none⟩ := by
  simp [typify, typifyAll]

theorem stored_box (x : Item) (f : Option Item) :
    (array ⟨[], [x], f⟩).stored = if x.isGrid then array ⟨[], [x], f⟩ else x := rfl

theorem stored_typify : ∀ x : Item,
    x.typify.stored = blank ∨ x.typify.stored = int 0 ∨ x.typify.stored.isGrid = true
  | scalar s => by
      cases s with
      | text t => exact .inl rfl
      | _ => exact .inr (.inl rfl)
  | list _ => .inr (.inl rfl)
  | view _ => .inr (.inl rfl)
  | array ⟨[], [y], f⟩ => by
      rw [typify_box, stored_box]
      split
      · exact .inr (.inr rfl)
      · rename_i hg
        rcases stored_typify y with h | h | h
        · exact .inl h
        · exact .inr (.inl h)
        · exact absurd h hg
  | array ⟨[], [], _⟩ => by simp [typify, typifyAll, stored, isGrid]
  | array ⟨[], _ :: _ :: _, _⟩ => by simp [typify, typifyAll, stored, isGrid]
  | array ⟨_ :: _, _, _⟩ => by simp [typify, stored, isGrid]

end Item

namespace EType

def CoversFill (t : EType) : Prop := ∃ p : Item, p.IsFill ∧ t.covers p.stored = true

variable {t : EType}

theorem CoversFill.zero (h : t.CoversFill) (hn : t.isNumeric = true) :
    t.covers (.int 0) = true := by
  obtain ⟨_, ⟨x, rfl⟩, hp⟩ := h
  have hz := covers_complex hn hp
  rcases Item.stored_typify x with hs | hs | hs
  · rw [hs] at hz
    cases hz
  · exact hs ▸ hp
  · cases hx : x.typify.stored with
    | array g =>
        rw [hx] at hz
        cases hz
    | _ =>
        rw [hx] at hs
        cases hs

theorem covers_typify_scalar {s : Scalar} (h : t.covers (.scalar s) = true)
    (h0 : t.isNumeric = true → t.covers (.int 0) = true) :
    t.covers (Item.scalar s).typify = true := by
  cases hk : t.kind with
  | mixed => exact covers_mixed hk _
  | char =>
      have hc := covers_char hk h
      cases s with
      | text c =>
          simp only [Item.typify, covers, hk]
          rfl
      | _ => cases hc
  | _ =>
      have hn : t.isNumeric = true := by simp [isNumeric, hk, Kind.isNumeric]
      have hz := covers_complex hn h
      cases s with
      | text c => cases hz
      | nothing => cases hz
      | _ => exact h0 hn

/-- A type that covers some fill and an item covers the fill made from the item. -/
theorem CoversFill.covers_typify (hf : t.CoversFill) {y : Item} (h : t.covers y.stored = true) :
    t.covers y.typify.stored = true := by
  by_cases hm : t.kind = .mixed
  · exact covers_mixed hm _
  obtain ⟨s, hs⟩ := exists_scalar_of_covers hm h
  have hfill : t.covers (Item.scalar s).typify = true :=
    covers_typify_scalar (hs ▸ h) hf.zero
  have hstored : (Item.scalar s).typify.stored = (Item.scalar s).typify := by
    cases s <;> rfl
  -- the item is a simple value, perhaps in a box, and so is its fill
  cases y with
  | scalar c =>
      cases c with
      | text w =>
          simp only [Item.stored] at hs
          split at hs
          · cases hs
            exact hfill
          · cases hs
      | _ =>
          cases hs
          exact hfill
  | list xs => cases hs
  | view v => cases hs
  | array g =>
      obtain ⟨sh, xs, f⟩ := g
      simp only [Item.stored] at hs
      split at hs
      · rename_i x
        split at hs
        · cases hs
        · subst hs
          have hg : (Item.scalar s).typify.isGrid = false := by
            cases s <;> rfl
          have hbox : (Item.array ⟨[], [.scalar s], f⟩).typify.stored =
              (Item.scalar s).typify := by
            rw [Item.typify_box, hstored, Item.stored_box, hg]
            rfl
          exact hbox ▸ hfill
      · cases hs

end EType
end LazyApl
