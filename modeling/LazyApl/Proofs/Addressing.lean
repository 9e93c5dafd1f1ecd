import LazyApl.Proofs.Gathers
/-!
# Which positions a selection names

A selection names a position of the array for each position of its own, and it may name one of them
more than once. The table that an assignment goes by is filled in the order of the selection, so it
keeps the last name of each position of the array and holds none for positions without a name.
-/
namespace LazyApl

open Outcome

namespace Selection

variable {o : Int} {y : Option IntArgument} {indices : List (Option IntArgument)} {u s : Shape}

theorem Takes.length_eq {c c' : List Int} {x x' : Int} (h : Takes o y c x)
    (h' : Takes o y c' x') : c.length = c'.length := by
  cases h with
  | whole x =>
      cases h' with
      | whole x' => rfl
  | listed hu _ hc _ =>
      cases h' with
      | listed hu' _ hc' _ =>
          have heq := Extents.ofShape_inj (Except.ok.inj (hu.symm.trans hu'))
          rw [hc.length_eq, hc'.length_eq, heq]

theorem Takes.unique {c : List Int} {x x' : Int} (h : Takes o y c x) (h' : Takes o y c x') :
    x = x' := by
  cases h with
  | whole x =>
      cases h' with
      | whole x' => rfl
  | listed hu hv _ hk =>
      cases h' with
      | listed hu' hv' _ hk' =>
          obtain rfl := Extents.ofShape_inj (Except.ok.inj (hu.symm.trans hu'))
          obtain rfl := Except.ok.inj (hv.symm.trans hv')
          rw [Option.some.inj (hk.symm.trans hk')]

/-- Coordinates in a selection address one cell only. -/
theorem Addresses.unique {c d d' : List Int} (h : Addresses o indices c d)
    (h' : Addresses o indices c d') : d = d' := by
  induction h generalizing d' with
  | nil =>
      cases h'
      rfl
  | @cons y ys own c d x htake _ ih =>
      generalize hc : own ++ c = cs at h'
      cases h' with
      | @cons _ _ own' c' d' x' htake' haddr' =>
          obtain ⟨rfl, rfl⟩ := List.append_inj hc (htake.length_eq htake')
          rw [htake.unique htake', ih haddr']

/-- The cell at a position of the selection is the one at a position of the array. -/
def Names (o : Int) (indices : List (Option IntArgument)) (u s : Shape) (j i : Int) : Prop :=
  Addresses o indices (u.coordinates j) (s.coordinates i)

theorem Names.unique (hs : s.IsProper) {j i i' : Int} (h : Names o indices u s j i)
    (h' : Names o indices u s j i') (hi : s.Holds i) (hi' : s.Holds i') : i = i' := by
  have heq := Addresses.unique h h'
  rw [← Shape.dot_coordinates hs hi, heq, Shape.dot_coordinates hs hi']

/-- The last position of the selection that names a position of the array. -/
structure IsLast (o : Int) (indices : List (Option IntArgument)) (u s : Shape) (j i : Int) :
    Prop where
  holds : u.Holds j
  names : Names o indices u s j i
  le : ∀ k, u.Holds k → Names o indices u s k i → k ≤ j

theorem IsLast.unique {j k i : Int} (h : IsLast o indices u s j i) (h' : IsLast o indices u s k i) :
    j = k :=
  Int.le_antisymm (h'.le j h.holds h.names) (h.le k h'.holds h'.names)

theorem find?_put {a i j : Int} {found : List (Number × Int)}
    (h : ∀ p ∈ found, ∃ b, p.1 = Number.int b) :
    find? (.int i) (put (.int a) j found) = if a = i then some j else find? (.int i) found := by
  induction found with
  | nil => simp [put, find?]
  | cons p found ih =>
      obtain ⟨⟨b, hb⟩, hrest⟩ := List.forall_mem_cons.mp h
      obtain ⟨k, v⟩ := p
      dsimp only at hb
      subst hb
      have ih := ih hrest
      by_cases hba : b = a
      · subst hba
        by_cases hbi : b = i <;> simp [put, find?, hbi]
      · by_cases hbi : b = i
        · subst hbi
          simp [put, find?, hba, Ne.symm hba]
        · simp [put, find?, hba, hbi, ih]

theorem forall_mem_put {P : Number → Prop} {key : Number} {j : Int} {found : List (Number × Int)}
    (hkey : P key) (h : ∀ p ∈ found, P p.1) : ∀ p ∈ put key j found, P p.1 := by
  induction found with
  | nil => simpa [put] using hkey
  | cons q found ih =>
      obtain ⟨hq, hrest⟩ := List.forall_mem_cons.mp h
      unfold put
      split
      · exact List.forall_mem_cons.mpr ⟨hq, hrest⟩
      · exact List.forall_mem_cons.mpr ⟨hq, ih hrest⟩

/-- The table after so many positions of the selection, each under the position that it names. -/
def tableUpTo (f : Int → Int) : Nat → List (Number × Int)
  | 0 => []
  | n + 1 => put (.int (f n)) n (tableUpTo f n)

theorem exists_key_of_mem (f : Int → Int) (n : Nat) :
    ∀ p ∈ tableUpTo f n, ∃ b, p.1 = Number.int b := by
  induction n with
  | zero => simp [tableUpTo]
  | succ n ih => exact forall_mem_put (P := fun k => ∃ b, k = Number.int b) ⟨_, rfl⟩ ih

/-- The table holds the last of the positions under each key. -/
theorem find?_tableUpTo (f : Int → Int) (n : Nat) (i : Int) :
    match find? (.int i) (tableUpTo f n) with
    | none => ∀ k : Int, 0 ≤ k ∧ k < n → f k ≠ i
    | some j => (0 ≤ j ∧ j < n) ∧ f j = i ∧ ∀ k : Int, 0 ≤ k ∧ k < n → f k = i → k ≤ j := by
  induction n with
  | zero =>
      intro k hk
      omega
  | succ n ih =>
      rw [tableUpTo, find?_put (exists_key_of_mem f n)]
      by_cases hn : f n = i
      · rw [if_pos hn]
        refine ⟨by omega, hn, fun k hk _ => by omega⟩
      · rw [if_neg hn]
        -- the new entry is under another key, so nothing changes for this one
        have hlast {k : Int} (hk : 0 ≤ k ∧ k < (n + 1 : Nat)) (hf : f k = i) : k < n := by
          rcases Int.lt_or_eq_of_le (by omega : k ≤ n) with h | rfl
          · exact h
          · exact absurd hf hn
        cases hfind : find? (.int i) (tableUpTo f n) with
        | none =>
            rw [hfind] at ih
            intro k hk hf
            exact ih k ⟨hk.1, hlast hk hf⟩ hf
        | some j =>
            rw [hfind] at ih
            obtain ⟨hj, hf, hle⟩ := ih
            exact ⟨by omega, hf, fun k hk hfk => hle k ⟨hk.1, hlast hk hfk⟩ hfk⟩

theorem foldlM_put {g : List (Number × Int) → Int → Except Fault (List (Number × Int))}
    {f : Int → Int} (n : Nat)
    (h : ∀ j : Int, 0 ≤ j ∧ j < n → ∀ found, g found j = .ok (put (.int (f j)) j found)) :
    (upTo n).foldlM g [] = .ok (tableUpTo f n) := by
  induction n with
  | zero => rfl
  | succ n ih =>
      have hn : upTo ((n + 1 : Nat) : Int) = upTo n ++ [(n : Int)] := by
        simp [upTo, List.range_succ]
      rw [hn, List.foldlM_append, ih fun j hj => h j (by omega)]
      simp only [bind, Except.bind, List.foldlM_cons, List.foldlM_nil, h n (by omega), tableUpTo,
        pure, Except.pure]

/-- The table of a selection in range: under each position of the array the last position of the
selection that names it, and none where none does. -/
theorem targets_spec {origin : Origin} (hs : s.IsProper) (ho : origin.number = .ok (.int o))
    (h : InRange o s indices) :
    ∃ (u : Shape) (table : List (Number × Int)), shape (.ofShape s) indices = .ok (.ofShape u) ∧
      targets (.ofShape s) indices origin = .ok table ∧ ∀ i, s.Holds i →
        match find? (.int i) table with
        | none => ∀ j, u.Holds j → ¬ Names o indices u s j i
        | some j => IsLast o indices u s j i := by
  obtain ⟨u, plans, hu, hp, hup, hd⟩ := plans_spec hs ho h 0
  choose! f hl hw haddr using hd
  have hwithin {j : Int} (hj : u.Holds j) : u.Within (u.coordinates j) :=
    Shape.coordinates_within hup hj
  have hnames {j i : Int} (hj : u.Holds j) (hi : s.Holds i) : Names o indices u s j i ↔
      Shape.dot (f (u.coordinates j)) s.strides = i := by
    have hj' := hwithin hj
    constructor
    · intro hn
      rw [(haddr _ hj').unique hn, Shape.dot_coordinates hs hi]
    · rintro rfl
      unfold Names
      rw [Shape.coordinates_dot (hw _ hj')]
      exact haddr _ hj'
  have hsize : ((u.size.toNat : Nat) : Int) = u.size :=
    Int.toNat_of_nonneg (Shape.size_nonneg hup)
  refine ⟨u, tableUpTo (fun j => Shape.dot (f (u.coordinates j)) s.strides) u.size.toNat, hu, ?_,
    fun i hi => ?_⟩
  · have hfold := foldlM_put (f := fun j => Shape.dot (f (u.coordinates j)) s.strides)
      (g := fun found j => do
        let c ← locate plans (← Extents.coordinates (.ofShape u) (.int j))
        return put (← Extents.dot c (s.strides.map .int)) j found) u.size.toNat (by
      intro j hj found
      rw [hsize] at hj
      simp only [Extents.coordinates_ofShape, bind, Except.bind, hl _ (hwithin hj),
        Extents.dot_map, pure, Except.pure])
    rw [hsize] at hfold
    simp only [targets, Extents.strides_ofShape, hu, Extents.count_ofShape, bind, Except.bind,
      Lazy.get_keep, hp]
    exact hfold
  · have hfind := find?_tableUpTo (fun j => Shape.dot (f (u.coordinates j)) s.strides)
      u.size.toNat i
    rw [hsize] at hfind
    split at hfind
    · intro j hj hn
      exact hfind j hj ((hnames hj hi).mp hn)
    · rename_i j _
      obtain ⟨hj, hf, hle⟩ := hfind
      exact ⟨hj, (hnames hj hi).mpr hf, fun k hk hn => hle k hk ((hnames hk hi).mp hn)⟩

end Selection
end LazyApl
