import LazyApl.Platform.Usual
import LazyApl.Proofs.Stretches
/-!
# Runs and stretches as intervals of cells

A stretch is the half-open interval of the cells from its start on, up to where it stops. The runs
of keys are the maximal intervals of cells with a key in which keys do not rise. The stretches of
counts that are not empty tile the axis from the first cell with a count to its end, and before such
a stretch stand as many empty ones as its count asks for besides.
-/
namespace LazyApl
namespace Partition

variable {keys counts given : List Int} {l : List (Int × Int)} {p : Int × Int} {i m : Int}

theorem IsRun.mem_cells (h : IsRun keys p) (hi : p.1 ≤ i ∧ i < p.2) :
    0 ≤ i ∧ i < keys.length ∧ keyAt keys i ≠ 0 :=
  ⟨h.nonneg.trans hi.1, hi.2.trans_le h.le, h.ne_zero i hi.1 hi.2⟩

theorem exists_run_succ_iff (hk : ∀ k ∈ keys, 0 ≤ k) (hi : 0 ≤ i) (h : keyAt keys i ≠ 0)
    (hnext : keyAt keys (i + 1) ≠ 0) :
    (∃ p ∈ runs keys, p.1 ≤ i ∧ i + 1 < p.2) ↔ keyAt keys (i + 1) ≤ keyAt keys i := by
  have hrun := (runs_spec hk).2
  constructor
  · rintro ⟨p, hp, hle, hlt⟩
    rw [← keyBefore_succ hi]
    exact ((hrun p).mp hp).falls (i + 1) (by omega) hlt
  · intro hfalls
    obtain ⟨p, hp, hle, hlt⟩ := exists_run h hi
    -- a run that stopped behind the first of the two would do so at a rise
    have hne : p.2 ≠ i + 1 := by
      intro heq
      have hends := ((hrun p).mp hp).ends
      rw [heq, keyBefore_succ hi] at hends
      omega
    exact ⟨p, hp, hle, by omega⟩

/-- The runs of keys are intervals that are not empty and follow each other. Their cells are those
with a key, and neighbours with a key are in one run exactly if the second key is not greater than
the first. -/
theorem runs_intervals (hk : ∀ k ∈ keys, 0 ≤ k) :
    (∀ p ∈ runs keys, p.1 < p.2) ∧
      (runs keys).Pairwise (fun p q => p.2 ≤ q.1) ∧
      (∀ i, (∃ p ∈ runs keys, p.1 ≤ i ∧ i < p.2) ↔
        0 ≤ i ∧ i < keys.length ∧ keyAt keys i ≠ 0) ∧
      ∀ i, 0 ≤ i → keyAt keys i ≠ 0 → keyAt keys (i + 1) ≠ 0 →
        ((∃ p ∈ runs keys, p.1 ≤ i ∧ i + 1 < p.2) ↔ keyAt keys (i + 1) ≤ keyAt keys i) := by
  obtain ⟨hpairwise, hrun⟩ := runs_spec hk
  refine ⟨fun p hp => ((hrun p).mp hp).lt, hpairwise, fun i => ⟨?_, ?_⟩, fun i hi h hnext => ?_⟩
  · rintro ⟨p, hp, hi⟩
    exact ((hrun p).mp hp).mem_cells hi
  · rintro ⟨hi, _, h⟩
    exact exists_run h hi
  · exact exists_run_succ_iff hk hi h hnext

/-- The last two cells have a key that falls, and the two before them one that rises; the zero
stands between the first two runs. -/
theorem threeRuns_intervals :
    (∀ k ∈ [2, 0, 1, 3, 2], (0 : Int) ≤ k) ∧ runs [2, 0, 1, 3, 2] = [(0, 1), (2, 3), (3, 5)] ∧
      (∃ p ∈ runs [2, 0, 1, 3, 2], p.1 ≤ 3 ∧ 3 + 1 < p.2) ∧
      ¬ ∃ p ∈ runs [2, 0, 1, 3, 2], p.1 ≤ 2 ∧ 2 + 1 < p.2 := by
  have hk : ∀ k ∈ [2, 0, 1, 3, 2], (0 : Int) ≤ k := by decide
  obtain ⟨_, _, _, hnext⟩ := runs_intervals hk
  exact ⟨hk, rfl, (hnext 3 (by decide) (by decide) (by decide)).mpr (by decide),
    fun h => absurd ((hnext 2 (by decide) (by decide) (by decide)).mp h) (by decide)⟩

/-- Intervals from one place to another, without gap or overlap. None of them is empty. -/
inductive Tiles : Int → Int → List (Int × Int) → Prop
  | nil (a : Int) : Tiles a a []
  | cons {a b c : Int} {l : List (Int × Int)} (hab : a < b) (h : Tiles b c l) :
      Tiles a c ((a, b) :: l)

theorem tiles_stretches (h : StartsFrom counts m l) :
    Tiles (next counts.length l) counts.length
      ((stretches counts.length l).filter fun p => p.1 < p.2) := by
  induction l generalizing m with
  | nil => exact .nil _
  | cons x rest ih =>
      obtain ⟨i, k⟩ := x
      obtain ⟨htail, hlt, _⟩ := h.tail
      have hempty : (List.replicate (k - 1).toNat (i, i)).filter (fun p => p.1 < p.2) = [] := by
        simp
      rw [stretches_cons, List.filter_append, hempty, List.nil_append,
        List.filter_cons_of_pos (by simpa using hlt)]
      exact .cons hlt (ih htail)

theorem pairwise_of_follow (hl : ∀ p ∈ l, p.1 ≤ p.2) (h : l.Pairwise fun p q => p.2 ≤ q.1) :
    l.Pairwise fun p q => p.1 ≤ q.1 ∧ p.2 ≤ q.2 ∧ (p.1 = q.1 → p.2 = p.1) := by
  refine h.imp_of_mem fun {p q} hp hq hpq => ?_
  have := hl p hp
  have := hl q hq
  omega

/-- The stretches that counts describe, given or repeated for a scalar, if there is room for them:
at each cell start as many as its count says, all but the last of them empty; those that are not
empty tile the axis from the first cell with a count to the end. If no cell has a count there is no
stretch. Counts that leave no room for their stretches are refused. -/
theorem counts_segments [Platform] {isScalar : Bool}
    (hgiven : (if isScalar then Platform.room.repeated given counts.length else .ok given) =
      .ok counts) (hk : ∀ k ∈ counts, 0 ≤ k) :
    (Style.counts.HasRoom counts → ∃ l : List (Int × Int),
      Style.counts.segments (.int counts.length) isScalar given =
        .ok (l.map fun (i, j) => (i, .int j)) ∧
      (∀ i, (l.countP fun p => p.1 = i : Int) = if 0 ≤ i then keyAt counts i else 0) ∧
      l.Pairwise (fun p q => p.1 ≤ q.1 ∧ p.2 ≤ q.2 ∧ (p.1 = q.1 → p.2 = p.1)) ∧
      (∀ i, 0 ≤ i → keyAt counts i ≠ 0 → ∃ j, i < j ∧ (i, j) ∈ l) ∧
      Tiles (counts.takeWhile (· = 0)).length counts.length (l.filter fun p => p.1 < p.2) ∧
      ((∀ k ∈ counts, k = 0) → l = [])) ∧
    (¬ Style.counts.HasRoom counts →
      Style.counts.segments (.int counts.length) isScalar given = .error .overflow ∨
        Style.counts.segments (.int counts.length) isScalar given = .error .noRoom) := by
  have hstarts := startsFrom_starts counts
  obtain ⟨hstretch, hpairwise⟩ := stretches_spec (le_refl 0) hstarts
  have hnext := next_starts 0 counts
  rw [zero_add, zero_add] at hnext
  rcases Style.counts.segments_eq hgiven hk with ⟨hroom, hsegments⟩ | ⟨hroom, hsegments⟩
  case inr => exact ⟨fun h => absurd h hroom, fun _ => hsegments⟩
  refine ⟨fun _ => ⟨counted counts.length counts, hsegments, fun i => ?_,
    pairwise_of_follow (fun p hp => (hstretch p hp).2.le) hpairwise,
    fun i hi => exists_mem_stretches hstarts hi, hnext ▸ tiles_stretches hstarts, fun h0 => ?_⟩,
    fun h => absurd hroom h⟩
  · split
    case isTrue hi => exact countP_stretches hk (le_refl 0) hstarts hi
    case isFalse hi =>
      refine Int.ofNat_eq_zero.mpr (List.countP_eq_zero.mpr fun p hp => ?_)
      have := (hstretch p hp).2.nonneg
      simp only [decide_eq_true_eq]
      omega
  · refine List.eq_nil_iff_forall_not_mem.mpr fun p hp => (hstretch p hp).2.begins ?_
    rw [keyAt, List.getD_eq_getElem?_getD]
    cases hget : counts[p.1.toNat]? with
    | none => rfl
    | some k => exact h0 k (List.mem_of_getElem? hget)

open scoped Usual in
/-- Two of the cells have no count, and one has two. -/
theorem twiceAndOnce_segments : (∀ k ∈ [0, 2, 0, 1], (0 : Int) ≤ k) ∧
    Style.counts.segments (.int 4) false [0, 2, 0, 1] =
      .ok [(1, .int 1), (1, .int 3), (3, .int 4)] ∧
    Tiles 1 4 [(1, 3), (3, 4)] := by
  have hk : ∀ k ∈ [0, 2, 0, 1], (0 : Int) ≤ k := by decide
  have hroom : Style.counts.HasRoom [0, 2, 0, 1] := ⟨by decide, by decide⟩
  obtain ⟨l, hl, _, _, _, htiles, _⟩ := (counts_segments (if_neg Bool.false_ne_true) hk).1 hroom
  have hcounted : Style.counts.segments (.int 4) false [0, 2, 0, 1] =
      .ok [(1, .int 1), (1, .int 3), (3, .int 4)] := rfl
  have hshown : l = [(1, 1), (1, 3), (3, 4)] := by
    have hmap := Except.ok.inj (hl.symm.trans hcounted)
    have hinj : Function.Injective fun (p : Int × Int) => (p.1, Number.int p.2) := by
      rintro ⟨i, j⟩ ⟨i', j'⟩ h
      simpa using h
    exact List.map_injective_iff.mpr hinj hmap
  rw [hshown] at htiles
  exact ⟨hk, hcounted, htiles⟩

open scoped Usual in
/-- One count that no list can be repeated by is refused, although there is a cell for it. -/
theorem counts_beyond_room : (∀ k ∈ [2 ^ 63 + 1], (0 : Int) ≤ k) ∧
    Style.counts.segments (.int 1) false [2 ^ 63 + 1] = .error .overflow ∧
    ∀ l, Style.counts.segments (.int 1) false [2 ^ 63 + 1] ≠ .ok l :=
  ⟨by decide, rfl, nofun⟩

end Partition
end LazyApl
