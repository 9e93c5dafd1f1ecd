import LazyApl.Proofs.Windows
import Mathlib.Algebra.Order.BigOperators.Group.List
/-!
# The stretches that keys and counts describe

Keys describe an item wherever they rise, counted from zero before the first of them, and it goes on
until they rise again or are zero. Counts describe as many items at a cell as they say, of which the
last one goes on until the next cell with a count. The stretches of an axis follow each other. Those
of keys make up the cells whose key is not zero, and those of counts all cells from the first one
with a count on.
-/
namespace LazyApl
namespace Partition

variable {α : Type} {keys counts ks : List Int} {p : Int × Int} {i n s previous : Int}
  {start : Option Int} {l : List (Int × Int)}

/-- The key of a cell. After the last cell it is zero. -/
def keyAt (keys : List Int) (i : Int) : Int := keys.getD i.toNat 0

/-- The key of the cell before a cell. Before the first cell it is zero. -/
def keyBefore (keys : List Int) (i : Int) : Int := (0 :: keys).getD i.toNat 0

theorem keyBefore_succ (hi : 0 ≤ i) : keyBefore keys (i + 1) = keyAt keys i := by
  have hsucc : (i + 1).toNat = i.toNat + 1 := by omega
  rw [keyBefore, keyAt, hsucc, List.getD_cons_succ]

theorem keyAt_eq_zero (h : keys.length ≤ i) : keyAt keys i = 0 := by
  rw [keyAt, List.getD_eq_getElem?_getD, List.getElem?_eq_none (by omega), Option.getD_none]

theorem keyAt_of_drop (h : keys.drop i.toNat = s :: ks) : keyAt keys i = s := by
  have hget := congrArg (·[0]?) h
  simp only [List.getElem?_drop, Nat.add_zero, List.getElem?_cons_zero] at hget
  rw [keyAt, List.getD_eq_getElem?_getD, hget, Option.getD_some]

theorem drop_succ_of_drop (hi : 0 ≤ i) (h : keys.drop i.toNat = s :: ks) :
    keys.drop (i + 1).toNat = ks := by
  have hsucc : (i + 1).toNat = i.toNat + 1 := by omega
  rw [hsucc, ← List.tail_drop, h, List.tail_cons]

theorem lt_of_drop (hi : 0 ≤ i) (h : keys.drop i.toNat = s :: ks) : i < keys.length := by
  have hlen := congrArg List.length h
  simp only [List.length_drop, List.length_cons] at hlen
  omega

/-- From a cell where they rise on, keys are not zero and do not rise again. -/
structure Runs (keys : List Int) (s e : Int) : Prop where
  nonneg : 0 ≤ s
  lt : s < e
  le : e ≤ keys.length
  rises : keyBefore keys s < keyAt keys s
  ne_zero : ∀ i, s ≤ i → i < e → keyAt keys i ≠ 0
  falls : ∀ i, s < i → i < e → keyAt keys i ≤ keyBefore keys i

/-- A stretch that keys describe: a run that ends where they rise again or are zero. -/
structure IsRun (keys : List Int) (p : Int × Int) : Prop extends Runs keys p.1 p.2 where
  ends : keyAt keys p.2 = 0 ∨ keyBefore keys p.2 < keyAt keys p.2

theorem runs_start (hi : 0 ≤ i) (hlt : i < keys.length) (h : keyBefore keys i < keyAt keys i)
    (h0 : keyAt keys i ≠ 0) : Runs keys i (i + 1) := by
  refine ⟨hi, by omega, by omega, h, fun j hj hj' => ?_, fun j hj hj' => by omega⟩
  obtain rfl : i = j := by omega
  exact h0

theorem Runs.extend (h : Runs keys s i) (hlt : i < keys.length) (h0 : keyAt keys i ≠ 0)
    (hle : keyAt keys i ≤ keyBefore keys i) : Runs keys s (i + 1) := by
  obtain ⟨hs, hsi, _, hrises, hzero, hfalls⟩ := h
  refine ⟨hs, by omega, by omega, hrises, fun j hj hj' => ?_, fun j hj hj' => ?_⟩
  · rcases eq_or_lt_of_le (show j ≤ i by omega) with rfl | hji
    · exact h0
    · exact hzero j hj hji
  · rcases eq_or_lt_of_le (show j ≤ i by omega) with rfl | hji
    · exact hle
    · exact hfalls j hj hji

/-- A run that is open grows or is closed at each key. -/
theorem isRun_of_mem_runsFrom (hk : ∀ k ∈ keys, 0 ≤ k) (hi : 0 ≤ i) (hks : keys.drop i.toNat = ks)
    (hprevious : keyBefore keys i = previous)
    (hstart : match start with
      | none => previous = 0
      | some s => Runs keys s i) :
    ∀ p ∈ runsFrom i start previous ks, IsRun keys p := by
  -- the run that is open has started before the list, and goes on as far as the list has been read
  induction ks generalizing i start previous with
  | nil =>
      cases start with
      | none => simp [runsFrom]
      | some s =>
          have hend : keys.length ≤ i := by
            have hlen := congrArg List.length hks
            simp only [List.length_drop, List.length_nil] at hlen
            omega
          simp only [runsFrom, List.mem_singleton, forall_eq]
          exact ⟨hstart, .inl (keyAt_eq_zero hend)⟩
  | cons k ks ih =>
      have hkey := keyAt_of_drop hks
      have hlt := lt_of_drop hi hks
      have hrest := drop_succ_of_drop hi hks
      have hbefore : keyBefore keys (i + 1) = k := (keyBefore_succ hi).trans hkey
      have hnonneg : 0 ≤ k := hk k (List.mem_of_mem_drop (hks ▸ List.mem_cons_self))
      cases start with
      | none =>
          simp only [runsFrom]
          split
          · rename_i h0
            exact ih (by omega) hrest hbefore h0
          · rename_i h0
            have hzero : previous = 0 := hstart
            refine ih (by omega) hrest hbefore (runs_start hi hlt ?_ (hkey ▸ h0))
            rw [hprevious, hkey, hzero]
            omega
      | some s =>
          have hopen : Runs keys s i := hstart
          simp only [runsFrom]
          split
          · rename_i h0
            refine List.forall_mem_cons.mpr ⟨⟨hopen, .inl (hkey.trans h0)⟩, ?_⟩
            exact ih (by omega) hrest hbefore h0
          · rename_i h0
            split
            · rename_i hrises
              have hrises : keyBefore keys i < keyAt keys i := by rwa [hprevious, hkey]
              refine List.forall_mem_cons.mpr ⟨⟨hopen, .inr hrises⟩, ?_⟩
              exact ih (by omega) hrest hbefore (runs_start hi hlt hrises (hkey ▸ h0))
            · rename_i hfalls
              refine ih (by omega) hrest hbefore (hopen.extend hlt (hkey ▸ h0) ?_)
              rw [hprevious, hkey]
              omega

/-- The runs follow each other, after the one that is open. -/
theorem pairwise_runsFrom (hs : ∀ s ∈ start, s ≤ i) :
    (∀ p ∈ runsFrom i start previous ks, start.getD i ≤ p.1) ∧
      (runsFrom i start previous ks).Pairwise fun p q => p.2 ≤ q.1 := by
  induction ks generalizing i start previous with
  | nil => cases start <;> simp [runsFrom]
  | cons k ks ih =>
      have hlater (start : Option Int) (hs : ∀ s ∈ start, s ≤ i + 1) (hi : i ≤ start.getD (i + 1)) :
          ∀ p ∈ runsFrom (i + 1) start k ks, i ≤ p.1 := fun p hp => by
        have hp := (ih hs).1 p hp
        omega
      cases start with
      | none =>
          simp only [runsFrom, Option.getD_none]
          split
          · exact ⟨hlater none (by simp) (by simp), (ih (by simp)).2⟩
          · exact ⟨hlater (some i) (by simp) (by simp), (ih (by simp)).2⟩
      | some s =>
          have hsi := hs s rfl
          simp only [runsFrom, Option.getD_some]
          split
          · have hrest := hlater none (by simp) (by simp)
            refine ⟨List.forall_mem_cons.mpr ⟨le_refl s, fun p hp => hsi.trans (hrest p hp)⟩, ?_⟩
            exact List.pairwise_cons.mpr ⟨hrest, (ih (by simp)).2⟩
          · split
            · have hrest := hlater (some i) (by simp) (by simp)
              refine ⟨List.forall_mem_cons.mpr ⟨le_refl s, fun p hp => hsi.trans (hrest p hp)⟩, ?_⟩
              exact List.pairwise_cons.mpr ⟨hrest, (ih (by simp)).2⟩
            · have hs' : ∀ x ∈ some s, x ≤ i + 1 := by
                rintro x ⟨⟩
                omega
              exact ih hs'

/-- The part of a list that lies along a stretch. -/
def slice (xs : List α) (p : Int × Int) : List α := (xs.drop p.1.toNat).take (p.2 - p.1).toNat

/-- The members of a list whose key is not zero. -/
def marked (xs : List α) (keys : List Int) : List α :=
  ((xs.zip keys).filter fun p => p.2 ≠ 0).map Prod.fst

theorem marked_cons (x : α) (xs : List α) (k : Int) (ks : List Int) :
    marked (x :: xs) (k :: ks) = if k = 0 then marked xs ks else x :: marked xs ks := by
  by_cases h : k = 0 <;> simp [marked, h]

theorem slice_append {done : List α} (rest : List α) (h0 : 0 ≤ s) (hs : s ≤ done.length) :
    slice (done ++ rest) (s, done.length) = done.drop s.toNat := by
  have hlen : (done.drop s.toNat).length = ((done.length : Int) - s).toNat := by
    rw [List.length_drop]
    omega
  rw [slice, List.drop_append_of_le_length (by omega), ← hlen, List.take_left]

/-- The slices along the runs, with the one that is open, make up the members with a key. -/
theorem flatMap_slice_runsFrom {done rest : List α} (hl : rest.length = ks.length)
    (hs : ∀ s ∈ start, 0 ≤ s ∧ s ≤ done.length) :
    (runsFrom done.length start previous ks).flatMap (slice (done ++ rest)) =
      (start.elim [] fun s => done.drop s.toNat) ++ marked rest ks := by
  induction ks generalizing done rest start previous with
  | nil =>
      obtain rfl := List.length_eq_zero_iff.mp hl
      cases start with
      | none => simp [runsFrom, marked]
      | some s =>
          have hslice := slice_append ([] : List α) (hs s rfl).1 (hs s rfl).2
          rw [List.append_nil] at hslice
          simp [runsFrom, marked, hslice]
  | cons k ks ih =>
      cases rest with
      | nil => cases hl
      | cons x rest =>
          have hl : rest.length = ks.length := Nat.succ.inj hl
          have hnext : ((done ++ [x]).length : Int) = done.length + 1 := by simp
          have happend : done ++ x :: rest = done ++ [x] ++ rest := by simp
          have ih := fun (start : Option Int) (previous : Int) =>
            @ih previous start (done ++ [x]) rest hl
          rw [hnext, ← happend] at ih
          have hopen : (done ++ [x]).drop done.length = [x] := List.drop_left
          cases start with
          | none =>
              simp only [runsFrom, marked_cons]
              split
              · exact ih none k (by simp)
              · rw [ih (some done.length) k (by simp)]
                simp
          | some s =>
              obtain ⟨h0, hle⟩ := hs s rfl
              have hslice := slice_append (x :: rest) h0 hle
              simp only [runsFrom, marked_cons]
              split
              · rw [List.flatMap_cons, hslice, ih none k (by simp)]
                simp
              · split
                · rw [List.flatMap_cons, hslice, ih (some done.length) k (by simp)]
                  simp
                · have hs' : ∀ y ∈ some s, 0 ≤ y ∧ y ≤ (done.length : Int) + 1 := by
                    rintro y ⟨⟩
                    omega
                  rw [ih (some s) k hs', Option.elim_some, Option.elim_some,
                    List.drop_append_of_le_length (by omega), List.append_assoc]
                  rfl

theorem flatMap_slice_runs {xs : List α} (hl : xs.length = keys.length) :
    (runs keys).flatMap (slice xs) = marked xs keys :=
  @flatMap_slice_runsFrom α keys 0 none [] xs hl (by simp)

theorem lies_runs (keys : List Int) : ∀ p ∈ runs keys, Lies keys.length p :=
  lies_runsFrom (le_refl 0) (by simp) (by simp)

theorem exists_run (h : keyAt keys i ≠ 0) (hi : 0 ≤ i) :
    ∃ p ∈ runs keys, p.1 ≤ i ∧ i < p.2 := by
  have hlt : i.toNat < keys.length := by
    by_contra hge
    exact h (keyAt_eq_zero (by omega))
  have hmem : i.toNat ∈ marked (List.range keys.length) keys := by
    refine List.mem_map.mpr ⟨(i.toNat, keys[i.toNat]), ?_, rfl⟩
    refine List.mem_filter.mpr ⟨List.mem_iff_getElem.mpr ⟨i.toNat, by simpa using hlt, by simp⟩, ?_⟩
    rw [keyAt, List.getD_eq_getElem?_getD, List.getElem?_eq_getElem hlt] at h
    simpa using h
  rw [← flatMap_slice_runs (by simp)] at hmem
  obtain ⟨p, hp, hslice⟩ := List.mem_flatMap.mp hmem
  obtain ⟨h0, _, _⟩ := lies_runs keys p hp
  obtain ⟨k, hk, hget⟩ := List.mem_iff_getElem.mp hslice
  rw [slice, List.length_take, List.length_drop, List.length_range] at hk
  have hvalue : p.1.toNat + k = i.toNat := by simpa [slice] using hget
  exact ⟨p, hp, by omega, by omega⟩

/-- The stretches that keys describe are their runs, in order. -/
theorem runs_spec (hk : ∀ k ∈ keys, 0 ≤ k) :
    (runs keys).Pairwise (fun p q => p.2 ≤ q.1) ∧ ∀ p, p ∈ runs keys ↔ IsRun keys p := by
  have hrun : ∀ p ∈ runs keys, IsRun keys p :=
    isRun_of_mem_runsFrom hk (le_refl 0) rfl rfl rfl
  refine ⟨(pairwise_runsFrom (by simp)).2, fun p => ⟨hrun p, fun hp => ?_⟩⟩
  obtain ⟨q, hq, hle, hlt⟩ := exists_run (hp.ne_zero _ (le_refl _) hp.lt) hp.nonneg
  have hq' := hrun q hq
  -- two runs over one cell have the same start, since there they rise
  have hstart : q.1 = p.1 := by
    by_contra hne
    have := hq'.falls p.1 (by omega) hlt
    have := hp.rises
    omega
  have hstop {p q : Int × Int} (hp : IsRun keys p) (hq : IsRun keys q) (h : q.1 = p.1) :
      ¬ p.2 < q.2 := fun hlt => by
    have := hq.falls p.2 (h ▸ hp.lt) hlt
    have := hq.ne_zero p.2 (h ▸ hp.lt.le) hlt
    have := hp.ends
    omega
  have h1 := hstop hp hq' hstart
  have h2 := hstop hq' hp hstart.symm
  obtain rfl : q = p := Prod.ext hstart (by omega)
  exact hq

/-- A stretch that counts describe: it starts at a cell with a count. It is empty, or it goes on
over cells without one up to the next cell with one, or to the end. -/
structure IsStretch (counts : List Int) (p : Int × Int) : Prop where
  nonneg : 0 ≤ p.1
  le : p.1 ≤ p.2
  begins : keyAt counts p.1 ≠ 0
  zeros : ∀ i, p.1 < i → i < p.2 → keyAt counts i = 0
  ends : p.2 = p.1 ∨ p.2 = counts.length ∨ keyAt counts p.2 ≠ 0

theorem mem_starts (hi : 0 ≤ i) (hks : counts.drop i.toNat = ks) {j k : Int} :
    (j, k) ∈ starts i ks ↔ i ≤ j ∧ k ≠ 0 ∧ keyAt counts j = k := by
  induction ks generalizing i with
  | nil =>
      have hend : counts.length ≤ i := by
        have hlen := congrArg List.length hks
        simp only [List.length_drop, List.length_nil] at hlen
        omega
      simp only [starts, List.not_mem_nil, false_iff]
      rintro ⟨hij, hk, h⟩
      exact hk (h ▸ keyAt_eq_zero (by omega))
  | cons c ks ih =>
      have hkey := keyAt_of_drop hks
      have ih := ih (by omega) (drop_succ_of_drop hi hks)
      simp only [starts]
      split
      · rename_i h0
        rw [ih]
        constructor
        · rintro ⟨hij, h⟩
          exact ⟨by omega, h⟩
        · rintro ⟨hij, hk, h⟩
          refine ⟨?_, hk, h⟩
          by_contra hlt
          obtain rfl : i = j := by omega
          exact hk (h ▸ hkey.trans h0)
      · rename_i h0
        rw [List.mem_cons, ih]
        constructor
        · rintro (heq | ⟨hij, h⟩)
          · cases heq
            exact ⟨le_refl _, h0, hkey⟩
          · exact ⟨by omega, h⟩
        · rintro ⟨hij, hk, h⟩
          rcases eq_or_lt_of_le hij with rfl | hlt
          · exact .inl (by rw [← h, hkey])
          · exact .inr ⟨by omega, hk, h⟩

/-- Where the first of some stretches starts; if there is none, the end of the axis. -/
def next (n : Int) : List (Int × Int) → Int
  | (j, _) :: _ => j
  | [] => n

theorem stretches_cons (n i k : Int) (rest : List (Int × Int)) :
    stretches n ((i, k) :: rest) =
      List.replicate (k - 1).toNat (i, i) ++ (i, next n rest) :: stretches n rest := by
  cases rest <;> rfl

/-- All cells with a count from a cell on, in order. -/
structure StartsFrom (counts : List Int) (m : Int) (l : List (Int × Int)) : Prop where
  sorted : l.Pairwise fun p q => p.1 < q.1
  mem_iff : ∀ j k, (j, k) ∈ l ↔ m ≤ j ∧ k ≠ 0 ∧ keyAt counts j = k

theorem startsFrom_starts (counts : List Int) : StartsFrom counts 0 (starts 0 counts) :=
  ⟨(starts_spec 0 counts).2, fun _ _ => mem_starts (le_refl 0) rfl⟩

theorem StartsFrom.lt_length {m j k : Int} (h : StartsFrom counts m l) (hj : (j, k) ∈ l) :
    j < counts.length := by
  obtain ⟨_, hk, hkey⟩ := (h.mem_iff j k).mp hj
  by_contra hge
  exact hk (hkey ▸ keyAt_eq_zero (by omega))

theorem StartsFrom.next_spec {m k : Int} {rest : List (Int × Int)}
    (h : StartsFrom counts m ((i, k) :: rest)) :
    i < next counts.length rest ∧ next counts.length rest ≤ counts.length ∧
      (∀ j x, (j, x) ∈ rest → next counts.length rest ≤ j) ∧
      (next counts.length rest = counts.length ∨
        keyAt counts (next counts.length rest) ≠ 0) := by
  obtain ⟨hlt, hsorted⟩ := List.pairwise_cons.mp h.sorted
  cases rest with
  | nil =>
      refine ⟨h.lt_length List.mem_cons_self, le_refl _, fun j x hj => ?_, .inl rfl⟩
      cases hj
  | cons p rest =>
      obtain ⟨q, x⟩ := p
      have hmem : (q, x) ∈ (i, k) :: (q, x) :: rest := by simp
      obtain ⟨_, hx, hkey⟩ := (h.mem_iff q x).mp hmem
      refine ⟨hlt _ List.mem_cons_self, (h.lt_length hmem).le, fun j y hj => ?_, .inr (hkey ▸ hx)⟩
      rcases List.mem_cons.mp hj with heq | hj
      · cases heq
        exact le_refl _
      · exact ((List.pairwise_cons.mp hsorted).1 _ hj).le

/-- Between two starts that follow each other no cell has a count. -/
theorem StartsFrom.tail {m k : Int} {rest : List (Int × Int)}
    (h : StartsFrom counts m ((i, k) :: rest)) :
    StartsFrom counts (next counts.length rest) rest ∧ i < next counts.length rest ∧
      next counts.length rest ≤ counts.length ∧
      (∀ j, i < j → j < next counts.length rest → keyAt counts j = 0) ∧
      (next counts.length rest = counts.length ∨
        keyAt counts (next counts.length rest) ≠ 0) := by
  have hfirst := (h.mem_iff i k).mp List.mem_cons_self
  have hlater : ∀ j, i < j → keyAt counts j ≠ 0 → (j, keyAt counts j) ∈ rest := by
    intro j hj hne
    have hmem := (h.mem_iff j _).mpr ⟨by omega, hne, rfl⟩
    rcases List.mem_cons.mp hmem with heq | hmem
    · cases heq
      omega
    · exact hmem
  obtain ⟨hi, hle, hmin, hends⟩ := h.next_spec
  refine ⟨⟨h.sorted.of_cons, fun j x => ⟨fun hj => ?_, fun hj => ?_⟩⟩, hi, hle,
    fun j hj hj' => ?_, hends⟩
  · obtain ⟨_, hx, hkey⟩ := (h.mem_iff j x).mp (List.mem_cons_of_mem _ hj)
    exact ⟨hmin j x hj, hx, hkey⟩
  · obtain ⟨hj, hx, rfl⟩ := hj
    exact hlater j (by omega) hx
  · by_contra hne
    have := hmin j _ (hlater j hj hne)
    omega

theorem StartsFrom.keyAt_eq_zero {m j k : Int} {rest : List (Int × Int)}
    (h : StartsFrom counts m ((i, k) :: rest)) (hm : m ≤ j) (hne : i ≠ j)
    (hj : j < next counts.length rest) : keyAt counts j = 0 := by
  by_contra h0
  have hmem := (h.mem_iff j _).mpr ⟨hm, h0, rfl⟩
  rcases List.mem_cons.mp hmem with heq | hmem
  · cases heq
    exact hne rfl
  · have hlt := (List.pairwise_cons.mp h.sorted).1 _ hmem
    exact h0 (h.tail.2.2.2.1 j hlt hj)

theorem StartsFrom.pos {m k : Int} {rest : List (Int × Int)} (hk : ∀ k ∈ counts, 0 ≤ k)
    (hm : 0 ≤ m) (h : StartsFrom counts m ((i, k) :: rest)) : 0 < k := by
  obtain ⟨hmi, hk0, hkey⟩ := (h.mem_iff i k).mp List.mem_cons_self
  have hlt := h.lt_length List.mem_cons_self
  have hmem : k ∈ counts := by
    rw [← hkey, keyAt, List.getD_eq_getElem?_getD, List.getElem?_eq_getElem (by omega)]
    exact List.getElem_mem _
  have := hk k hmem
  omega

theorem StartsFrom.isStretch {m k : Int} {rest : List (Int × Int)} (hm : 0 ≤ m)
    (h : StartsFrom counts m ((i, k) :: rest)) :
    IsStretch counts (i, i) ∧ IsStretch counts (i, next counts.length rest) := by
  obtain ⟨_, hi, _, hzeros, hends⟩ := h.tail
  obtain ⟨hmi, hk0, hkey⟩ := (h.mem_iff i k).mp List.mem_cons_self
  have hbegins : keyAt counts i ≠ 0 := hkey ▸ hk0
  exact ⟨⟨hm.trans hmi, le_refl _, hbegins, fun j hj hj' => by omega, .inl rfl⟩,
    hm.trans hmi, hi.le, hbegins, hzeros, .inr hends⟩

theorem mem_stretches_cons {k : Int} {rest : List (Int × Int)}
    (hp : p ∈ stretches n ((i, k) :: rest)) :
    p = (i, i) ∨ p = (i, next n rest) ∨ p ∈ stretches n rest := by
  rw [stretches_cons] at hp
  rcases List.mem_append.mp hp with hp | hp
  · exact .inl (List.eq_of_mem_replicate hp)
  · exact .inr (List.mem_cons.mp hp)

/-- The stretches that start at some cells follow each other. -/
theorem stretches_spec {m : Int} (hm : 0 ≤ m) (h : StartsFrom counts m l) :
    (∀ p ∈ stretches counts.length l, next counts.length l ≤ p.1 ∧ IsStretch counts p) ∧
      (stretches counts.length l).Pairwise fun p q => p.2 ≤ q.1 := by
  induction l generalizing m with
  | nil => simp [stretches]
  | cons x rest ih =>
      obtain ⟨i, k⟩ := x
      obtain ⟨htail, hi, _⟩ := h.tail
      obtain ⟨hempty, hfull⟩ := h.isStretch hm
      have hstart := hempty.nonneg
      obtain ⟨hrest, hpairwise⟩ := ih (hstart.trans hi.le) htail
      refine ⟨fun p hp => ?_, ?_⟩
      · rcases mem_stretches_cons hp with rfl | rfl | hp
        · exact ⟨le_refl _, hempty⟩
        · exact ⟨le_refl _, hfull⟩
        · obtain ⟨hge, hp⟩ := hrest p hp
          exact ⟨hi.le.trans hge, hp⟩
      · rw [stretches_cons]
        refine List.pairwise_append.mpr ⟨List.pairwise_replicate.mpr (.inr (le_refl i)),
          List.pairwise_cons.mpr ⟨fun q hq => (hrest q hq).1, hpairwise⟩, fun p hp q hq => ?_⟩
        obtain rfl := List.eq_of_mem_replicate hp
        rcases List.mem_cons.mp hq with rfl | hq
        · exact le_refl i
        · exact hi.le.trans (hrest q hq).1

/-- At each cell there start as many stretches as its count says. -/
theorem countP_stretches {m : Int} (hk : ∀ k ∈ counts, 0 ≤ k) (hm : 0 ≤ m)
    (h : StartsFrom counts m l) {j : Int} (hj : m ≤ j) :
    ((stretches counts.length l).countP fun p => p.1 = j : Int) = keyAt counts j := by
  induction l generalizing m with
  | nil =>
      by_contra hne
      have hmem := (h.mem_iff j (keyAt counts j)).mpr
        ⟨hj, fun h0 => hne (by simp [stretches, h0]), rfl⟩
      cases hmem
  | cons x rest ih =>
      obtain ⟨i, k⟩ := x
      obtain ⟨htail, hi, _⟩ := h.tail
      obtain ⟨hmi, _, hkey⟩ := (h.mem_iff i k).mp List.mem_cons_self
      have hpos := h.pos hk hm
      rw [stretches_cons, List.countP_append, List.countP_cons, List.countP_replicate]
      by_cases hj' : next counts.length rest ≤ j
      · have hne : i ≠ j := by omega
        simpa [hne] using ih (by omega) htail hj'
      · have hnone : (stretches counts.length rest).countP (fun p => p.1 = j) = 0 := by
          refine List.countP_eq_zero.mpr fun p hp => ?_
          have := ((stretches_spec (by omega) htail).1 p hp).1
          simp only [decide_eq_true_eq]
          omega
        rw [hnone]
        by_cases hij : i = j
        · subst hij
          simp only [decide_true, if_true, hkey]
          omega
        · simpa [hij] using (h.keyAt_eq_zero hj hij (by omega)).symm

theorem exists_mem_stretches {m : Int} (h : StartsFrom counts m l) {j : Int} (hj : m ≤ j)
    (h0 : keyAt counts j ≠ 0) : ∃ e, j < e ∧ (j, e) ∈ stretches counts.length l := by
  have hmem := (h.mem_iff j _).mpr ⟨hj, h0, rfl⟩
  induction l generalizing m with
  | nil => cases hmem
  | cons x rest ih =>
      obtain ⟨i, k⟩ := x
      obtain ⟨htail, hi, _⟩ := h.tail
      rw [stretches_cons]
      rcases List.mem_cons.mp hmem with heq | hmem
      · cases heq
        exact ⟨_, hi, List.mem_append_right _ List.mem_cons_self⟩
      · obtain ⟨hge, _⟩ := (htail.mem_iff j _).mp hmem
        obtain ⟨e, he, hstretch⟩ := ih htail hge hmem
        exact ⟨e, he, List.mem_append_right _ (List.mem_cons_of_mem _ hstretch)⟩

/-- The slices of a list along stretches make up what is left of it from the first start on. -/
theorem flatMap_slice_stretches {xs : List α} (hb : ∀ p ∈ l, 0 ≤ p.1 ∧ p.1 ≤ xs.length)
    (hl : l.Pairwise fun p q => p.1 < q.1) :
    (stretches xs.length l).flatMap (slice xs) = xs.drop (next xs.length l).toNat := by
  induction l with
  | nil => simp [stretches, next]
  | cons x rest ih =>
      obtain ⟨i, k⟩ := x
      obtain ⟨hi, hb⟩ := List.forall_mem_cons.mp hb
      obtain ⟨hlt, hl⟩ := List.pairwise_cons.mp hl
      have hempty : slice xs (i, i) = [] := by simp [slice]
      have hnext : i ≤ next xs.length rest := by
        cases rest with
        | nil => exact hi.2
        | cons p rest => exact (hlt p List.mem_cons_self).le
      have hdrop : xs.drop (next xs.length rest).toNat =
          (xs.drop i.toNat).drop (next xs.length rest - i).toNat := by
        rw [List.drop_drop]
        congr 1
        omega
      rw [stretches_cons, List.flatMap_append, List.flatMap_cons, ih hb hl, hdrop, slice,
        List.take_append_drop, List.flatMap_replicate, hempty]
      simp [next]

theorem next_starts (i : Int) (ks : List Int) :
    next (i + ks.length) (starts i ks) = i + (ks.takeWhile (· = 0)).length := by
  induction ks generalizing i with
  | nil => simp [starts, next]
  | cons k ks ih =>
      by_cases h0 : k = 0
      · have hlen : i + ((k :: ks).length : Int) = i + 1 + ks.length := by
          rw [List.length_cons]
          push_cast
          ring
        rw [hlen, starts, if_pos h0, ih, List.takeWhile_cons, if_pos (by simpa using h0),
          List.length_cons]
        push_cast
        ring
      · simp [starts, h0, next]

theorem lies_counted (counts : List Int) :
    ∀ p ∈ counted counts.length counts, Lies counts.length p := by
  obtain ⟨hb, hp⟩ := starts_spec 0 counts
  refine lies_stretches (fun p h => ?_) hp
  have h := hb p h
  omega

/-- The slices of a list along the stretches of its counts make up what is left of it from the
first count on. -/
theorem flatMap_slice_counted {xs : List α} (hl : xs.length = counts.length) :
    (counted counts.length counts).flatMap (slice xs) =
      xs.drop (counts.takeWhile (· = 0)).length := by
  obtain ⟨hb, hp⟩ := starts_spec 0 counts
  have hnext := next_starts 0 counts
  rw [zero_add, zero_add] at hnext
  rw [counted, ← hl, flatMap_slice_stretches (fun p h => ?_) hp, hl, hnext, Int.toNat_natCast]
  have h := hb p h
  omega

/-- What ends at the end of the axis ends where it is said to end. -/
theorem endingAt_stretches (n : Int) (l : List (Int × Int)) :
    endingAt (.int n) (stretches n l) = (stretches n l).map fun (i, j) => (i, .int j) := by
  have happend (l l' : List (Int × Int)) (h : l' ≠ []) : endingAt (.int n) (l ++ l') =
      l.map (fun (i, j) => (i, .int j)) ++ endingAt (.int n) l' := by
    induction l with
    | nil => rfl
    | cons p l ih =>
        rw [List.cons_append, List.map_cons, List.cons_append, ← ih]
        obtain ⟨q, rest, hq⟩ := List.exists_cons_of_ne_nil (List.append_ne_nil_of_right_ne_nil l h)
        rw [hq]
        rfl
  induction l with
  | nil => rfl
  | cons x rest ih =>
      obtain ⟨i, k⟩ := x
      rw [stretches_cons, happend _ _ (List.cons_ne_nil _ _), List.map_append, List.map_cons, ← ih]
      congr 1
      cases rest with
      | nil => rfl
      | cons y rest =>
          obtain ⟨q, hq⟩ : ∃ q, stretches n (y :: rest) = q := ⟨_, rfl⟩
          have hne : stretches n (y :: rest) ≠ [] := by
            obtain ⟨j, x⟩ := y
            rw [stretches_cons]
            exact List.append_ne_nil_of_right_ne_nil _ (List.cons_ne_nil _ _)
          obtain ⟨q, qs, hq⟩ := List.exists_cons_of_ne_nil hne
          rw [hq]
          rfl

/-- The stretches are made one after another, unless those at one cell or the list of them have no
room. -/
theorem spread_eq {room : Room} (n : Int) (hl : ∀ p ∈ l, 0 < p.2) {length : Nat}
    (h : length ≤ room.limit) :
    (room.Takes 1 length (l.map fun p => (p.2 - 1).toNat) ∧
        spread room n length l = .ok (stretches n l)) ∨
      ¬ room.Takes 1 length (l.map fun p => (p.2 - 1).toNat) ∧
        (spread room n length l = .error .overflow ∨ spread room n length l = .error .noRoom) := by
  induction l generalizing length with
  | nil => exact .inl ⟨Room.takes_nil h, rfl⟩
  | cons x rest ih =>
      obtain ⟨i, k⟩ := x
      obtain ⟨hk, hl⟩ := List.forall_mem_cons.mp hl
      have hmore : k - 1 = (k - 1).toNat := by
        have : 0 < k := hk
        omega
      have hcons : spread room n length ((i, k) :: rest) =
          room.copies (i, i) ((k - 1).toNat : Nat) >>= fun own =>
            room.grown length (own.length + 1) >>= fun length =>
              spread room n length rest >>= fun later =>
                .ok (own ++ (i, next n rest) :: later) := by
        rw [← hmore]
        cases rest <;> rfl
      rw [hcons, List.map_cons, Room.takes_cons]
      rcases room.copies_grown (i, i) (k - 1).toNat 1 length
        fun own length => spread room n length rest >>= fun later =>
          .ok (own ++ (i, next n rest) :: later)
        with ⟨⟨hk, hle⟩, hown⟩ | ⟨hk, hown⟩
      · rw [hown]
        rcases ih hl hle with ⟨hrest, hlater⟩ | ⟨hrest, hlater⟩
        · exact .inl ⟨⟨⟨hk, hle⟩, hrest⟩, by rw [hlater, stretches_cons]; rfl⟩
        · refine .inr ⟨fun h => hrest h.2, hlater.imp ?_ ?_⟩ <;> rintro hlater <;> rw [hlater] <;>
            rfl
      · exact .inr ⟨fun h => hk h.1, hown⟩

theorem starts_pos (h : ∀ k ∈ ks, 0 ≤ k) : ∀ p ∈ starts i ks, 0 < p.2 := by
  induction ks generalizing i with
  | nil => simp [starts]
  | cons k ks ih =>
      obtain ⟨hk, h⟩ := List.forall_mem_cons.mp h
      simp only [starts]
      split
      · exact ih h
      · rename_i h0
        exact List.forall_mem_cons.mpr ⟨lt_of_le_of_ne hk (Ne.symm h0), ih h⟩

/-- Cells without a count need no room. -/
theorem takes_starts {room : Room} {length : Nat} (h : ∀ k ∈ ks, 0 ≤ k) :
    room.Takes 1 length ((starts i ks).map fun p => (p.2 - 1).toNat) ↔
      (∀ k ∈ ks, k ≤ twoTo 63) ∧ (length : Int) + ks.sum ≤ room.limit := by
  have hbound : twoTo 63 = 2 ^ 63 := rfl
  induction ks generalizing i length with
  | nil =>
      simp only [starts, List.map_nil, List.sum_nil, add_zero, Nat.cast_le]
      exact ⟨fun h => ⟨by simp, h.total⟩, fun h => Room.takes_nil h.2⟩
  | cons k ks ih =>
      obtain ⟨hk, h⟩ := List.forall_mem_cons.mp h
      have hsum : 0 ≤ ks.sum := List.sum_nonneg h
      rw [List.forall_mem_cons, List.sum_cons, starts]
      split
      · rename_i h0
        refine (ih h).trans ?_
        rw [h0, zero_add]
        simp
      · rename_i h0
        rw [List.map_cons, Room.takes_cons]
        refine (Iff.and Iff.rfl (ih h)).trans ?_
        constructor
        · rintro ⟨⟨hk, _⟩, heach, hle⟩
          push_cast at hle
          exact ⟨⟨by omega, heach⟩, by omega⟩
        · rintro ⟨⟨hk, heach⟩, hle⟩
          refine ⟨⟨by omega, by omega⟩, heach, ?_⟩
          push_cast
          omega

namespace Style

/-- The stretches that marks describe, one for each item. -/
def stretches : Style → List Int → List (Int × Int)
  | .keys, marks => runs marks
  | .counts, marks => counted marks.length marks

/-- The stretches follow each other. Those of keys are the runs. Of those of counts, as many start
at a cell as its count says, and one of these goes on. -/
def Describes : Style → List Int → List (Int × Int) → Prop
  | .keys, marks, l => l.Pairwise (fun p q => p.2 ≤ q.1) ∧ ∀ p, p ∈ l ↔ IsRun marks p
  | .counts, marks, l => l.Pairwise (fun p q => p.2 ≤ q.1) ∧ (∀ p ∈ l, IsStretch marks p) ∧
      ∀ i, 0 ≤ i → (l.countP fun p => p.1 = i : Int) = keyAt marks i ∧
        (keyAt marks i ≠ 0 → ∃ e, i < e ∧ (i, e) ∈ l)

/-- What the stretches of a list are joined to: the members with a key, or all from the first count
on. -/
def covered : Style → List α → List Int → List α
  | .keys, xs, marks => marked xs marks
  | .counts, xs, marks => xs.drop (marks.takeWhile (· = 0)).length

theorem describes_stretches (style : Style) {marks : List Int} (h : ∀ k ∈ marks, 0 ≤ k) :
    style.Describes marks (style.stretches marks) := by
  cases style with
  | keys => exact runs_spec h
  | counts =>
      have hstarts := startsFrom_starts marks
      obtain ⟨hstretch, hpairwise⟩ := stretches_spec (le_refl 0) hstarts
      exact ⟨hpairwise, fun p hp => (hstretch p hp).2, fun i hi =>
        ⟨countP_stretches h (le_refl 0) hstarts hi, exists_mem_stretches hstarts hi⟩⟩

theorem lies_stretches (style : Style) (marks : List Int) :
    ∀ p ∈ style.stretches marks, Lies marks.length p := by
  cases style with
  | keys => exact lies_runs marks
  | counts => exact lies_counted marks

theorem flatMap_slice (style : Style) {xs : List α} {marks : List Int}
    (hl : xs.length = marks.length) :
    (style.stretches marks).flatMap (slice xs) = style.covered xs marks := by
  cases style with
  | keys => exact flatMap_slice_runs hl
  | counts => exact flatMap_slice_counted hl

variable [Platform]

/-- Keys need no room beside that of their list. Counts need it for the empty stretches at each
cell, which are made at once, and for the list of all stretches. -/
def HasRoom : Style → List Int → Prop
  | .keys, _ => True
  | .counts, marks => (∀ k ∈ marks, k ≤ twoTo 63) ∧
      marks.sum ≤ (Platform.room.beside marks.length).limit

theorem segments_scalar (style : Style) (n : Int) (given : List Int) :
    style.segments (.int n) true given =
      Platform.room.repeated given n >>= fun marks => style.segments (.int n) false marks := rfl

theorem segments_keys {marks : List Int} (h : ∀ k ∈ marks, 0 ≤ k) :
    Style.keys.segments (.int marks.length) false marks =
      .ok ((runs marks).map fun (i, j) => (i, .int j)) := by
  have hneg : marks.any (· < 0) = false := by
    rw [List.any_eq_false]
    intro k hk
    simpa using h k hk
  unfold segments
  rw [if_neg Bool.false_ne_true, pure_bind]
  simp [hneg, pure, Except.pure]

theorem segments_counts {marks : List Int} (h : ∀ k ∈ marks, 0 ≤ k) :
    Style.counts.segments (.int marks.length) false marks =
      spread (Platform.room.beside marks.length) marks.length 0 (starts 0 marks) >>= fun l =>
        .ok (endingAt (.int marks.length) l) := by
  have hneg : marks.any (· < 0) = false := by
    rw [List.any_eq_false]
    intro k hk
    simpa using h k hk
  unfold segments
  rw [if_neg Bool.false_ne_true, pure_bind]
  simp only [hneg, Number.eq_int, BEq.rfl, Bool.not_true, Bool.false_eq_true, ite_false]
  rfl

theorem segments_vector (style : Style) {marks : List Int} (h : ∀ k ∈ marks, 0 ≤ k) :
    (style.HasRoom marks ∧ style.segments (.int marks.length) false marks =
        .ok ((style.stretches marks).map fun (i, j) => (i, .int j))) ∨
      ¬ style.HasRoom marks ∧
        (style.segments (.int marks.length) false marks = .error .overflow ∨
          style.segments (.int marks.length) false marks = .error .noRoom) := by
  cases style with
  | keys => exact .inl ⟨trivial, segments_keys h⟩
  | counts =>
      rw [segments_counts h]
      have htakes : (Platform.room.beside marks.length).Takes 1 0
          ((starts 0 marks).map fun p => (p.2 - 1).toNat) ↔ Style.counts.HasRoom marks := by
        refine (takes_starts h).trans ?_
        rw [Nat.cast_zero, zero_add]
        exact Iff.rfl
      rcases spread_eq marks.length (starts_pos h) (Nat.zero_le _) with ⟨hroom, hl⟩ | ⟨hroom, hl⟩
      · refine .inl ⟨htakes.mp hroom, ?_⟩
        rw [hl]
        exact congrArg Except.ok (endingAt_stretches _ _)
      · refine .inr ⟨fun hr => hroom (htakes.mpr hr), hl.imp ?_ ?_⟩ <;>
          rintro hl <;> rw [hl] <;> rfl

theorem segments_eq (style : Style) {marks given : List Int} {isScalar : Bool}
    (hgiven : (if isScalar then Platform.room.repeated given marks.length else .ok given) =
      .ok marks) (h : ∀ k ∈ marks, 0 ≤ k) :
    (style.HasRoom marks ∧ style.segments (.int marks.length) isScalar given =
        .ok ((style.stretches marks).map fun (i, j) => (i, .int j))) ∨
      ¬ style.HasRoom marks ∧
        (style.segments (.int marks.length) isScalar given = .error .overflow ∨
          style.segments (.int marks.length) isScalar given = .error .noRoom) := by
  have hsame : style.segments (.int marks.length) isScalar given =
      style.segments (.int marks.length) false marks := by
    cases isScalar with
    | false =>
        rw [if_neg Bool.false_ne_true] at hgiven
        rw [Except.ok.inj hgiven]
    | true =>
        rw [if_pos rfl] at hgiven
        rw [segments_scalar, hgiven]
        rfl
  rw [hsame]
  exact style.segments_vector h

end Style
end Partition
end LazyApl
