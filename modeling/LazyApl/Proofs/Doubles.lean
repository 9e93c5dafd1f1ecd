import LazyApl.Scalar
import Mathlib.Data.Nat.Log
import Mathlib.Tactic.Linarith
/-!
# Whole numbers that doubles hold

A finite double is less than two to the power of 1024, and what it is rounded down to can be turned
into a double again, as can the next whole number: the last place of the greatest doubles is so
large that one more is rounded off.
-/
namespace LazyApl

theorem twoTo_eq (k : Nat) : twoTo k = 2 ^ k := rfl

theorem twoTo_mono {k l : Nat} (h : k ≤ l) : twoTo k ≤ twoTo l := by
  rw [twoTo_eq, twoTo_eq]
  exact Nat.pow_le_pow_right (by omega) h

theorem twoTo_add (k l : Nat) : twoTo (k + l) = twoTo k * twoTo l := by
  rw [twoTo_eq, twoTo_eq, twoTo_eq, Nat.pow_add]

namespace Double

theorem parts?_bounds {x : Float} {p : Parts} (h : parts? x = some p) :
    p.mantissa < 2 ^ 53 ∧ p.scale ≤ 971 := by
  have hfraction : x.toBits.toNat % twoTo 52 < 2 ^ 52 := Nat.mod_lt _ (twoTo_pos 52)
  have hexponent : x.toBits.toNat / twoTo 52 % twoTo 11 < 2 ^ 11 := Nat.mod_lt _ (twoTo_pos 11)
  have hplace : twoTo 52 = 2 ^ 52 := rfl
  unfold parts? at h
  dsimp only at h
  split at h
  · cases h
  · split at h
    · obtain rfl := Option.some.inj h
      exact ⟨by dsimp only; omega, by dsimp only; omega⟩
    · obtain rfl := Option.some.inj h
      exact ⟨by dsimp only; omega, by dsimp only; omega⟩

/-- A double that is rounded down is at most the greatest one, whose last place is 971. -/
theorem floor?_le {x : Float} {n : Int} {k : Nat} (h : floor? x = some n) (hk : k = 971) :
    n ≤ ((2 ^ 53 - 1) * twoTo k : Nat) := by
  obtain ⟨p, hp, rfl⟩ := Option.map_eq_some_iff.mp h
  obtain ⟨hmantissa, hscale⟩ := parts?_bounds hp
  have hsigned : (if p.negative then -(p.mantissa : Int) else p.mantissa) ≤ p.mantissa := by
    split <;> omega
  -- the value of a whole double is its mantissa shifted, and a quotient is less than its dividend
  have hwhole : p.mantissa * twoTo p.scale.toNat ≤ (2 ^ 53 - 1) * twoTo k :=
    Nat.mul_le_mul (by omega) (twoTo_mono (by omega))
  generalize (2 ^ 53 - 1) * twoTo k = greatest at *
  unfold Parts.ratio
  dsimp only
  split
  · have hpos : (0 : Int) < (twoTo (-p.scale).toNat : Nat) := Int.natCast_pos.mpr (twoTo_pos _)
    have hmantissa : p.mantissa ≤ p.mantissa * twoTo p.scale.toNat :=
      Nat.le_mul_of_pos_right _ (twoTo_pos _)
    rw [Int.fdiv_eq_ediv_of_nonneg _ hpos.le]
    refine Int.ediv_le_of_le_mul hpos ?_
    have hle : (p.mantissa : Int) ≤ greatest := by exact_mod_cast hmantissa.trans hwhole
    nlinarith
  · dsimp only
    rw [Nat.cast_one, Int.fdiv_one]
    calc _ ≤ (p.mantissa : Int) * (twoTo p.scale.toNat : Nat) :=
          mul_le_mul_of_nonneg_right hsigned (Int.natCast_nonneg _)
      _ ≤ greatest := by exact_mod_cast hwhole

theorem divideToEven_le {num den m : Nat} (h : 2 * num < (2 * m + 1) * den) :
    divideToEven num den ≤ m := by
  have hnum := Nat.div_add_mod num den
  have hq : num / den ≤ m := by
    by_contra hlt
    have hmul : den * (m + 1) ≤ den * (num / den) := Nat.mul_le_mul_left _ (by omega)
    linarith [Nat.zero_le den, Nat.zero_le (num % den)]
  unfold divideToEven
  dsimp only
  rcases hq.lt_or_eq with hlt | heq
  · repeat' split
    all_goals omega
  · rw [if_pos, heq]
    rw [heq] at hnum
    nlinarith

theorem lastPlace_whole {n : Nat} (hn : n ≠ 0) : lastPlace n 1 = n.log2 - 52 := by
  have hle : twoTo n.log2 ≤ n := Nat.log2_self_le hn
  have hestimate : max ((n.log2 : Int) - (1 : Nat).log2 - 53) (-1074) = n.log2 - 53 := by
    have hone : (1 : Nat).log2 = 0 := rfl
    omega
  have hlarge : ¬ (scaleDown n 1 (n.log2 - 53)).1 / (scaleDown n 1 (n.log2 - 53)).2 <
      twoTo 53 := by
    rw [not_lt, scaleDown]
    split
    · calc twoTo 53 = twoTo n.log2 * twoTo (-((n.log2 : Int) - 53)).toNat := by
            rw [← twoTo_add]
            congr 1
            omega
        _ ≤ _ := Nat.mul_le_mul_right _ hle
        _ = _ := (Nat.div_one _).symm
    · rw [one_mul, Nat.le_div_iff_mul_le (twoTo_pos _), ← twoTo_add]
      exact (twoTo_mono (by omega)).trans hle
  unfold lastPlace
  simp only [hestimate, if_neg hlarge]
  omega

theorem exists_roundRatio {num den n d m : Nat} {scale : Int} {negative : Bool}
    (hscale : lastPlace num den = scale) (hd : scaleDown num den scale = (n, d))
    (hm : 2 * n < (2 * m + 1) * d)
    (h : (scale + 1075).toNat * 2 ^ 52 + (m - 2 ^ 52) < 2047 * 2 ^ 52) :
    ∃ x, roundRatio negative num den = some x := by
  have hle := divideToEven_le hm
  have hplace : twoTo 52 = 2 ^ 52 := rfl
  unfold roundRatio
  simp only [hscale, hd, hplace]
  rw [if_neg]
  · exact ⟨_, rfl⟩
  · split <;> omega

theorem log2_le {n k : Nat} (hn : n ≠ 0) (hk : k = 971) (h : n ≤ (2 ^ 53 - 1) * twoTo k + 1) :
    n.log2 ≤ k + 52 := by
  have hle : twoTo n.log2 ≤ n := Nat.log2_self_le hn
  by_contra hlt
  have hpow : twoTo (53 + k) ≤ twoTo n.log2 := twoTo_mono (by omega)
  have hplace : twoTo 1 ≤ twoTo k := twoTo_mono (by omega)
  have hone : twoTo 1 = 2 := rfl
  have htwo : twoTo 53 = 2 ^ 53 := rfl
  rw [twoTo_add, htwo] at hpow
  omega

/-- A whole number that is greater by at most one than the greatest double has a nearest one. -/
theorem exists_ofInt {n k : Nat} (hk : k = 971) (h : n ≤ (2 ^ 53 - 1) * twoTo k + 1) :
    ∃ x, ofInt n = some x := by
  unfold ofInt ofRatio
  rw [Int.natAbs_natCast, Int.natAbs_one]
  rcases eq_or_ne n 0 with rfl | hn
  · exact ⟨_, rfl⟩
  have hlt : n < twoTo (n.log2 + 1) := Nat.lt_log2_self
  have hlog := log2_le hn hk h
  have hscale := lastPlace_whole hn
  by_cases hsmall : n.log2 < 52
  · have hmantissa : n * twoTo (52 - n.log2) < 2 ^ 53 := by
      calc n * twoTo (52 - n.log2) < twoTo (n.log2 + 1) * twoTo (52 - n.log2) :=
            Nat.mul_lt_mul_of_pos_right hlt (twoTo_pos _)
        _ = twoTo 53 := by
            rw [← twoTo_add]
            congr 1
            omega
    have hd : scaleDown n 1 (n.log2 - 52) = (n * twoTo (52 - n.log2), 1) := by
      rw [scaleDown, if_pos (by omega), show (-((n.log2 : Int) - 52)).toNat = 52 - n.log2 by omega]
    exact exists_roundRatio (m := 2 ^ 53) hscale hd (by omega) (by omega)
  · have hd : scaleDown n 1 (n.log2 - 52) = (n, twoTo (n.log2 - 52)) := by
      rw [scaleDown, if_neg (by omega), one_mul,
        show ((n.log2 : Int) - 52).toNat = n.log2 - 52 by omega]
    by_cases htop : n.log2 - 52 = k
    · -- one more than the greatest double is less than half a place above it
      have hhalf : twoTo 2 ≤ twoTo k := twoTo_mono (by omega)
      have hfour : twoTo 2 = 4 := rfl
      rw [htop] at hd
      exact exists_roundRatio (m := 2 ^ 53 - 1) hscale hd (by omega) (by omega)
    · rw [show n.log2 + 1 = 53 + (n.log2 - 52) by omega, twoTo_add] at hlt
      have htwo : twoTo 53 = 2 ^ 53 := rfl
      rw [htwo] at hlt
      exact exists_roundRatio (m := 2 ^ 53) hscale hd (by omega) (by omega)

end Double

theorem Number.exists_double {x : Float} {n k : Int} (h : wholeBelow x = .ok n) (h0 : 0 ≤ k)
    (hk : k ≤ n + 1) : ∃ y, double k = .ok y := by
  obtain ⟨k, rfl⟩ := Int.eq_ofNat_of_zero_le h0
  unfold wholeBelow at h
  split at h
  · rename_i m hm
    obtain rfl := Except.ok.inj h
    obtain ⟨p, hp⟩ : ∃ p, p = 971 := ⟨971, rfl⟩
    have hle := Double.floor?_le hm hp
    obtain ⟨y, hy⟩ := Double.exists_ofInt (n := k) hp (by omega)
    refine ⟨y, ?_⟩
    unfold double
    rw [hy]
  · cases h

end LazyApl
