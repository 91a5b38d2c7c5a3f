import Mathlib.Algebra.Group.Nat.Defs

namespace Scriptlet.Number

/-- The whole number nearest to `n / d`; of two that are equally near, the even one. -/
def nearest (n d : Nat) : Nat :=
  if 2 * (n % d) < d then n / d
  else if d < 2 * (n % d) then n / d + 1
  else n / d + n / d % 2

/-- The number nearest to `n` among those of at most 53 binary digits and zeros behind them. -/
def roundNat (n : Nat) : Nat :=
  nearest n (2 ^ (n.log2 - 52)) * 2 ^ (n.log2 - 52)

/-- The same for an integer, by its magnitude. -/
def roundInt (z : Int) : Int :=
  z.sign * roundNat z.natAbs

end Scriptlet.Number

namespace Scriptlet.Proofs.Rounding
open Number

variable {n m d : Nat}

section Nearest

theorem nearest_eq {q r : Nat} (hr : r < d) : nearest (q * d + r) d =
    if 2 * r < d then q else if d < 2 * r then q + 1 else q + q % 2 := by
  have hd : 0 < d := by omega
  have hmod : (q * d + r) % d = r := by rw [Nat.mul_add_mod_self_right, Nat.mod_eq_of_lt hr]
  have hdiv : (q * d + r) / d = q := by
    rw [Nat.add_comm, Nat.add_mul_div_right _ _ hd, Nat.div_eq_of_lt hr, Nat.zero_add]
  rw [nearest, hmod, hdiv]

theorem nearest_mul (q : Nat) (hd : 0 < d) : nearest (q * d) d = q := by
  have h := nearest_eq (q := q) hd
  simpa [hd] using h

theorem div_le_nearest (n d : Nat) : n / d ≤ nearest n d := by
  unfold nearest
  split
  · exact Nat.le_refl _
  · split <;> omega

theorem nearest_le_div (n d : Nat) : nearest n d ≤ n / d + 1 := by
  unfold nearest
  split
  · omega
  · split <;> omega

theorem nearest_mono (h : n ≤ m) : nearest n d ≤ nearest m d := by
  have hdiv : n / d ≤ m / d := Nat.div_le_div_right h
  rcases Nat.lt_or_eq_of_le hdiv with hlt | heq
  · have hn := nearest_le_div n d
    have hm := div_le_nearest m d
    omega
  · -- with the same quotient, the remainders are ordered as the numbers are
    have hmod : n % d ≤ m % d := by
      have hn := Nat.div_add_mod n d
      have hm := Nat.div_add_mod m d
      rw [heq] at hn
      omega
    unfold nearest
    rw [heq]
    repeat' split
    all_goals omega

theorem nearest_scale (n d : Nat) {c : Nat} (hc : 0 < c) : nearest (n * c) (d * c) = nearest n d := by
  have hlt {a b : Nat} : 2 * (a * c) < b * c ↔ 2 * a < b := by
    rw [← Nat.mul_assoc]
    exact Nat.mul_lt_mul_right hc
  have hgt {a b : Nat} : b * c < 2 * (a * c) ↔ b < 2 * a := by
    rw [← Nat.mul_assoc]
    exact Nat.mul_lt_mul_right hc
  unfold nearest
  simp only [Nat.mul_mod_mul_right, Nat.mul_div_mul_right _ _ hc, hlt, hgt]

end Nearest

section Round

theorem log2_split (h : 52 ≤ n.log2) : n.log2 = 52 + (n.log2 - 52) := by
  omega

theorem round_small (h : n < 2 ^ 53) : roundNat n = n := by
  have hshift : n.log2 - 52 = 0 := by
    by_cases hn : n = 0
    · simp [hn]
    · have := (Nat.log2_lt hn).mpr h
      omega
  have hexact := nearest_mul n Nat.one_pos
  simp only [Nat.mul_one] at hexact
  rw [roundNat, hshift, Nat.pow_zero, hexact, Nat.mul_one]

theorem precision_le_nearest (hn : n ≠ 0) (hlog : 52 ≤ n.log2) : 2 ^ 52 ≤ nearest n (2 ^ (n.log2 - 52)) := by
  have hquotient : 2 ^ 52 ≤ n / 2 ^ (n.log2 - 52) := by
    rw [Nat.le_div_iff_mul_le (Nat.two_pow_pos _), ← Nat.pow_add, ← log2_split hlog]
    exact Nat.log2_self_le hn
  exact Nat.le_trans hquotient (div_le_nearest n _)

theorem pow_log2_le_round (hn : n ≠ 0) : 2 ^ n.log2 ≤ roundNat n := by
  by_cases hsmall : n < 2 ^ 53
  · rw [round_small hsmall]
    exact Nat.log2_self_le hn
  · have hlog : 52 ≤ n.log2 := (Nat.le_log2 hn).mpr (by omega)
    have hpow : 2 ^ n.log2 = 2 ^ 52 * 2 ^ (n.log2 - 52) := by
      rw [← Nat.pow_add, ← log2_split hlog]
    rw [hpow]
    exact Nat.mul_le_mul_right _ (precision_le_nearest hn hlog)

theorem nearest_le_precision (n : Nat) : nearest n (2 ^ (n.log2 - 52)) ≤ 2 ^ 53 := by
  have hbound : n ≤ 2 ^ 53 * 2 ^ (n.log2 - 52) := by
    rw [← Nat.pow_add]
    exact Nat.le_trans (Nat.le_of_lt Nat.lt_log2_self) (Nat.pow_le_pow_right (by decide) (by omega))
  have h := nearest_mono (d := 2 ^ (n.log2 - 52)) hbound
  rwa [nearest_mul _ (Nat.two_pow_pos _)] at h

theorem round_le_pow_log2 (n : Nat) : roundNat n ≤ 2 ^ (n.log2 + 1) := by
  by_cases hsmall : n < 2 ^ 53
  · rw [round_small hsmall]
    exact Nat.le_of_lt Nat.lt_log2_self
  · have hlog : 52 ≤ n.log2 := (Nat.le_log2 (by omega)).mpr (by omega)
    have hpow : 2 ^ (n.log2 + 1) = 2 ^ 53 * 2 ^ (n.log2 - 52) := by
      rw [← Nat.pow_add]
      congr 1
      omega
    rw [hpow]
    exact Nat.mul_le_mul_right _ (nearest_le_precision n)

/-- Rounding keeps the order: within one power of two since the quotients do, and from one to another since a
power of two lies between. -/
theorem round_mono (h : n ≤ m) : roundNat n ≤ roundNat m := by
  by_cases hn : n = 0
  · simp [hn, round_small]
  have hm : m ≠ 0 := by omega
  have hlog : n.log2 ≤ m.log2 := (Nat.le_log2 hm).mpr (Nat.le_trans (Nat.log2_self_le hn) h)
  rcases Nat.lt_or_eq_of_le hlog with hlt | heq
  · calc
      roundNat n ≤ 2 ^ (n.log2 + 1) := round_le_pow_log2 n
      _ ≤ 2 ^ m.log2 := Nat.pow_le_pow_right (by decide) hlt
      _ ≤ roundNat m := pow_log2_le_round hm
  · unfold roundNat
    rw [heq]
    exact Nat.mul_le_mul_right _ (nearest_mono h)

/-- A number of at most 53 binary digits with zeros behind them stays as it is. -/
theorem round_exact {j : Nat} (hm : m ≤ 2 ^ 53) : roundNat (m * 2 ^ j) = m * 2 ^ j := by
  by_cases hzero : m * 2 ^ j = 0
  · rw [hzero]
    exact round_small (by decide)
  have hdvd : 2 ^ ((m * 2 ^ j).log2 - 52) ∣ m * 2 ^ j := by
    rcases Nat.lt_or_eq_of_le hm with hlt | rfl
    · have hlog : (m * 2 ^ j).log2 < 53 + j := by
        rw [Nat.log2_lt hzero, Nat.pow_add]
        exact Nat.mul_lt_mul_of_pos_right hlt (Nat.two_pow_pos j)
      exact Nat.dvd_trans (Nat.pow_dvd_pow 2 (by omega)) (Nat.dvd_mul_left _ _)
    · rw [← Nat.pow_add, Nat.log2_two_pow]
      exact Nat.pow_dvd_pow 2 (by omega)
  obtain ⟨q, hq⟩ := hdvd
  unfold roundNat
  generalize (m * 2 ^ j).log2 - 52 = s at hq
  rw [hq, Nat.mul_comm (2 ^ s) q, nearest_mul q (Nat.two_pow_pos _)]

end Round

section Integers

theorem roundInt_natCast (n : Nat) : roundInt n = roundNat n := by
  unfold roundInt
  rw [Int.natAbs_natCast]
  by_cases hn : n = 0
  · simp [hn, round_small]
  · rw [Int.sign_eq_one_of_pos (by omega), Int.one_mul]

theorem roundInt_neg (z : Int) : roundInt (-z) = -roundInt z := by
  rw [roundInt, roundInt, Int.sign_neg, Int.natAbs_neg, Int.neg_mul]

theorem roundInt_nonneg {z : Int} (h : 0 ≤ z) : 0 ≤ roundInt z := by
  obtain ⟨n, rfl⟩ := Int.eq_ofNat_of_zero_le h
  rw [roundInt_natCast]
  exact Int.natCast_nonneg _

theorem roundInt_mono {y z : Int} (h : y ≤ z) : roundInt y ≤ roundInt z := by
  rcases Int.le_total 0 y with hy | hy
  · obtain ⟨n, rfl⟩ := Int.eq_ofNat_of_zero_le hy
    obtain ⟨m, rfl⟩ := Int.eq_ofNat_of_zero_le (Int.le_trans hy h)
    rw [roundInt_natCast, roundInt_natCast]
    exact Int.ofNat_le.mpr (round_mono (Int.ofNat_le.mp h))
  · have hnegative : roundInt y ≤ 0 := by
      have := roundInt_nonneg (z := -y) (by omega)
      rw [roundInt_neg] at this
      omega
    rcases Int.le_total 0 z with hz | hz
    · exact Int.le_trans hnegative (roundInt_nonneg hz)
    · obtain ⟨n, hn⟩ := Int.eq_ofNat_of_zero_le (show 0 ≤ -y by omega)
      obtain ⟨m, hm⟩ := Int.eq_ofNat_of_zero_le (show 0 ≤ -z by omega)
      have hround : roundNat m ≤ roundNat n := round_mono (by omega)
      have hy : roundInt y = -(roundNat n : Int) := by
        rw [← roundInt_natCast, ← hn, roundInt_neg, Int.neg_neg]
      have hz : roundInt z = -(roundNat m : Int) := by
        rw [← roundInt_natCast, ← hm, roundInt_neg, Int.neg_neg]
      omega

end Integers

end Scriptlet.Proofs.Rounding
