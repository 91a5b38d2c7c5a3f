import Mathlib
import Scriptlet.Proofs.Rounding

-- The library's lemmas on the bits of doubles come only with the whole of it.
namespace Scriptlet.Number
open Float.Model (UnpackedFloat)

/-- `mantissa · 2 ^ exponent` in units of `2 ^ -1074`, for exponents from `-1074` on. -/
def scaled (mantissa : Nat) (exponent : Int) : Nat :=
  mantissa * 2 ^ (exponent + 1074).toNat

/-- What an infinity counts, more than any finite double: `2 ^ 1024`. -/
@[irreducible]
def ceiling : Nat := scaled 1 1024

/-- The parts of a double in units of the smallest one. What is not a number counts nothing. -/
def unitsOf : UnpackedFloat → Int
  | .infinity s => s.apply ceiling
  | .notANumber => 0
  | .zero _ => 0
  | .finite s m e _ => s.apply (scaled m e)

/-- A double in units of the smallest one, `2 ^ -1074`, of which every finite double is a whole number.
Counted so, the order of doubles is that of integers. -/
def units (x : Float) : Int :=
  unitsOf x.toModel.unpack

/-- An integer held back at the infinities. -/
def held (z : Int) : Int :=
  max (-ceiling) (min ceiling z)

end Scriptlet.Number

namespace Scriptlet.Proofs.Doubles
open Number Rounding Float.Model
open Float.Model.UnpackedFloat (Sign ExtendedMantissa)

/-- The parts as rounding leaves them: 53 digits, or fewer with the least exponent. -/
structure Canonical (m : Nat) (e : Int) : Prop where
  lt : m < 2 ^ 53
  least : -1074 ≤ e
  full : 2 ^ 52 ≤ m ∨ e = -1074

/-- What rounding gives, before the exponent is held back. -/
def Rounded : UnpackedFloat → Prop
  | .finite _ m e _ => Canonical m e
  | _ => True

/-- What a double unpacks to. -/
def Fitting : UnpackedFloat → Prop
  | .finite _ m e _ => Canonical m e ∧ e ≤ 971
  | _ => True

variable {m m₁ m₂ : Nat} {e e₁ e₂ : Int} {u v : UnpackedFloat}

section Order

theorem scaled_pos (hm : 0 < m) : 0 < scaled m e :=
  Nat.mul_pos hm (Nat.two_pow_pos _)

theorem scaled_lt_scaled (h₁ : Canonical m₁ e₁) (h₂ : Canonical m₂ e₂) (he : e₁ < e₂) :
    scaled m₁ e₁ < scaled m₂ e₂ := by
  have hfull : 2 ^ 52 ≤ m₂ := by
    rcases h₂.full with h | h
    · exact h
    · have := h₁.least
      omega
  have hstep : (e₁ + 1074).toNat + 1 ≤ (e₂ + 1074).toNat := by
    have := h₁.least
    omega
  calc
    scaled m₁ e₁ < 2 ^ 53 * 2 ^ (e₁ + 1074).toNat := Nat.mul_lt_mul_of_pos_right h₁.lt (Nat.two_pow_pos _)
    _ = 2 ^ 52 * 2 ^ ((e₁ + 1074).toNat + 1) := by rw [← Nat.pow_add, ← Nat.pow_add]; congr 1; omega
    _ ≤ scaled m₂ e₂ := Nat.mul_le_mul hfull (Nat.pow_le_pow_right (by decide) hstep)

theorem scaled_lt_of_lt (h : m₁ < m₂) : scaled m₁ e < scaled m₂ e :=
  Nat.mul_lt_mul_of_pos_right h (Nat.two_pow_pos _)

theorem compare_scaled (h₁ : Canonical m₁ e₁) (h₂ : Canonical m₂ e₂) :
    (compare e₁ e₂).then (compare m₁ m₂) = compare (scaled m₁ e₁ : Int) (scaled m₂ e₂) := by
  rcases lt_trichotomy e₁ e₂ with he | rfl | he
  · have hlt := Int.ofNat_lt.mpr (scaled_lt_scaled h₁ h₂ he)
    rw [compare_lt_iff_lt.mpr he, compare_lt_iff_lt.mpr hlt]
    rfl
  · -- with one exponent the mantissas decide
    rw [compare_eq_iff_eq.mpr rfl]
    rcases lt_trichotomy m₁ m₂ with hm | rfl | hm
    · have hlt := Int.ofNat_lt.mpr (scaled_lt_of_lt (e := e₁) hm)
      rw [compare_lt_iff_lt.mpr hm, compare_lt_iff_lt.mpr hlt]
      rfl
    · rw [compare_eq_iff_eq.mpr rfl, compare_eq_iff_eq.mpr rfl]
      rfl
    · have hlt := Int.ofNat_lt.mpr (scaled_lt_of_lt (e := e₁) hm)
      rw [compare_gt_iff_gt.mpr hm, compare_gt_iff_gt.mpr hlt]
      rfl
  · have hlt := Int.ofNat_lt.mpr (scaled_lt_scaled h₂ h₁ he)
    rw [compare_gt_iff_gt.mpr he, compare_gt_iff_gt.mpr hlt]
    rfl

theorem scaled_lt_ceiling (h : Canonical m e) (he : e ≤ 971) : scaled m e < ceiling := by
  calc
    scaled m e < 2 ^ 53 * 2 ^ (e + 1074).toNat := Nat.mul_lt_mul_of_pos_right h.lt (Nat.two_pow_pos _)
    _ = 1 * 2 ^ (53 + (e + 1074).toNat) := by rw [Nat.one_mul, Nat.pow_add]
    _ ≤ ceiling := by
      unfold ceiling
      exact Nat.mul_le_mul_left _ (Nat.pow_le_pow_right (by decide) (by omega))

theorem ceiling_le_scaled (h : Canonical m e) (he : 971 < e) : ceiling ≤ scaled m e := by
  have hfull : 2 ^ 52 ≤ m := h.full.resolve_right (by omega)
  calc
    ceiling ≤ 1 * 2 ^ (52 + (e + 1074).toNat) := by
      unfold ceiling
      exact Nat.mul_le_mul_left _ (Nat.pow_le_pow_right (by decide) (by omega))
    _ = 2 ^ 52 * 2 ^ (e + 1074).toNat := by rw [Nat.one_mul, Nat.pow_add]
    _ ≤ scaled m e := Nat.mul_le_mul_right _ hfull

theorem ceiling_pos : 0 < ceiling := by
  unfold ceiling
  exact scaled_pos Nat.one_pos

theorem compare_neg (a b : Int) : compare (-a) (-b) = (compare a b).swap := by
  rcases lt_trichotomy a b with h | rfl | h
  · rw [compare_lt_iff_lt.mpr h, compare_gt_iff_gt.mpr (Int.neg_lt_neg h)]
    rfl
  · rw [compare_eq_iff_eq.mpr rfl, compare_eq_iff_eq.mpr rfl]
    rfl
  · rw [compare_gt_iff_gt.mpr h, compare_lt_iff_lt.mpr (Int.neg_lt_neg h)]
    rfl

/-- The parts of a double lie strictly between those of the infinities. -/
theorem finite_range {s : Sign} (hm : 0 < m) (h : Fitting (.finite s m e hm)) :
    0 < scaled m e ∧ scaled m e < ceiling :=
  ⟨scaled_pos hm, scaled_lt_ceiling h.1 h.2⟩

theorem some_lt {a b : Int} (h : a < b) : some Ordering.lt = some (compare a b) := by
  rw [compare_lt_iff_lt.mpr h]

theorem some_gt {a b : Int} (h : b < a) : some Ordering.gt = some (compare a b) := by
  rw [compare_gt_iff_gt.mpr h]

/-- The order of two doubles is that of their units. -/
theorem compare_units (hu : Fitting u) (hv : Fitting v) (hu' : u ≠ .notANumber) (hv' : v ≠ .notANumber) :
    u.compare v = some (compare (unitsOf u) (unitsOf v)) := by
  have hceiling := ceiling_pos
  cases u with
  | notANumber => exact absurd rfl hu'
  | infinity s =>
    cases v with
    | notANumber => exact absurd rfl hv'
    | infinity t =>
      cases s <;> cases t
      all_goals simp only [UnpackedFloat.compare, unitsOf, Sign.apply]
      · rw [compare_eq_iff_eq.mpr rfl]
        rfl
      · exact some_lt (by omega)
      · exact some_gt (by omega)
      · rw [compare_eq_iff_eq.mpr rfl]
        rfl
    | zero t =>
      cases s
      all_goals simp only [UnpackedFloat.compare, unitsOf, Sign.apply]
      · exact some_lt (by omega)
      · exact some_gt (by omega)
    | finite t n f hn =>
      have hrange := finite_range hn hv
      cases s <;> cases t
      all_goals simp only [UnpackedFloat.compare, unitsOf, Sign.apply]
      · exact some_lt (by omega)
      · exact some_lt (by omega)
      · exact some_gt (by omega)
      · exact some_gt (by omega)
  | zero s =>
    cases v with
    | notANumber => exact absurd rfl hv'
    | infinity t =>
      cases t
      all_goals simp only [UnpackedFloat.compare, unitsOf, Sign.apply]
      · exact some_gt (by omega)
      · exact some_lt (by omega)
    | zero t => rfl
    | finite t n f hn =>
      have hrange := finite_range hn hv
      cases t
      all_goals simp only [UnpackedFloat.compare, unitsOf, Sign.apply]
      · exact some_gt (by omega)
      · exact some_lt (by omega)
  | finite s m e hm =>
    have hrange := finite_range hm hu
    cases v with
    | notANumber => exact absurd rfl hv'
    | infinity t =>
      cases s <;> cases t
      all_goals simp only [UnpackedFloat.compare, unitsOf, Sign.apply]
      · exact some_gt (by omega)
      · exact some_lt (by omega)
      · exact some_gt (by omega)
      · exact some_lt (by omega)
    | zero t =>
      cases s
      all_goals simp only [UnpackedFloat.compare, unitsOf, Sign.apply]
      · exact some_lt (by omega)
      · exact some_gt (by omega)
    | finite t n f hn =>
      have hrange' := finite_range hn hv
      have hcompare := compare_scaled hu.1 hv.1
      cases s <;> cases t
      all_goals simp only [UnpackedFloat.compare, unitsOf, Sign.apply]
      · rw [hcompare, compare_neg]
      · exact some_lt (by omega)
      · exact some_gt (by omega)
      · rw [hcompare]

end Order

section Packing

/-- The bits of a mantissa below the implicit one, put back under it. -/
theorem implicit_toNat (b : BitVec 52) : (1#1 ++ b).toNat = 2 ^ 52 + b.toNat := by
  have h := Nat.two_pow_add_eq_or_of_lt b.isLt 1
  rw [BitVec.toNat_append, Nat.mul_one] at *
  exact h.symm

theorem fitting_unpack (w : Float.Model) : Fitting w.unpack := by
  have hmantissa : (@UnpackedFloat.unpackMantissa Format.binary64 w.toBits.toBitVec).toNat < 2 ^ 52 :=
    BitVec.isLt _
  have hexponent : (@UnpackedFloat.unpackExponent Format.binary64 w.toBits.toBitVec).toNat < 2 ^ 11 :=
    BitVec.isLt _
  unfold Float.Model.unpack UnpackedFloat.unpack
  dsimp only
  split
  · split <;> trivial
  · rename_i hlast
    split
    · rename_i hfirst
      split
      · trivial
      · refine ⟨⟨?_, ?_, .inr ?_⟩, ?_⟩
        · exact Nat.lt_trans hmantissa (by decide)
        all_goals simp [hfirst, Format.exponentBias]
    · rename_i hfirst
      have hpos : (@UnpackedFloat.unpackExponent Format.binary64 w.toBits.toBitVec).toNat ≠ 0 :=
        fun h => hfirst (BitVec.eq_of_toNat_eq h)
      have hlt : (@UnpackedFloat.unpackExponent Format.binary64 w.toBits.toBitVec).toNat ≠ 2047 :=
        fun h => hlast (BitVec.eq_of_toNat_eq h)
      refine ⟨⟨?_, ?_, .inl ?_⟩, ?_⟩
      · rw [implicit_toNat]
        omega
      · simp [Format.exponentBias]
        omega
      · rw [implicit_toNat]
        omega
      · simp [Format.exponentBias]
        omega

theorem unpack_pack_infinity (s : Sign) : (Float.Model.pack (.infinity s)).unpack = .infinity s := by
  cases s <;> rfl

theorem unpack_pack_zero (s : Sign) : (Float.Model.pack (.zero s)).unpack = .zero s := by
  cases s <;> rfl

/-- An exponent that is too large leaves an infinity. -/
theorem unpack_pack_overflow {s : Sign} (hm : 0 < m) (he : 971 < e) :
    (Float.Model.pack (.finite s m e hm)).unpack = .infinity s := by
  have hbig : 2 ^ 11 ≤ (e + 1023 + 52).toNat + 1 := by omega
  have hpack : Float.Model.pack (.finite s m e hm) = Float.Model.pack (.infinity s) := by
    unfold Float.Model.pack
    congr 2
    simp only [UnpackedFloat.pack, Format.exponentBias]
    exact if_pos hbig
  rw [hpack, unpack_pack_infinity]

/-- Digits below the implicit one come back as they are. -/
theorem unpack_pack_subnormal {s : Sign} (hm : 0 < m) (h : m < 2 ^ 52) :
    (Float.Model.pack (.finite s m (-1074) hm)).unpack = .finite s m (-1074) hm := by
  have hlog : m.log2 + 1 ≠ 53 := by
    have := (Nat.log2_lt (Nat.ne_of_gt hm)).mpr h
    omega
  have hbits : (BitVec.ofNat 52 m).toNat = m := by
    rw [BitVec.toNat_ofNat, Nat.mod_eq_of_lt h]
  have hne : BitVec.ofNat 52 m ≠ 0#52 := by
    intro hzero
    rw [hzero] at hbits
    exact Nat.ne_of_lt hm hbits
  have hpack : UnpackedFloat.pack Format.binary64 (.finite s m (-1074) hm) =
      UnpackedFloat.packComponents Format.binary64 s 0#11 (BitVec.ofNat 52 m) := by
    simp only [UnpackedFloat.pack, Format.exponentBias, Format.mantissaBits]
    exact (if_neg (by decide)).trans (if_neg hlog)
  unfold Float.Model.unpack Float.Model.pack
  simp only [hpack, UnpackedFloat.unpack, UnpackedFloat.unpackExponent_packComponents,
    UnpackedFloat.unpackMantissa_packComponents, UnpackedFloat.unpackSign_packComponents,
    Sign.ofBitVec_toBitVec]
  simp [hne, hbits, Format.exponentBias]

/-- With the implicit digit, the field holds the digits under it. -/
theorem unpack_pack_normal {s : Sign} (hm : 0 < m) (h : Canonical m e) (hfull : 2 ^ 52 ≤ m) (he : e ≤ 971) :
    (Float.Model.pack (.finite s m e hm)).unpack = .finite s m e hm := by
  have hlt := h.lt
  have hleast := h.least
  have hlog : m.log2 + 1 = 53 := by
    rw [(Nat.log2_eq_iff (Nat.ne_of_gt hm)).mpr ⟨hfull, hlt⟩]
  have hbits : (BitVec.ofNat 52 m).toNat = m - 2 ^ 52 := by
    rw [BitVec.toNat_ofNat]
    omega
  have hfield : (BitVec.ofNat 11 (e + 1023 + 52).toNat).toNat = (e + 1075).toNat := by
    rw [BitVec.toNat_ofNat]
    omega
  have hlast : BitVec.ofNat 11 (e + 1023 + 52).toNat ≠ -1#11 := by
    intro heq
    rw [heq] at hfield
    change 2047 = _ at hfield
    omega
  have hfirst : BitVec.ofNat 11 (e + 1023 + 52).toNat ≠ 0#11 := by
    intro heq
    rw [heq] at hfield
    change 0 = _ at hfield
    omega
  have hpack : UnpackedFloat.pack Format.binary64 (.finite s m e hm) =
      UnpackedFloat.packComponents Format.binary64 s (BitVec.ofNat 11 (e + 1023 + 52).toNat)
        (BitVec.ofNat 52 m) := by
    simp only [UnpackedFloat.pack, Format.exponentBias, Format.mantissaBits]
    exact (if_neg (by omega)).trans (if_pos hlog)
  unfold Float.Model.unpack Float.Model.pack
  simp only [hpack, UnpackedFloat.unpack, UnpackedFloat.unpackExponent_packComponents,
    UnpackedFloat.unpackMantissa_packComponents, UnpackedFloat.unpackSign_packComponents,
    Sign.ofBitVec_toBitVec]
  rw [if_neg hlast, if_neg hfirst]
  congr 1
  · rw [implicit_toNat, hbits]
    omega
  · rw [hfield]
    simp [Format.exponentBias]
    omega

theorem unpack_pack_finite {s : Sign} (hm : 0 < m) (h : Canonical m e) (he : e ≤ 971) :
    (Float.Model.pack (.finite s m e hm)).unpack = .finite s m e hm := by
  by_cases hfull : 2 ^ 52 ≤ m
  · exact unpack_pack_normal hm h hfull he
  · obtain rfl := h.full.resolve_left hfull
    exact unpack_pack_subnormal hm (by omega)

end Packing

section Shifting

/-- A shifted mantissa is the quotient by `d`; its two bits tell how twice the rest compares with `d`. -/
def Holds (em : ExtendedMantissa) (n d : Nat) : Prop :=
  ∃ r < d, n = em.mantissa * d + r ∧ (em.roundBit ↔ d ≤ 2 * r) ∧ (em.stickyBit ↔ r ≠ 0 ∧ 2 * r ≠ d)

theorem holds_start (n : Nat) : Holds ⟨n, false, false⟩ n 1 :=
  ⟨0, Nat.one_pos, by simp, by simp, by simp⟩

theorem holds_shiftRightOne {em : ExtendedMantissa} {n d : Nat} (h : Holds em n d) :
    Holds em.shiftRightOne n (2 * d) := by
  obtain ⟨r, hr, hn, hround, hsticky⟩ := h
  have hmantissa := Nat.div_add_mod em.mantissa 2
  have hvalue : n = em.mantissa / 2 * (2 * d) + (em.mantissa % 2 * d + r) := by
    rw [hn, ← Nat.add_assoc, ← Nat.mul_assoc, ← Nat.add_mul, Nat.mul_comm _ 2, hmantissa]
  -- the digit that leaves the mantissa is the upper half of the new rest
  rcases Nat.mod_two_eq_zero_or_one em.mantissa with hdigit | hdigit
  · rw [hdigit, Nat.zero_mul, Nat.zero_add] at hvalue
    refine ⟨r, by omega, hvalue, ?_, ?_⟩
    · simp only [ExtendedMantissa.shiftRightOne, hdigit]
      simp
      omega
    · simp only [ExtendedMantissa.shiftRightOne, Bool.or_eq_true, hround, hsticky]
      omega
  · rw [hdigit, Nat.one_mul] at hvalue
    refine ⟨d + r, by omega, hvalue, ?_, ?_⟩
    · simp only [ExtendedMantissa.shiftRightOne, hdigit]
      simp
    · simp only [ExtendedMantissa.shiftRightOne, Bool.or_eq_true, hround, hsticky]
      omega

theorem holds_shift (n k : Nat) : Holds ((⟨n, false, false⟩ : ExtendedMantissa) >>> k) n (2 ^ k) := by
  induction k with
  | zero => exact holds_start n
  | succ k ih =>
    rw [Nat.pow_succ, Nat.mul_comm]
    exact holds_shiftRightOne ih

theorem roundedMantissa_eq {em : ExtendedMantissa} {n d : Nat} (h : Holds em n d) :
    em.roundedMantissa = nearest n d := by
  obtain ⟨r, hr, hn, hround, hsticky⟩ := h
  rw [hn, nearest_eq hr]
  obtain ⟨q, round, sticky⟩ := em
  cases round <;> cases sticky <;> simp only [Bool.false_eq_true, false_iff, true_iff] at hround hsticky
  · exact (if_pos (by omega)).symm
  · exact (if_pos (by omega)).symm
  · rw [if_neg (by omega), if_neg (by omega)]
    rfl
  · rw [if_neg (by omega), if_pos (by omega)]
    rfl

end Shifting

section Round

theorem targetExponent_eq (m : Nat) (e : Int) :
    Format.binary64.targetExponent (totalExponent m e) = max (m.log2 + e - 52) (-1074) := by
  simp only [Format.targetExponent, totalExponent, Format.mantissaBits, Format.minExponent]
  omega

theorem shiftToTargetExponent_eq (m : Nat) (e : Int) {k : Nat}
    (hk : (max (m.log2 + e - 52) (-1074) - e).toNat = k) :
    UnpackedFloat.shiftToTargetExponent Format.binary64 m e .exact =
      ((⟨m, false, false⟩ : ExtendedMantissa) >>> k, e + k) := by
  simp only [UnpackedFloat.shiftToTargetExponent, UnpackedFloat.shiftToExponent, targetExponent_eq, hk]
  rfl

theorem log2_le_of_lt (h : m < 2 ^ 53) : m.log2 ≤ 52 := by
  by_cases hm : m = 0
  · simp [hm]
  · exact Nat.le_of_lt_succ ((Nat.log2_lt hm).mpr h)

/-- Digits that fit stay as they are. -/
theorem roundWithAccuracy_canonical {s : Sign} (hm : 0 < m) (h : Canonical m e) :
    UnpackedFloat.roundWithAccuracy Format.binary64 s m e .exact = .finite s m e hm := by
  have hshift := shiftToTargetExponent_eq m e (k := 0) (by
    have := log2_le_of_lt h.lt
    have := h.least
    omega)
  have hexponent : e + ((0 : Nat) : Int) = e := by simp
  have hrounded : (ExtendedMantissa.mk m false false >>> 0).roundedMantissa = m := rfl
  simp only [UnpackedFloat.roundWithAccuracy, hshift, hexponent, hrounded]
  exact dif_neg (Nat.ne_of_gt hm)

/-- Digits that do not fit are rounded; when that gives a digit more, the exponent takes it. -/
theorem roundWithAccuracy_long {s : Sign} (hlog : 52 < m.log2) (he : -1074 ≤ e) :
    ∃ m' e' hm', UnpackedFloat.roundWithAccuracy Format.binary64 s m e .exact = .finite s m' e' hm' ∧
      Canonical m' e' ∧ scaled m' e' = scaled (nearest m (2 ^ (m.log2 - 52))) (e + (m.log2 - 52 : Nat)) := by
  have hm : m ≠ 0 := by
    rintro rfl
    simp at hlog
  have hshift := shiftToTargetExponent_eq m e (k := m.log2 - 52) (by omega)
  have hrounded := roundedMantissa_eq (holds_shift m (m.log2 - 52))
  have hlow := precision_le_nearest hm (Nat.le_of_lt hlog)
  have hhigh := nearest_le_precision m
  generalize nearest m (2 ^ (m.log2 - 52)) = q at hrounded hlow hhigh
  generalize m.log2 - 52 = k at hshift hrounded
  rcases Nat.lt_or_eq_of_le hhigh with hlt | rfl
  · have hcanonical : Canonical q (e + k) := ⟨hlt, by omega, .inl hlow⟩
    have hsecond := shiftToTargetExponent_eq q (e + k) (k := 0) (by
      have := log2_le_of_lt hlt
      omega)
    refine ⟨q, e + k, by omega, ?_, hcanonical, rfl⟩
    have hexponent : e + k + ((0 : Nat) : Int) = e + k := by simp
    simp only [UnpackedFloat.roundWithAccuracy, hshift, hrounded, hsecond, hexponent]
    exact dif_neg (by change q ≠ 0; omega)
  · have hsecond := shiftToTargetExponent_eq (2 ^ 53) (e + k) (k := 1) (by
      rw [Nat.log2_two_pow]
      omega)
    refine ⟨2 ^ 52, e + k + 1, by decide, ?_, ⟨by decide, by omega, .inl (Nat.le_refl _)⟩, ?_⟩
    · simp only [UnpackedFloat.roundWithAccuracy, hshift, hrounded, hsecond]
      rfl
    · have hstep : (e + k + 1 + 1074).toNat = (e + k + 1074).toNat + 1 := by omega
      rw [scaled, scaled, hstep, Nat.pow_succ]
      omega

theorem scaled_shift {j : Nat} (hj : (j : Int) = e₁ - e₂) (he : -1074 ≤ e₂) :
    scaled (m * 2 ^ j) e₂ = scaled m e₁ := by
  have hsum : j + (e₂ + 1074).toNat = (e₁ + 1074).toNat := by omega
  rw [scaled, scaled, Nat.mul_assoc, ← Nat.pow_add, hsum]

theorem log2_scaled (hm : m ≠ 0) : (scaled m e).log2 = m.log2 + (e + 1074).toNat := by
  have hpos : 0 < 2 ^ (e + 1074).toNat := Nat.two_pow_pos _
  rw [Nat.log2_eq_iff (Nat.ne_of_gt (scaled_pos (Nat.pos_of_ne_zero hm)))]
  constructor
  · rw [Nat.pow_add]
    exact Nat.mul_le_mul_right _ (Nat.log2_self_le hm)
  · rw [Nat.add_right_comm, Nat.pow_add]
    exact Nat.mul_lt_mul_of_pos_right Nat.lt_log2_self hpos

theorem round_scaled (hm : m ≠ 0) (hlog : 52 < m.log2) (he : -1074 ≤ e) :
    roundNat (scaled m e) = scaled (nearest m (2 ^ (m.log2 - 52))) (e + (m.log2 - 52 : Nat)) := by
  have hshift : (scaled m e).log2 - 52 = m.log2 - 52 + (e + 1074).toNat := by
    rw [log2_scaled hm]
    omega
  have hexponent : (e + (m.log2 - 52 : Nat) + 1074).toNat = m.log2 - 52 + (e + 1074).toNat := by omega
  rw [roundNat, hshift, scaled, scaled, hexponent, Nat.pow_add, nearest_scale _ _ (Nat.two_pow_pos _)]

/-- Digits that fit move up until the first one stands in place 53, or the exponent is the least. -/
theorem canonical_decreased (hm : 0 < m) (hlog : m.log2 ≤ 52) :
    Canonical (m * 2 ^ (e - max (m.log2 + e - 52) (-1074)).toNat) (max (m.log2 + e - 52) (-1074)) := by
  have hlow := Nat.log2_self_le (Nat.ne_of_gt hm)
  have hhigh := Nat.lt_log2_self (n := m)
  refine ⟨?_, by omega, ?_⟩
  · calc
      m * 2 ^ (e - max (m.log2 + e - 52) (-1074)).toNat
        < 2 ^ (m.log2 + 1) * 2 ^ (e - max (m.log2 + e - 52) (-1074)).toNat :=
          Nat.mul_lt_mul_of_pos_right hhigh (Nat.two_pow_pos _)
      _ ≤ 2 ^ 53 := by
          rw [← Nat.pow_add]
          exact Nat.pow_le_pow_right (by decide) (by omega)
  · rcases Int.le_total (m.log2 + e - 52) (-1074) with hleast | hfull
    · exact .inr (Int.max_eq_right hleast)
    · left
      calc
        2 ^ 52 = 2 ^ m.log2 * 2 ^ (e - max (m.log2 + e - 52) (-1074)).toNat := by
          rw [← Nat.pow_add]
          congr 1
          omega
        _ ≤ m * 2 ^ (e - max (m.log2 + e - 52) (-1074)).toNat := Nat.mul_le_mul_right _ hlow

/-- Rounding the parts of a number rounds the number. -/
theorem round_parts (s : Sign) (hm : 0 < m) (he : -1074 ≤ e) :
    ∃ m' e' hm', UnpackedFloat.round Format.binary64 s m e = .finite s m' e' hm' ∧
      Canonical m' e' ∧ scaled m' e' = roundNat (scaled m e) := by
  rcases Nat.lt_or_ge 52 m.log2 with hlog | hlog
  · obtain ⟨m', e', hm', heq, hcanonical, hvalue⟩ := roundWithAccuracy_long (s := s) hlog he
    refine ⟨m', e', hm', ?_, hcanonical, ?_⟩
    · have hshift : (e - max (m.log2 + e - 52) (-1074)).toNat = 0 := by omega
      simpa [UnpackedFloat.round, UnpackedFloat.decreaseExponent, targetExponent_eq, hshift] using heq
    · rw [hvalue, round_scaled (Nat.ne_of_gt hm) hlog he]
  · have hcanonical := canonical_decreased (e := e) hm hlog
    have hshift : (((e - max (m.log2 + e - 52) (-1074)).toNat : Nat) : Int) =
        e - max (m.log2 + e - 52) (-1074) := by
      omega
    have hpos : 0 < m * 2 ^ (e - max (m.log2 + e - 52) (-1074)).toNat := Nat.mul_pos hm (Nat.two_pow_pos _)
    have hvalue := scaled_shift (m := m) hshift hcanonical.least
    refine ⟨_, _, hpos, ?_, hcanonical, ?_⟩
    · rw [← roundWithAccuracy_canonical hpos hcanonical]
      simp only [UnpackedFloat.round, UnpackedFloat.decreaseExponent, targetExponent_eq,
        Nat.shiftLeft_eq, hshift]
      congr 1
      omega
    · rw [← hvalue]
      exact (round_exact (Nat.le_of_lt hcanonical.lt)).symm

end Round

section Sum

/-- A rounded finite number of so many units. -/
structure Counts (u : UnpackedFloat) (z : Int) : Prop where
  rounded : Rounded u
  finite : u.isFinite = true
  units : unitsOf u = z

theorem counts_zero (s : Sign) : Counts (.zero s) 0 :=
  ⟨trivial, rfl, rfl⟩

theorem counts_finite {s : Sign} (hm : 0 < m) (h : Canonical m e) :
    Counts (.finite s m e hm) (s.apply (scaled m e)) :=
  ⟨h, rfl, rfl⟩

theorem roundInt_apply (s : Sign) (n : Nat) : roundInt (s.apply n) = s.apply (roundNat n) := by
  cases s
  · rw [Sign.apply, roundInt_neg, roundInt_natCast]
    rfl
  · exact roundInt_natCast n

theorem roundInt_canonical {s : Sign} (h : Canonical m e) :
    roundInt (s.apply (scaled m e)) = s.apply (scaled m e) := by
  rw [roundInt_apply, scaled, round_exact (Nat.le_of_lt h.lt)]

theorem counts_round (s : Sign) (hm : 0 < m) (he : -1074 ≤ e) :
    Counts (UnpackedFloat.round Format.binary64 s m e) (roundInt (s.apply (scaled m e))) := by
  obtain ⟨m', e', hm', heq, hcanonical, hvalue⟩ := round_parts s hm he
  rw [heq, roundInt_apply, ← hvalue]
  exact counts_finite hm' hcanonical

theorem counts_normalize (z : Int) (s : Sign) (he : -1074 ≤ e) :
    Counts (UnpackedFloat.normalize Format.binary64 z e s) (roundInt (z * 2 ^ (e + 1074).toNat)) := by
  rcases lt_trichotomy z 0 with hz | rfl | hz
  · obtain ⟨n, rfl⟩ : ∃ n : Nat, z = -n := ⟨z.natAbs, by omega⟩
    have h := counts_round (m := n) .negative (by omega) he
    simp only [UnpackedFloat.normalize, compare_lt_iff_lt.mpr hz, Int.neg_neg, Int.toNat_natCast]
    simpa [scaled, Sign.apply] using h
  · simp only [UnpackedFloat.normalize, compare_eq_iff_eq.mpr rfl, Int.zero_mul]
    exact counts_zero s
  · obtain ⟨n, rfl⟩ := Int.eq_ofNat_of_zero_le (Int.le_of_lt hz)
    have h := counts_round (m := n) .positive (by omega) he
    simp only [UnpackedFloat.normalize, compare_gt_iff_gt.mpr hz, Int.toNat_natCast]
    simpa [scaled, Sign.apply] using h

theorem apply_scaled (s : Sign) (he : -1074 ≤ e₂) (hle : e₂ ≤ e₁) :
    s.apply (m <<< (e₁ - e₂).toNat : Nat) * 2 ^ (e₂ + 1074).toNat = s.apply (scaled m e₁) := by
  have hshift : ((e₁ - e₂).toNat : Int) = e₁ - e₂ := by omega
  have h := scaled_shift (m := m) hshift he
  rw [Nat.shiftLeft_eq, ← h, scaled]
  cases s <;> simp [Sign.apply]

/-- The sum of the parts of two doubles is the sum of their units, rounded. -/
theorem counts_add (hu : Fitting u) (hv : Fitting v) (hu' : u.isFinite = true) (hv' : v.isFinite = true) :
    Counts (UnpackedFloat.add Format.binary64 u v) (roundInt (unitsOf u + unitsOf v)) := by
  cases u with
  | infinity s => simp [UnpackedFloat.isFinite] at hu'
  | notANumber => simp [UnpackedFloat.isFinite] at hu'
  | zero s =>
    cases v with
    | infinity t => simp [UnpackedFloat.isFinite] at hv'
    | notANumber => simp [UnpackedFloat.isFinite] at hv'
    | zero t => cases s <;> cases t <;> exact counts_zero _
    | finite t n f hn =>
      have hround := roundInt_canonical (s := t) hv.1
      simp only [UnpackedFloat.add, unitsOf, Int.zero_add, hround]
      exact counts_finite hn hv.1
  | finite s m e hm =>
    cases v with
    | infinity t => simp [UnpackedFloat.isFinite] at hv'
    | notANumber => simp [UnpackedFloat.isFinite] at hv'
    | zero t =>
      have hround := roundInt_canonical (s := s) hu.1
      simp only [UnpackedFloat.add, unitsOf, Int.add_zero, hround]
      exact counts_finite hm hu.1
    | finite t n f hn =>
      have hleast : -1074 ≤ min e f := by
        have := hu.1.least
        have := hv.1.least
        omega
      have hleft := apply_scaled (m := m) s hleast (Int.min_le_left e f)
      have hright := apply_scaled (m := n) t hleast (Int.min_le_right e f)
      simp only [UnpackedFloat.add, UnpackedFloat.decreaseExponent, unitsOf]
      rw [← hleft, ← hright, ← Int.add_mul]
      exact counts_normalize _ _ hleast

/-- Packing holds a rounded number back at the infinities. -/
theorem units_pack {z : Int} (h : Counts u z) :
    unitsOf (Float.Model.pack u).unpack = held z ∧ (Float.Model.pack u).unpack ≠ .notANumber := by
  obtain ⟨hrounded, hfinite, rfl⟩ := h
  have hceiling := ceiling_pos
  cases u with
  | infinity s => simp [UnpackedFloat.isFinite] at hfinite
  | notANumber => simp [UnpackedFloat.isFinite] at hfinite
  | zero s =>
    rw [unpack_pack_zero]
    refine ⟨?_, by simp⟩
    simp only [unitsOf, held]
    omega
  | finite s m e hm =>
    rcases Int.lt_or_le 971 e with he | he
    · have hlarge := ceiling_le_scaled hrounded he
      rw [unpack_pack_overflow hm he]
      refine ⟨?_, by simp⟩
      cases s <;> simp only [unitsOf, held, Sign.apply] <;> omega
    · have hsmall := scaled_lt_ceiling hrounded he
      rw [unpack_pack_finite hm hrounded he]
      refine ⟨?_, by simp⟩
      cases s <;> simp only [unitsOf, held, Sign.apply] <;> omega

end Sum

end Scriptlet.Proofs.Doubles
