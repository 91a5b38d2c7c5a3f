import Scriptlet.Number
import Scriptlet.Proofs.Doubles

namespace Scriptlet.Number

/-- A double that is this whole number. Both zeros are `0`. -/
def IsWhole (x : Float) (n : Nat) : Prop :=
  x.isFinite = true ∧ units x = scaled n 0

end Scriptlet.Number

namespace Scriptlet.Proofs.DoubleSums
open Number Rounding Doubles Float.Model
open Float.Model.UnpackedFloat (Sign)

variable {x y z p : Float} {n m : Nat}

section Order

theorem isNaN_iff : x.isNaN = true ↔ x.toModel.unpack = .notANumber :=
  UnpackedFloat.isNaN_iff

theorem isNaN_eq_false_iff : x.isNaN = false ↔ x.toModel.unpack ≠ .notANumber := by
  rw [← Bool.not_eq_true, isNaN_iff]

theorem compare_eq (hx : x.isNaN = false) (hy : y.isNaN = false) :
    x.toModel.unpack.compare y.toModel.unpack = some (compare (units x) (units y)) :=
  compare_units (fitting_unpack _) (fitting_unpack _) (isNaN_eq_false_iff.mp hx) (isNaN_eq_false_iff.mp hy)

theorem compare_notANumber (h : x.isNaN = true ∨ y.isNaN = true) :
    x.toModel.unpack.compare y.toModel.unpack = none := by
  rcases h with h | h
  · rw [isNaN_iff.mp h]
    rfl
  · rw [isNaN_iff.mp h]
    cases x.toModel.unpack <;> rfl

theorem le_iff : x ≤ y ↔ x.isNaN = false ∧ y.isNaN = false ∧ units x ≤ units y := by
  have hle : x ≤ y ↔ (x.toModel.unpack.compare y.toModel.unpack).any (·.isLE) = true := decide_eq_true_iff
  cases hx : x.isNaN
  · cases hy : y.isNaN
    · rw [hle, compare_eq hx hy]
      simp [Std.isLE_compare]
    · rw [hle, compare_notANumber (.inr hy)]
      simp
  · rw [hle, compare_notANumber (.inl hx)]
    simp

theorem lt_iff : x < y ↔ x.isNaN = false ∧ y.isNaN = false ∧ units x < units y := by
  have hlt : x < y ↔ (x.toModel.unpack.compare y.toModel.unpack == some .lt) = true := decide_eq_true_iff
  cases hx : x.isNaN
  · cases hy : y.isNaN
    · rw [hlt, compare_eq hx hy]
      simp [compare_lt_iff_lt]
    · rw [hlt, compare_notANumber (.inr hy)]
      simp
  · rw [hlt, compare_notANumber (.inl hx)]
    simp

theorem beq_iff : x == y ↔ x.isNaN = false ∧ y.isNaN = false ∧ units x = units y := by
  have hbeq : (x == y) = (x.toModel.unpack.compare y.toModel.unpack == some .eq) := rfl
  cases hx : x.isNaN
  · cases hy : y.isNaN
    · rw [hbeq, compare_eq hx hy]
      simp
    · rw [hbeq, compare_notANumber (.inr hy)]
      simp
  · rw [hbeq, compare_notANumber (.inl hx)]
    simp

/-- Apart from the two zeros, a double is given by its units. -/
theorem eq_of_units_eq (hx : x.isNaN = false) (hy : y.isNaN = false) (h : units x = units y)
    (hzero : units x ≠ 0) :
    x = y := by
  have hbeq : x == y := beq_iff.mpr ⟨hx, hy, h⟩
  obtain ⟨-, -, heq | ⟨rfl, -⟩ | ⟨rfl, -⟩⟩ := Float.beq_iff_ne_nan_and_eq.mp hbeq
  · exact heq
  · exact absurd rfl hzero
  · exact absurd rfl hzero

theorem isNaN_of_isFinite (h : x.isFinite = true) : x.isNaN = false := by
  rw [isNaN_eq_false_iff]
  intro hnan
  change x.toModel.unpack.isFinite = true at h
  simp [hnan, UnpackedFloat.isFinite] at h

/-- The finite doubles are those strictly between the infinities. -/
theorem isFinite_iff (hx : x.isNaN = false) : x.isFinite = true ↔ -ceiling < units x ∧ units x < ceiling := by
  have hfitting := fitting_unpack x.toModel
  rw [isNaN_eq_false_iff] at hx
  change x.toModel.unpack.isFinite = true ↔ _
  unfold units
  have hceiling := ceiling_pos
  cases hu : x.toModel.unpack with
  | notANumber => exact absurd hu hx
  | infinity s => cases s <;> simp [UnpackedFloat.isFinite, unitsOf, Sign.apply]
  | zero s => simp [UnpackedFloat.isFinite, unitsOf, hceiling]
  | finite s m e hm =>
    rw [hu] at hfitting
    have hrange := finite_range hm hfitting
    cases s <;> simp [UnpackedFloat.isFinite, unitsOf, Sign.apply] <;> omega

theorem units_range (x : Float) : -ceiling ≤ units x ∧ units x ≤ ceiling := by
  have hfitting := fitting_unpack x.toModel
  have hceiling := ceiling_pos
  unfold units
  cases hu : x.toModel.unpack with
  | notANumber => simp [unitsOf]
  | infinity s => cases s <;> simp [unitsOf, Sign.apply]
  | zero s => simp [unitsOf]
  | finite s m e hm =>
    rw [hu] at hfitting
    have hrange := finite_range hm hfitting
    cases s <;> simp [unitsOf, Sign.apply] <;> omega

end Order

section Sums

/-- A sum of finite doubles is the sum of their units, rounded and held back. -/
theorem units_add (hx : x.isFinite = true) (hy : y.isFinite = true) :
    (x + y).isNaN = false ∧ units (x + y) = held (roundInt (units x + units y)) := by
  have h := units_pack (counts_add (fitting_unpack x.toModel) (fitting_unpack y.toModel) hx hy)
  exact ⟨isNaN_eq_false_iff.mpr h.2, h.1⟩

/-- A finite double added to an infinity changes nothing. -/
theorem add_of_infinite (hx : x.isNaN = false) (hx' : x.isFinite = false) (hp : p.isFinite = true) :
    x + p = x := by
  have hpack : Float.ofModel (Float.Model.pack x.toModel.unpack) = x := Float.ofBits_toBits x
  change Float.ofModel
    (Float.Model.pack (UnpackedFloat.add Format.binary64 x.toModel.unpack p.toModel.unpack)) = x
  nth_rewrite 2 [← hpack]
  congr 2
  rw [isNaN_eq_false_iff] at hx
  change x.toModel.unpack.isFinite = false at hx'
  change p.toModel.unpack.isFinite = true at hp
  cases hu : x.toModel.unpack with
  | notANumber => exact absurd hu hx
  | zero s => simp [hu, UnpackedFloat.isFinite] at hx'
  | finite s m e hm => simp [hu, UnpackedFloat.isFinite] at hx'
  | infinity s =>
    cases hv : p.toModel.unpack with
    | notANumber => simp [hv, UnpackedFloat.isFinite] at hp
    | infinity t => simp [hv, UnpackedFloat.isFinite] at hp
    | zero t => rfl
    | finite t n f hn => rfl

theorem isNaN_add (hx : x.isNaN = false) (hp : p.isFinite = true) : (x + p).isNaN = false := by
  cases hfinite : x.isFinite
  · rw [add_of_infinite hx hfinite hp]
    exact hx
  · exact (units_add hfinite hp).1

theorem held_mono {a b : Int} (h : a ≤ b) : held a ≤ held b := by
  unfold held
  omega

theorem held_units (x : Float) : held (units x) = units x := by
  have hrange := units_range x
  unfold held
  omega

theorem roundInt_units (hx : x.isFinite = true) : roundInt (units x) = units x := by
  have hfitting := fitting_unpack x.toModel
  change x.toModel.unpack.isFinite = true at hx
  unfold units
  cases hu : x.toModel.unpack with
  | notANumber => simp [hu, UnpackedFloat.isFinite] at hx
  | infinity s => simp [hu, UnpackedFloat.isFinite] at hx
  | zero s => simp [unitsOf, roundInt]
  | finite s m e hm =>
    rw [hu] at hfitting
    exact roundInt_canonical hfitting.1

/-- Adding a finite double keeps the order. -/
theorem add_le_add_finite (h : x ≤ y) (hp : p.isFinite = true) : x + p ≤ y + p := by
  obtain ⟨hx, hy, hle⟩ := le_iff.mp h
  refine le_iff.mpr ⟨isNaN_add hx hp, isNaN_add hy hp, ?_⟩
  cases hxf : x.isFinite <;> cases hyf : y.isFinite
  · rw [add_of_infinite hx hxf hp, add_of_infinite hy hyf hp]
    exact hle
  · -- below a finite double there is only the negative infinity
    have hsmall := mt (isFinite_iff hx).mpr (by simp [hxf])
    have hlarge := (isFinite_iff hy).mp hyf
    have hrange := units_range x
    have hsum := units_range (y + p)
    rw [add_of_infinite hx hxf hp]
    omega
  · have hlarge := mt (isFinite_iff hy).mpr (by simp [hyf])
    have hsmall := (isFinite_iff hx).mp hxf
    have hrange := units_range y
    have hsum := units_range (x + p)
    rw [add_of_infinite hy hyf hp]
    omega
  · rw [(units_add hxf hp).2, (units_add hyf hp).2]
    exact held_mono (roundInt_mono (Int.add_le_add_right hle _))

/-- Adding what is not negative does not make a double less. -/
theorem le_add_nonneg (hx : x.isNaN = false) (hp : p.isFinite = true) (hpos : 0 ≤ units p) : x ≤ x + p := by
  refine le_iff.mpr ⟨hx, isNaN_add hx hp, ?_⟩
  cases hfinite : x.isFinite
  · rw [add_of_infinite hx hfinite hp]
  · have h := held_mono (roundInt_mono (show units x ≤ units x + units p by omega))
    rw [roundInt_units hfinite, held_units] at h
    rw [(units_add hfinite hp).2]
    exact h

end Sums

section Wholes

theorem scaled_le_iff {e : Int} : scaled n e ≤ scaled m e ↔ n ≤ m :=
  Nat.mul_le_mul_right_iff (Nat.two_pow_pos _)

theorem whole_le (hx : IsWhole x n) (hy : IsWhole y m) : x ≤ y ↔ n ≤ m := by
  rw [le_iff, hx.2, hy.2, Int.ofNat_le, scaled_le_iff]
  simp only [isNaN_of_isFinite hx.1, isNaN_of_isFinite hy.1, true_and]

theorem whole_lt (hx : IsWhole x n) (hy : IsWhole y m) : x < y ↔ n < m := by
  rw [lt_iff, hx.2, hy.2, Int.ofNat_lt, ← Nat.not_le, scaled_le_iff, Nat.not_le]
  simp only [isNaN_of_isFinite hx.1, isNaN_of_isFinite hy.1, true_and]

theorem whole_beq (hx : IsWhole x n) (hy : IsWhole y m) : x == y ↔ n = m := by
  have hle := whole_le hx hy
  have hge := whole_le hy hx
  rw [le_iff] at hle hge
  rw [beq_iff]
  simp only [isNaN_of_isFinite hx.1, isNaN_of_isFinite hy.1, true_and] at hle hge ⊢
  omega

theorem whole_unique (hx : IsWhole x n) (hx' : IsWhole x m) : n = m := by
  have hle := whole_le hx hx'
  have hge := whole_le hx' hx
  rw [le_iff] at hle hge
  simp only [isNaN_of_isFinite hx.1, true_and, Int.le_refl, true_iff] at hle hge
  omega

theorem scaled_lt_ceiling_of_le (h : n ≤ 2 ^ 53) : scaled n 0 < ceiling := by
  calc
    scaled n 0 ≤ 2 ^ 53 * 2 ^ ((0 : Int) + 1074).toNat := Nat.mul_le_mul_right _ h
    _ = 1 * 2 ^ (53 + ((0 : Int) + 1074).toNat) := by rw [Nat.one_mul, Nat.pow_add]
    _ < ceiling := by
      unfold ceiling
      exact Nat.mul_lt_mul_of_pos_left (Nat.pow_lt_pow_right (by decide) (by omega)) Nat.one_pos

/-- A sum of whole numbers up to `2 ^ 53` is exact. -/
theorem whole_add (hx : IsWhole x n) (hy : IsWhole y m) (h : n + m ≤ 2 ^ 53) : IsWhole (x + y) (n + m) := by
  obtain ⟨hnan, hunits⟩ := units_add hx.1 hy.1
  have hceiling := scaled_lt_ceiling_of_le h
  have hsum : units x + units y = (scaled (n + m) 0 : Nat) := by
    rw [hx.2, hy.2, scaled, scaled, scaled, Nat.add_mul]
    rfl
  have hexact : units (x + y) = scaled (n + m) 0 := by
    rw [hunits, hsum, roundInt_natCast, scaled, round_exact h, ← scaled, held]
    omega
  refine ⟨(isFinite_iff hnan).mpr ?_, hexact⟩
  rw [hexact]
  omega

theorem whole_eq (hx : IsWhole x n) (hy : IsWhole y n) (hn : n ≠ 0) : x = y := by
  have hpos := scaled_pos (e := 0) (Nat.pos_of_ne_zero hn)
  refine eq_of_units_eq (isNaN_of_isFinite hx.1) (isNaN_of_isFinite hy.1) (hx.2.trans hy.2.symm) ?_
  rw [hx.2]
  omega

theorem isWhole_zero : IsWhole 0 0 :=
  ⟨rfl, by rw [scaled, Nat.zero_mul]; rfl⟩

/-- The two zeros are the doubles that are `0`. -/
theorem whole_zero (hx : IsWhole x 0) : x = 0 ∨ x = -0 := by
  have hzero : x == (0 : Float) := (whole_beq hx isWhole_zero).mpr rfl
  obtain ⟨-, -, heq | ⟨h, -⟩ | ⟨h, -⟩⟩ := Float.beq_iff_ne_nan_and_eq.mp hzero
  · exact .inl heq
  · exact .inl h
  · exact .inr h

/-- Sums of whole numbers up to `2 ^ 53` may be bracketed either way, the signs of zeros included. -/
theorem whole_add_assoc {l : Nat} (hx : IsWhole x n) (hy : IsWhole y m) (hz : IsWhole z l)
    (h : n + m + l ≤ 2 ^ 53) :
    x + y + z = x + (y + z) := by
  have hleft := whole_add (whole_add hx hy (by omega)) hz h
  have hright := whole_add hx (whole_add hy hz (by omega)) (by omega)
  rw [← Nat.add_assoc] at hright
  by_cases hzero : n + m + l = 0
  · obtain ⟨rfl, rfl, rfl⟩ : n = 0 ∧ m = 0 ∧ l = 0 := by omega
    rcases whole_zero hx with rfl | rfl <;> rcases whole_zero hy with rfl | rfl <;>
      rcases whole_zero hz with rfl | rfl
    all_goals rfl
  · exact whole_eq hleft hright hzero

end Wholes

section Naturals
open Decimal

theorem unpackMantissa_toNat (x : Float) :
    (@UnpackedFloat.unpackMantissa Format.binary64 x.toModel.toBits.toBitVec).toNat =
      x.toBits.toNat % 2 ^ 52 := by
  rw [UnpackedFloat.unpackMantissa_def, BitVec.extractLsb'_toNat, Nat.shiftRight_zero]
  rfl

theorem unpackExponent_toNat (x : Float) :
    (@UnpackedFloat.unpackExponent Format.binary64 x.toModel.toBits.toBitVec).toNat =
      x.toBits.toNat / 2 ^ 52 % 2 ^ 11 := by
  rw [UnpackedFloat.unpackExponent_def, BitVec.extractLsb'_toNat, Nat.shiftRight_eq_div_pow]
  rfl

theorem natAbs_apply (s : Sign) (n : Nat) : (s.apply n).natAbs = n := by
  cases s <;> simp [Sign.apply]

/-- Reading the bits of a finite double gives its magnitude. -/
theorem ofFloat_magnitude (hx : x.isFinite = true) :
    -1074 ≤ (Binary.ofFloat x).exponent ∧
      scaled (Binary.ofFloat x).mantissa (Binary.ofFloat x).exponent = (units x).natAbs := by
  have hmantissa := unpackMantissa_toNat x
  have hexponent := unpackExponent_toNat x
  change x.toModel.unpack.isFinite = true at hx
  unfold units
  unfold Float.Model.unpack UnpackedFloat.unpack at hx ⊢
  dsimp only at hx ⊢
  by_cases hlast : @UnpackedFloat.unpackExponent Format.binary64 x.toModel.toBits.toBitVec = -1#11
  · rw [if_pos hlast] at hx
    split at hx <;> simp [UnpackedFloat.isFinite] at hx
  rw [if_neg hlast]
  by_cases hfirst : @UnpackedFloat.unpackExponent Format.binary64 x.toModel.toBits.toBitVec = 0#11
  · have hscale : x.toBits.toNat / 2 ^ 52 % 2 ^ 11 = 0 := by
      rw [← hexponent, hfirst]
      rfl
    have hparts : Binary.ofFloat x = ⟨_, x.toBits.toNat % 2 ^ 52, -1074⟩ := if_pos hscale
    rw [if_pos hfirst, hparts]
    refine ⟨Int.le_refl _, ?_⟩
    split
    · rename_i hzero
      rw [← hmantissa, hzero]
      simp [scaled, unitsOf]
    · rw [unitsOf, natAbs_apply, hmantissa, hfirst]
      rfl
  · have hscale : x.toBits.toNat / 2 ^ 52 % 2 ^ 11 ≠ 0 := by
      rw [← hexponent]
      exact fun h => hfirst (BitVec.eq_of_toNat_eq h)
    have hparts : Binary.ofFloat x =
        ⟨_, 2 ^ 52 + x.toBits.toNat % 2 ^ 52, (x.toBits.toNat / 2 ^ 52 % 2 ^ 11 : Nat) - 1075⟩ :=
          if_neg hscale
    rw [if_neg hfirst, hparts, unitsOf, natAbs_apply, implicit_toNat, hmantissa, hexponent]
    exact ⟨by simp only; omega, rfl⟩

/-- A magnitude is whole when its units are a number of ones. -/
theorem whole?_eq_some_iff {b : Binary} (hb : -1074 ≤ b.exponent) :
    b.whole? = some n ↔ scaled b.mantissa b.exponent = scaled n 0 := by
  have hpos : 0 < b.ratio.2 := Nat.two_pow_pos _
  have hwhole : b.whole? = some n ↔ b.ratio.1 = n * b.ratio.2 := by
    unfold Binary.whole?
    constructor
    · intro h
      split at h
      · rename_i hmod
        obtain rfl := Option.some.inj h
        exact (Nat.div_mul_cancel (Nat.dvd_of_mod_eq_zero hmod)).symm
      · simp at h
    · intro h
      rw [h, Nat.mul_mod_left, if_pos rfl, Nat.mul_div_cancel _ hpos]
  have hratio : b.ratio = (b.mantissa * 2 ^ b.exponent.toNat, 2 ^ (-b.exponent).toNat) := rfl
  rw [hwhole, hratio, scaled, scaled]
  rcases Int.le_total 0 b.exponent with hle | hle
  · have hone : (-b.exponent).toNat = 0 := by omega
    have hshift : (b.exponent + 1074).toNat = b.exponent.toNat + ((0 : Int) + 1074).toNat := by omega
    rw [hone, Nat.pow_zero, Nat.mul_one, hshift, Nat.pow_add, ← Nat.mul_assoc]
    exact (Nat.mul_left_inj (Nat.ne_of_gt (Nat.two_pow_pos _))).symm
  · have hone : b.exponent.toNat = 0 := by omega
    have hshift : ((0 : Int) + 1074).toNat = (-b.exponent).toNat + (b.exponent + 1074).toNat := by omega
    rw [hone, Nat.pow_zero, Nat.mul_one, hshift, Nat.pow_add, ← Nat.mul_assoc]
    exact (Nat.mul_left_inj (Nat.ne_of_gt (Nat.two_pow_pos _))).symm

theorem zero_le_iff (hx : x.isFinite = true) : 0 ≤ x ↔ 0 ≤ units x := by
  have hzero : units 0 = 0 := rfl
  rw [le_iff, hzero]
  simp only [isNaN_of_isFinite hx, isNaN_of_isFinite isWhole_zero.1, true_and]

theorem natural?_eq_some_iff : natural? x = some n ↔ IsWhole x n := by
  cases hx : x.isFinite
  · have hnone : natural? x = none := by simp [natural?, hx]
    rw [hnone]
    exact iff_of_false (by simp) (fun h => absurd h.1 (by simp [hx]))
  · obtain ⟨hexponent, hmagnitude⟩ := ofFloat_magnitude hx
    have hnatural : natural? x = some n ↔ 0 ≤ x ∧ (Binary.ofFloat x).whole? = some n := by
      simp [natural?, hx]
    rw [hnatural, zero_le_iff hx, whole?_eq_some_iff hexponent, hmagnitude, IsWhole]
    simp only [hx, true_and]
    omega

theorem isWhole_one : IsWhole 1 1 :=
  natural?_eq_some_iff.mp (by decide +kernel)

end Naturals

end Scriptlet.Proofs.DoubleSums
