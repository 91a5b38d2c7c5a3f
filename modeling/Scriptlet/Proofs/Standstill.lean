import Scriptlet.Proofs.CatchingUp
import Scriptlet.Settings.Document

namespace Scriptlet
open Number

/-- Schedules that come from the idle one, with any periods and any movements of the clock. -/
inductive Schedule.Reached : Schedule → Prop where
  | idle : Reached Schedule.idle
  | addInterval {s : Schedule} (h : Reached s) (callback : Value) (period : Float) :
      Reached (s.addInterval callback period)
  | requestFrame {s : Schedule} (h : Reached s) (callback : Value) : Reached (s.requestFrame callback)
  | advance {s t : Schedule} (h : Reached s) {fuel : Nat} {elapsed : Float} {due : List Value}
      (hadvance : s.advance? fuel elapsed = some (due, t)) : Reached t
  | stop {s : Schedule} (h : Reached s) : Reached s.stop

/-- The time `2 ^ 53`, below which every millisecond can be told from the next. -/
def Schedule.exactLimit : Float := 9007199254740992

/-- Between the due time of the interval and the clock there is a time to which adding the period changes
nothing, because doubles lie further apart there. -/
def Interval.StandsStill (i : Interval) (now : Float) : Prop :=
  ∃ x, i.due ≤ x ∧ x ≤ now ∧ x + i.period == x

namespace Proofs.Standstill
open CatchingUp DoubleSums Doubles Rounding

variable {i : Interval} {s : Schedule} {now elapsed x y z p : Float} {k : Nat}

section Loop

theorem le_trans_float (hxy : x ≤ y) (hyz : y ≤ z) : x ≤ z := by
  obtain ⟨hx, -, hle⟩ := le_iff.mp hxy
  obtain ⟨-, hz, hle'⟩ := le_iff.mp hyz
  exact le_iff.mpr ⟨hx, hz, Int.le_trans hle hle'⟩

/-- The due times of an interval do not pass a time at which it stands still. -/
theorem later_le_standstill (hperiod : i.period.isFinite = true) (hdue : i.due ≤ x)
    (hfixed : x + i.period == x) (k : Nat) : (i.later k).due ≤ x := by
  induction k with
  | zero => exact hdue
  | succ k ih =>
    have hstep := add_le_add_finite ih hperiod
    obtain ⟨hsum, hx, heq⟩ := beq_iff.mp hfixed
    rw [later_succ]
    exact le_trans_float hstep (le_iff.mpr ⟨hsum, hx, Int.le_of_eq heq⟩)

theorem not_overtakes_of_standsStill (hperiod : i.period.isFinite = true) (h : i.StandsStill now) :
    ¬∃ k, i.Overtakes now k := by
  rintro ⟨k, hk⟩
  obtain ⟨x, hdue, hnow, hfixed⟩ := h
  exact hk.ahead (le_trans_float (later_le_standstill hperiod hdue hfixed k) hnow)

theorem not_standsStill_next (hperiod : i.period.isFinite = true) (hpos : 0 ≤ units i.period)
    (hdue : i.due.isNaN = false) (h : ¬i.StandsStill now) : ¬i.next.StandsStill now := by
  rintro ⟨x, hnext, hnow, hfixed⟩
  exact h ⟨x, le_trans_float (le_add_nonneg hdue hperiod hpos) hnext, hnow, hfixed⟩

/-- A due time at which the interval does not stand still is followed by a greater one. -/
theorem units_lt_next (hperiod : i.period.isFinite = true) (hpos : 0 ≤ units i.period) (hdue : i.due ≤ now)
    (h : ¬i.StandsStill now) : units i.due < units i.next.due := by
  have hnan := (le_iff.mp hdue).1
  have hself : i.due ≤ i.due := le_iff.mpr ⟨hnan, hnan, Int.le_refl _⟩
  have hne : ¬units (i.due + i.period) = units i.due := by
    intro heq
    exact h ⟨i.due, hself, hdue, beq_iff.mpr ⟨isNaN_add hnan hperiod, hnan, heq⟩⟩
  have hle := (le_iff.mp (le_add_nonneg hnan hperiod hpos)).2.2
  have hnext : i.next.due = i.due + i.period := rfl
  rw [hnext]
  omega

/-- Without a standstill, due times rise until one lies ahead of the clock: there are only so many doubles. -/
theorem overtakes_of_not_standsStill (hperiod : i.period.isFinite = true) (hpos : 0 ≤ units i.period)
    (h : ¬i.StandsStill now) : ∃ k, i.Overtakes now k := by
  -- by the distance to the infinity
  induction hn : (ceiling - units i.due).toNat using Nat.strong_induction_on generalizing i with
  | _ n ih =>
    by_cases hdue : i.due ≤ now
    · have hlt := units_lt_next hperiod hpos hdue h
      have hrange := units_range i.next.due
      have hnext := not_standsStill_next hperiod hpos (le_iff.mp hdue).1 h
      obtain ⟨k, hk⟩ := ih _ (by omega) (i := i.next) hperiod hpos hnext rfl
      exact ⟨k + 1, overtakes_of_next hdue hk⟩
    · exact ⟨0, by omega, hdue⟩

theorem overtakes_iff (hperiod : i.period.isFinite = true) (hpos : 0 ≤ units i.period) :
    (∃ k, i.Overtakes now k) ↔ ¬i.StandsStill now := by
  constructor
  · intro h hstands
    exact not_overtakes_of_standsStill hperiod hstands h
  · exact overtakes_of_not_standsStill hperiod hpos

end Loop

section Reached

/-- A finite period of a millisecond or more. -/
def Kept (i : Interval) : Prop :=
  i.period.isFinite = true ∧ Schedule.minPeriod ≤ i.period

theorem kept_units (h : Kept i) : scaled 1 0 ≤ units i.period := by
  have hle := (le_iff.mp h.2).2.2
  rwa [← isWhole_one.2]

theorem kept_later (h : Kept i) (k : Nat) : Kept (i.later k) := by
  unfold Kept
  rw [later_period]
  exact h

theorem reached_kept (h : s.Reached) : ∀ i ∈ s.intervals, Kept i := by
  induction h with
  | idle => simp [Schedule.idle]
  | addInterval _ callback period ih =>
    unfold Schedule.addInterval
    split
    · exact ih
    · intro i hi
      rcases List.mem_append.mp hi with hold | hnew
      · exact ih i hold
      · obtain rfl := List.mem_singleton.mp hnew
        exact ⟨clampPeriod_finite period, minPeriod_le_clampPeriod period⟩
  | requestFrame _ callback ih =>
    unfold Schedule.requestFrame
    split <;> exact ih
  | @advance s t _ fuel elapsed due hadvance ih =>
    cases hstopped : s.stopped
    · obtain ⟨count, hcount⟩ := advance_intervals hstopped hadvance
      intro i' hi'
      rw [hcount] at hi'
      obtain ⟨i, hi, rfl⟩ := List.mem_map.mp hi'
      exact kept_later (ih i hi) _
    · unfold Schedule.advance? at hadvance
      rw [if_pos hstopped] at hadvance
      cases hadvance
      exact ih
  | stop _ _ => simp [Schedule.stop]

theorem kept_overtakes_iff (h : Kept i) : (∃ k, i.Overtakes now k) ↔ ¬i.StandsStill now := by
  have hunits := kept_units h
  exact overtakes_iff h.1 (by omega)

end Reached

section Range

theorem exponent_le_zero {m : Nat} {e : Int} (h : Canonical m e) (hsmall : scaled m e < scaled (2 ^ 53) 0) :
    e ≤ 0 := by
  by_contra hpos
  have hfull : 2 ^ 52 ≤ m := h.full.resolve_right (by omega)
  have hlarge : scaled (2 ^ 53) 0 ≤ scaled m e := by
    calc
      scaled (2 ^ 53) 0 = 2 ^ 52 * 2 ^ (((0 : Int) + 1074).toNat + 1) := by
        rw [scaled, ← Nat.pow_add, ← Nat.pow_add]
        congr 1
      _ ≤ scaled m e := Nat.mul_le_mul hfull (Nat.pow_le_pow_right (by decide) (by omega))
  omega

/-- One more in the last digit is no more than `1`. -/
theorem scaled_succ {m : Nat} {e : Int} (he : e ≤ 0) :
    scaled m e < scaled (m + 1) e ∧ scaled (m + 1) e ≤ scaled m e + scaled 1 0 := by
  have hstep : 2 ^ (e + 1074).toNat ≤ 2 ^ ((0 : Int) + 1074).toNat :=
    Nat.pow_le_pow_right (by decide) (by omega)
  have hone : scaled 1 0 = 2 ^ ((0 : Int) + 1074).toNat := Nat.one_mul _
  have hsum : scaled (m + 1) e = scaled m e + 2 ^ (e + 1074).toNat := Nat.succ_mul _ _
  rw [hone]
  exact ⟨scaled_lt_of_lt (Nat.lt_succ_self m), by rw [hsum]; exact Nat.add_le_add_left hstep _⟩

/-- Below `2 ^ 53` there is a double above each one by no more than `1`. -/
theorem exists_above (hx : x.isFinite = true) (hlow : -(scaled (2 ^ 53) 0 : Int) < units x)
    (hhigh : units x < scaled (2 ^ 53) 0) :
    ∃ v : Int, units x < v ∧ v ≤ units x + scaled 1 0 ∧ roundInt v = v := by
  have hfitting := fitting_unpack x.toModel
  change x.toModel.unpack.isFinite = true at hx
  unfold units at hlow hhigh ⊢
  cases hu : x.toModel.unpack with
  | notANumber => simp [hu, Float.Model.UnpackedFloat.isFinite] at hx
  | infinity s => simp [hu, Float.Model.UnpackedFloat.isFinite] at hx
  | zero s =>
    have hone := scaled_pos (e := 0) Nat.one_pos
    refine ⟨(1 : Nat), ?_, ?_, ?_⟩
    · simp [unitsOf]
    · simp only [unitsOf]
      omega
    · rw [roundInt_natCast, round_small (by decide)]
  | finite s m e hm =>
    rw [hu] at hfitting hlow hhigh
    obtain ⟨hcanonical, -⟩ := hfitting
    have hlt := hcanonical.lt
    cases s with
    | positive =>
      simp only [unitsOf, Float.Model.UnpackedFloat.Sign.apply] at hhigh ⊢
      have hstep := scaled_succ (m := m) (exponent_le_zero hcanonical (by omega))
      refine ⟨scaled (m + 1) e, by omega, by omega, ?_⟩
      rw [roundInt_natCast, scaled, round_exact hlt]
    | negative =>
      simp only [unitsOf, Float.Model.UnpackedFloat.Sign.apply] at hlow ⊢
      obtain ⟨m, rfl⟩ : ∃ n, m = n + 1 := ⟨m - 1, by omega⟩
      have hstep := scaled_succ (m := m) (exponent_le_zero hcanonical (by omega))
      refine ⟨-(scaled m e : Int), by omega, by omega, ?_⟩
      rw [roundInt_neg, roundInt_natCast, scaled, round_exact (by omega)]

/-- Adding a millisecond or more below `2 ^ 53` makes a double greater. -/
theorem units_lt_add (hx : x.isFinite = true) (hp : p.isFinite = true) (hone : (scaled 1 0 : Int) ≤ units p)
    (hlow : -(scaled (2 ^ 53) 0 : Int) < units x) (hhigh : units x < scaled (2 ^ 53) 0) :
    units x < units (x + p) := by
  obtain ⟨v, hv, hstep, hround⟩ := exists_above hx hlow hhigh
  have hmono := roundInt_mono (show v ≤ units x + units p by omega)
  have hrange := (isFinite_iff (isNaN_of_isFinite hx)).mp hx
  rw [hround] at hmono
  rw [(units_add hx hp).2, held]
  omega

theorem exactLimit_whole : IsWhole Schedule.exactLimit (2 ^ 53) :=
  natural?_eq_some_iff.mp (by decide +kernel)

theorem units_neg_exactLimit : units (-Schedule.exactLimit) = -(scaled (2 ^ 53) 0 : Int) := by
  decide +kernel

/-- In the range where milliseconds can be told apart, no interval stands still. -/
theorem not_standsStill_of_range (h : Kept i) (hdue : -Schedule.exactLimit < i.due)
    (hnow : now < Schedule.exactLimit) :
    ¬i.StandsStill now := by
  rintro ⟨x, hx, hx', hfixed⟩
  obtain ⟨-, hxnan, heq⟩ := beq_iff.mp hfixed
  have hlow : -(scaled (2 ^ 53) 0 : Int) < units x := by
    have hdue := (lt_iff.mp hdue).2.2
    have hx := (le_iff.mp hx).2.2
    rw [units_neg_exactLimit] at hdue
    omega
  have hhigh : units x < scaled (2 ^ 53) 0 := by
    have hnow := (lt_iff.mp hnow).2.2
    have hx' := (le_iff.mp hx').2.2
    rw [exactLimit_whole.2] at hnow
    omega
  have hlimit := scaled_lt_ceiling_of_le (Nat.le_refl (2 ^ 53))
  have hfinite : x.isFinite = true := (isFinite_iff hxnan).mpr (by omega)
  have hlt := units_lt_add hfinite h.1 (kept_units h) hlow hhigh
  omega

/-- At an infinite time every interval stands still that is due at all. -/
theorem standsStill_of_infinite (hperiod : i.period.isFinite = true) (hdue : i.due.isNaN = false)
    (hnow : now.isNaN = false) (hinfinite : units now = ceiling) : i.StandsStill now := by
  have hceiling : now.isFinite = false := by
    rw [← Bool.not_eq_true, isFinite_iff hnow]
    omega
  have hrange := units_range i.due
  refine ⟨now, le_iff.mpr ⟨hdue, hnow, by omega⟩, le_iff.mpr ⟨hnow, hnow, Int.le_refl _⟩, ?_⟩
  rw [add_of_infinite hnow hceiling hperiod]
  exact beq_iff.mpr ⟨hnow, hnow, rfl⟩

end Range

section Ends

/-- Advancing a schedule ends exactly if it was stopped or none of its intervals stands still between its due
time and the new time. So it ends as long as times stay below `2 ^ 53` milliseconds. -/
theorem advance_ends_unless_standstill (s : Schedule) (hs : s.Reached) (elapsed : Float) :
    ((∃ fuel due t, s.advance? fuel elapsed = some (due, t)) ↔
      s.stopped = true ∨ ∀ i ∈ s.intervals, ¬i.StandsStill (s.now + elapsed)) ∧
    ((∀ i ∈ s.intervals, -Schedule.exactLimit < i.due) → s.now + elapsed < Schedule.exactLimit →
      ∃ fuel due t, s.advance? fuel elapsed = some (due, t)) := by
  have hkept := reached_kept hs
  have hends : (∃ fuel due t, s.advance? fuel elapsed = some (due, t)) ↔
      s.stopped = true ∨ ∀ i ∈ s.intervals, ¬i.StandsStill (s.now + elapsed) := by
    have hovertakes : (∀ i ∈ s.intervals, ∃ k, i.Overtakes (s.now + elapsed) k) ↔
        ∀ i ∈ s.intervals, ¬i.StandsStill (s.now + elapsed) :=
      forall₂_congr fun i hi => kept_overtakes_iff (hkept i hi)
    rw [← hovertakes, ← advance_ends_iff]
    simp only [Prod.exists]
  refine ⟨hends, ?_⟩
  intro hdue hnow
  exact hends.mpr (.inr fun i hi => not_standsStill_of_range (hkept i hi) (hdue i hi) hnow)

/-- An interval of the shortest period from time zero on. -/
def ticking : Schedule :=
  Schedule.idle.addInterval .null 0

theorem ticking_reached : ticking.Reached :=
  .addInterval .idle .null 0

theorem ticking_intervals : ticking.intervals = [⟨.null, 1, 0 + 1⟩] := by
  have hclamp : Schedule.clampPeriod 0 = 1 := by decide +kernel
  simp only [ticking, Schedule.addInterval, Schedule.idle, hclamp, Bool.false_eq_true, if_false,
    List.nil_append]

/-- A frame of sixteen milliseconds ends. -/
theorem advance_ends_unless_standstill_ticking :
    ticking.Reached ∧ ∃ fuel due t, ticking.advance? fuel 16 = some (due, t) := by
  refine ⟨ticking_reached, (advance_ends_unless_standstill ticking ticking_reached 16).2 ?_ ?_⟩
  · rw [ticking_intervals]
    intro i hi
    obtain rfl := List.mem_singleton.mp hi
    exact (by decide +kernel : -Schedule.exactLimit < 0 + 1)
  · exact (by decide +kernel : (0 : Float) + 16 < Schedule.exactLimit)

theorem advance_eq_none (hlive : s.stopped = false) (hi : i ∈ s.intervals)
    (hperiod : i.period.isFinite = true)
    (h : i.StandsStill (s.now + elapsed)) (fuel : Nat) : s.advance? fuel elapsed = none := by
  rw [Option.eq_none_iff_forall_not_mem]
  intro r hr
  obtain ⟨k, -, hk⟩ := overtakes_of_advance hlive hr i hi
  exact not_overtakes_of_standsStill hperiod h ⟨k, hk⟩

/-- Settings may ask for frames of infinite length, and the first such frame never ends. -/
theorem infinite_frame_never_ends :
    ∃ settings, Settings.ofDocument? "frame_ms = inf" = some settings ∧ ticking.Reached ∧
      ∀ fuel, ticking.advance? fuel settings.frameMs = none := by
  have hread : (Settings.ofDocument? "frame_ms = inf").map Settings.frameMs = some Float.inf := by
    decide +kernel
  obtain ⟨settings, hsettings, hframe⟩ := Option.map_eq_some_iff.mp hread
  refine ⟨settings, hsettings, ticking_reached, ?_⟩
  rw [hframe]
  have hmem : (⟨.null, 1, 0 + 1⟩ : Interval) ∈ ticking.intervals := by
    rw [ticking_intervals]
    exact List.mem_singleton_self _
  have hclock : ticking.now + Float.inf = Float.inf := by decide +kernel
  have hinfinite : units Float.inf = ceiling := rfl
  have hstands : (⟨.null, 1, 0 + 1⟩ : Interval).StandsStill (ticking.now + Float.inf) := by
    rw [hclock]
    exact standsStill_of_infinite rfl rfl rfl hinfinite
  exact advance_eq_none rfl hmem rfl hstands

end Ends

end Proofs.Standstill
end Scriptlet
