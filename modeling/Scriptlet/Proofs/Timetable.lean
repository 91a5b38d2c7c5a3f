import Scriptlet.Proofs.CatchingUp
import Scriptlet.Proofs.DoubleSums

namespace Scriptlet
open Number

namespace Interval

/-- The time at which the interval is due next. -/
def dueTime (i : Interval) : Nat :=
  (natural? i.due).getD 0

/-- The time between two firings. -/
def periodTime (i : Interval) : Nat :=
  (natural? i.period).getD 0

/-- The interval is due next at a whole number of milliseconds, and its period is one; up to the time `last`,
adding the period is exact. -/
def Exact (last : Nat) (i : Interval) : Prop :=
  ∃ due period, IsWhole i.due due ∧ IsWhole i.period period ∧ 0 < period ∧ last + period ≤ 2 ^ 53

/-- Whether the interval fires at a time. -/
def firesAt (i : Interval) (time : Nat) : Bool :=
  i.dueTime ≤ time && i.periodTime ∣ time - i.dueTime

/-- How often the interval fires up to a time. -/
def firingsUntil (last : Nat) (i : Interval) : Nat :=
  if last < i.dueTime then 0 else (last - i.dueTime) / i.periodTime + 1

end Interval

/-- The schedule can be advanced to the time `last` in exact arithmetic. -/
def Schedule.ExactUntil (s : Schedule) (last : Nat) : Prop :=
  last ≤ 2 ^ 53 ∧ ∀ i ∈ s.intervals, i.Exact last

/-- An interval as it was registered: its callback, the time of that, and its period. -/
structure Registration where
  callback : Value
  since : Nat
  period : Nat

/-- Whether the interval fires at a time: a whole number of periods after it was registered. -/
def Registration.firesAt (r : Registration) (time : Nat) : Bool :=
  r.since < time && r.period ∣ time - r.since

/-- The callbacks that fire after one time and up to another: by time, and at one time in the order of
registration. -/
def Registration.firings (rs : List Registration) (start last : Nat) : List Value :=
  (List.range' (start + 1) (last - start)).flatMap fun time =>
    (rs.filter fun r => r.firesAt time).map Registration.callback

/-- Registrations whose times up to `last` are exact. -/
def Registration.ExactUntil (rs : List Registration) (last : Nat) : Prop :=
  last ≤ 2 ^ 53 ∧ ∀ r ∈ rs, last + r.period ≤ 2 ^ 53

/-- What becomes of the idle schedule when intervals are registered, frames are asked for and the clock is
moved, all in whole milliseconds: the time, the registrations so far, and the schedule. -/
inductive Schedule.Timeline : Nat → List Registration → Schedule → Prop where
  | idle : Timeline 0 [] Schedule.idle
  | interval {now period : Nat} {rs : List Registration} {s : Schedule} {callback : Value} {given : Float}
      (h : Timeline now rs s) (hperiod : IsWhole (Schedule.clampPeriod given) period)
      (hsum : now + period ≤ 2 ^ 53) :
      Timeline now (rs ++ [⟨callback, now, period⟩]) (s.addInterval callback given)
  | frame {now : Nat} {rs : List Registration} {s : Schedule} {callback : Value} (h : Timeline now rs s) :
      Timeline now rs (s.requestFrame callback)
  | advance {now time fuel : Nat} {rs : List Registration} {s t : Schedule} {elapsed : Float}
      {due : List Value} (h : Timeline now rs s) (helapsed : IsWhole elapsed time)
      (hexact : Registration.ExactUntil rs (now + time))
      (hadvance : s.advance? fuel elapsed = some (due, t)) : Timeline (now + time) rs t

namespace Proofs.Timetable
open CatchingUp DoubleSums

variable {i : Interval} {now : Float} {last time j k : Nat} {is : List Interval}

section Times

theorem dueTime_eq {due : Nat} (h : IsWhole i.due due) : i.dueTime = due := by
  rw [Interval.dueTime, natural?_eq_some_iff.mpr h, Option.getD_some]

theorem periodTime_eq {period : Nat} (h : IsWhole i.period period) : i.periodTime = period := by
  rw [Interval.periodTime, natural?_eq_some_iff.mpr h, Option.getD_some]

/-- An exact interval by the numbers of its due time and period. -/
theorem exact_times (h : i.Exact last) :
    IsWhole i.due i.dueTime ∧ IsWhole i.period i.periodTime ∧ 0 < i.periodTime ∧
      last + i.periodTime ≤ 2 ^ 53 := by
  obtain ⟨due, period, hdue, hperiod, hpos, hsum⟩ := h
  rw [dueTime_eq hdue, periodTime_eq hperiod]
  exact ⟨hdue, hperiod, hpos, hsum⟩

theorem lt_firingsUntil (hpos : 0 < i.periodTime) (j last : Nat) :
    j < i.firingsUntil last ↔ i.dueTime + j * i.periodTime ≤ last := by
  unfold Interval.firingsUntil
  split
  · have := Nat.zero_le (j * i.periodTime)
    omega
  · rw [Nat.lt_succ_iff, Nat.le_div_iff_mul_le hpos]
    omega

/-- Up to the last time, the due times of an interval are whole numbers a period apart. -/
theorem later_whole (h : i.Exact last) (hk : k ≤ i.firingsUntil last) :
    IsWhole (i.later k).due (i.dueTime + k * i.periodTime) := by
  obtain ⟨hdue, hperiod, hpos, hsum⟩ := exact_times h
  induction k with
  | zero =>
    rw [Nat.zero_mul, Nat.add_zero]
    exact hdue
  | succ k ih =>
    have hreached := (lt_firingsUntil hpos k last).mp hk
    have hstep := whole_add (ih (by omega)) hperiod (by omega)
    rw [later_succ, Nat.succ_mul, ← Nat.add_assoc]
    exact hstep

theorem overtakes_firingsUntil (hnow : IsWhole now last) (h : i.Exact last) :
    i.Overtakes now (i.firingsUntil last) := by
  obtain ⟨-, -, hpos, -⟩ := exact_times h
  constructor
  · intro j hj
    rw [whole_le (later_whole h (Nat.le_of_lt hj)) hnow]
    exact (lt_firingsUntil hpos j last).mp hj
  · rw [whole_le (later_whole h (Nat.le_refl _)) hnow, ← lt_firingsUntil hpos]
    omega

/-- The times at which an interval fires are its due times. -/
theorem firesAt_iff : i.firesAt time = true ↔ ∃ q, i.dueTime + q * i.periodTime = time := by
  simp only [Interval.firesAt, Bool.and_eq_true, decide_eq_true_eq]
  constructor
  · rintro ⟨hdue, q, hq⟩
    exact ⟨q, by rw [Nat.mul_comm q, ← hq]; omega⟩
  · rintro ⟨q, rfl⟩
    refine ⟨by omega, ?_⟩
    rw [Nat.add_sub_cancel_left]
    exact Nat.dvd_mul_left _ _

theorem exists_firing_iff (hpos : 0 < i.periodTime) :
    (∃ j < i.firingsUntil last, i.dueTime + j * i.periodTime = time) ↔
      time ≤ last ∧ i.firesAt time = true := by
  simp only [lt_firingsUntil hpos, firesAt_iff]
  constructor
  · rintro ⟨j, hj, rfl⟩
    exact ⟨hj, j, rfl⟩
  · rintro ⟨hlast, j, rfl⟩
    exact ⟨j, hlast, rfl⟩

end Times

section Order

/-- The time of a firing and its place. -/
def tick (f : Firing) : Nat × Nat :=
  ((natural? f.due).getD 0, f.order)

/-- By time, then by place. -/
def notAfter (a b : Nat × Nat) : Bool :=
  a.1 < b.1 || (a.1 == b.1 && a.2 ≤ b.2)

theorem notAfter_iff {a b : Nat × Nat} : notAfter a b = true ↔ a.1 < b.1 ∨ a.1 = b.1 ∧ a.2 ≤ b.2 := by
  simp [notAfter]

theorem notAfter_antisymm {a b : Nat × Nat} (hab : notAfter a b = true) (hba : notAfter b a = true) :
    a = b := by
  rw [notAfter_iff] at hab hba
  exact Prod.ext (by omega) (by omega)

theorem mergeSort_ordered (l : List (Nat × Nat)) :
    (l.mergeSort notAfter).Pairwise fun a b => notAfter a b = true := by
  refine List.pairwise_mergeSort ?_ ?_ l
  · intro a b c hab hbc
    rw [notAfter_iff] at hab hbc ⊢
    omega
  · intro a b
    rw [Bool.or_eq_true, notAfter_iff, notAfter_iff]
    omega

theorem tick_eq {f : Firing} (h : IsWhole f.due time) : tick f = (time, f.order) := by
  rw [tick, natural?_eq_some_iff.mpr h, Option.getD_some]

theorem precedes_eq {f g : Firing} {t u : Nat} (hf : IsWhole f.due t) (hg : IsWhole g.due u) :
    f.precedes g = notAfter (tick f) (tick g) := by
  rw [tick_eq hf, tick_eq hg, Bool.eq_iff_iff, notAfter_iff]
  simp only [Firing.precedes, Bool.or_eq_true, Bool.and_eq_true, decide_eq_true_eq, whole_lt hf hg,
    whole_beq hf hg]

/-- The firings of all intervals up to a time, by time and then by place. -/
def ticks (last : Nat) (is : List Interval) : List (Nat × Nat) :=
  (List.range (last + 1)).flatMap fun time =>
    (is.zipIdx.filter fun e => e.1.firesAt time).map fun e => (time, e.2)

theorem mem_ticks {t : Nat × Nat} : t ∈ ticks last is ↔
    ∃ i, is[t.2]? = some i ∧ t.1 ≤ last ∧ i.firesAt t.1 = true := by
  obtain ⟨time, order⟩ := t
  simp only [ticks, List.mem_flatMap, List.mem_range, List.mem_map, List.mem_filter,
    List.mem_zipIdx_iff_getElem?,
    Prod.mk.injEq]
  constructor
  · rintro ⟨time, hlast, e, ⟨he, hfires⟩, rfl, rfl⟩
    exact ⟨e.1, he, by omega, hfires⟩
  · rintro ⟨i, hi, hlast, hfires⟩
    exact ⟨time, by omega, (i, order), ⟨hi, hfires⟩, rfl, rfl⟩

/-- Places rise along a list. -/
theorem zipIdx_pairwise (is : List Interval) : is.zipIdx.Pairwise fun a b => a.2 < b.2 := by
  have h : (is.zipIdx.map Prod.snd).Pairwise (· < ·) := by
    rw [List.zipIdx_map_snd, ← List.range_eq_range']
    exact List.pairwise_lt_range
  exact List.pairwise_map.mp h

theorem ticks_pairwise (last : Nat) (is : List Interval) :
    (ticks last is).Pairwise fun a b => a.1 < b.1 ∨ a.1 = b.1 ∧ a.2 < b.2 := by
  refine List.pairwise_flatMap.mpr ⟨?_, ?_⟩
  · intro time _
    refine List.pairwise_map.mpr (((zipIdx_pairwise is).filter _).imp ?_)
    intro a b h
    exact .inr ⟨rfl, h⟩
  · refine List.pairwise_lt_range.imp ?_
    intro t u htu a ha b hb
    obtain ⟨-, -, rfl⟩ := List.mem_map.mp ha
    obtain ⟨-, -, rfl⟩ := List.mem_map.mp hb
    exact .inl htu

theorem ne_of_before {a b : Nat × Nat} (h : a.1 < b.1 ∨ a.1 = b.1 ∧ a.2 < b.2) : a ≠ b := by
  rintro rfl
  omega

theorem mem_allFirings {count : Interval → Nat} {f : Firing} : f ∈ Interval.allFirings count 0 is ↔
    ∃ i, is[f.order]? = some i ∧ ∃ j < count i, f = ⟨(i.later j).due, f.order, i.callback⟩ := by
  simp only [Interval.allFirings, Interval.firings, List.mem_flatMap, List.mem_map, List.mem_range,
    List.mem_zipIdx_iff_getElem?]
  constructor
  · rintro ⟨e, he, j, hj, rfl⟩
    exact ⟨e.1, he, j, hj, rfl⟩
  · rintro ⟨i, hi, j, hj, hf⟩
    exact ⟨(i, f.order), hi, j, hj, hf.symm⟩

/-- The ticks of the firings of one interval after another. -/
theorem map_tick (h : ∀ i ∈ is, i.Exact last) :
    (Interval.allFirings (Interval.firingsUntil last) 0 is).map tick =
      is.zipIdx.flatMap fun e => (List.range (e.1.firingsUntil last)).map fun j =>
        (e.1.dueTime + j * e.1.periodTime, e.2) := by
  rw [Interval.allFirings, List.map_flatMap]
  refine List.flatMap_congr ?_
  intro e he
  have hexact := h e.1 (List.mem_of_getElem? (List.mem_zipIdx_iff_getElem?.mp he))
  rw [Interval.firings, List.map_map]
  refine List.map_congr_left ?_
  intro j hj
  exact tick_eq (later_whole hexact (Nat.le_of_lt (List.mem_range.mp hj)))

theorem map_tick_nodup (h : ∀ i ∈ is, i.Exact last) :
    ((Interval.allFirings (Interval.firingsUntil last) 0 is).map tick).Nodup := by
  rw [map_tick h]
  refine List.pairwise_flatMap.mpr ⟨?_, ?_⟩
  · intro e he
    have hexact := h e.1 (List.mem_of_getElem? (List.mem_zipIdx_iff_getElem?.mp he))
    have hpos := (exact_times hexact).2.2.1
    refine List.pairwise_map.mpr (List.pairwise_lt_range.imp ?_)
    intro j k hjk
    have hlt := Nat.mul_lt_mul_of_pos_right hjk hpos
    exact ne_of_before (.inl (by simp only; omega))
  · refine (zipIdx_pairwise is).imp ?_
    intro e f hef a ha b hb
    obtain ⟨-, -, rfl⟩ := List.mem_map.mp ha
    obtain ⟨-, -, rfl⟩ := List.mem_map.mp hb
    rintro hsame
    exact Nat.ne_of_lt hef (Prod.ext_iff.mp hsame).2

/-- Sorted, the firings of all intervals go by time and then by place. -/
theorem sorted_ticks (h : ∀ i ∈ is, i.Exact last) :
    ((Interval.allFirings (Interval.firingsUntil last) 0 is).map tick).mergeSort notAfter =
      ticks last is := by
  have hticks := ticks_pairwise last is
  have hordered : (ticks last is).Pairwise fun a b => notAfter a b = true := by
    refine hticks.imp ?_
    intro a b hab
    rw [notAfter_iff]
    omega
  -- both lists hold each tick once
  have hperm : ((Interval.allFirings (Interval.firingsUntil last) 0 is).map tick).Perm (ticks last is) := by
    refine (List.perm_ext_iff_of_nodup (map_tick_nodup h) (hticks.imp ne_of_before)).mpr ?_
    intro t
    rw [mem_ticks, map_tick h]
    simp only [List.mem_flatMap, List.mem_map, List.mem_range, List.mem_zipIdx_iff_getElem?]
    constructor
    · rintro ⟨e, he, j, hj, rfl⟩
      have hpos := (exact_times (h e.1 (List.mem_of_getElem? he))).2.2.1
      exact ⟨e.1, he, (exists_firing_iff hpos).mp ⟨j, hj, rfl⟩⟩
    · rintro ⟨i, hi, hfires⟩
      have hpos := (exact_times (h i (List.mem_of_getElem? hi))).2.2.1
      obtain ⟨j, hj, htime⟩ := (exists_firing_iff hpos).mpr hfires
      exact ⟨(i, t.2), hi, j, hj, Prod.ext htime rfl⟩
  exact List.Perm.eq_of_pairwise (fun a b _ _ => notAfter_antisymm) (mergeSort_ordered _) hordered
    ((List.mergeSort_perm _ _).trans hperm)

end Order

section Batches

/-- The callbacks of the intervals that fire at a time, in their places. -/
def callbacksAt (is : List Interval) (time : Nat) : List Value :=
  (is.filter fun i => i.firesAt time).map Interval.callback

theorem ticks_callbacks (last : Nat) (is : List Interval) :
    (ticks last is).map (fun t => (is[t.2]?.map Interval.callback).getD .null) =
      (List.range (last + 1)).flatMap (callbacksAt is) := by
  rw [ticks, List.map_flatMap]
  refine List.flatMap_congr ?_
  intro time _
  have hplaces : is.filter (fun i => i.firesAt time) =
      (is.zipIdx.filter fun e => e.1.firesAt time).map Prod.fst := by
    nth_rewrite 1 [← List.zipIdx_map_fst 0 is]
    exact List.filter_map
  rw [callbacksAt, hplaces, List.map_map, List.map_map]
  refine List.map_congr_left ?_
  intro e he
  have hat := List.mem_zipIdx_iff_getElem?.mp (List.mem_filter.mp he).1
  simp only [Function.comp_apply, hat, Option.map_some, Option.getD_some]

/-- What intervals give out up to a time. -/
theorem sorted_callbacks (h : ∀ i ∈ is, i.Exact last) :
    ((Interval.allFirings (Interval.firingsUntil last) 0 is).mergeSort Firing.precedes).map Firing.callback =
      (List.range (last + 1)).flatMap (callbacksAt is) := by
  have hwhole : ∀ f ∈ Interval.allFirings (Interval.firingsUntil last) 0 is, ∃ time, IsWhole f.due time := by
    intro f hf
    obtain ⟨i, hi, j, hj, hf⟩ := mem_allFirings.mp hf
    rw [hf]
    exact ⟨_, later_whole (h i (List.mem_of_getElem? hi)) (Nat.le_of_lt hj)⟩
  have hmap := List.map_mergeSort (r := Firing.precedes) (s := notAfter) (f := tick)
    (l := Interval.allFirings (Interval.firingsUntil last) 0 is) (by
      intro f hf g hg
      obtain ⟨t, ht⟩ := hwhole f hf
      obtain ⟨u, hu⟩ := hwhole g hg
      exact precedes_eq ht hu)
  rw [← ticks_callbacks, ← sorted_ticks h, ← hmap, List.map_map]
  refine List.map_congr_left ?_
  intro f hf
  obtain ⟨i, hi, j, -, hf⟩ := mem_allFirings.mp (List.mem_mergeSort.mp hf)
  have horder : (tick f).2 = f.order := rfl
  rw [Function.comp_apply, horder, hi, hf]
  rfl

variable {s : Schedule} {elapsed : Float} {fuel : Nat}

/-- The schedule once the clock was moved by `elapsed`, to the time `last`. -/
def advanced (s : Schedule) (elapsed : Float) (last : Nat) : Schedule :=
  { s with
    now := s.now + elapsed
    intervals := s.intervals.map fun i => i.later (i.firingsUntil last)
    frames := [] }

/-- An advance in whole milliseconds gives out every firing up to the new time. -/
theorem advance_exact (hlive : s.stopped = false) (hnow : IsWhole (s.now + elapsed) last)
    (h : ∀ i ∈ s.intervals, i.Exact last) (hfuel : ∀ i ∈ s.intervals, i.firingsUntil last ≤ fuel) :
    s.advance? fuel elapsed =
      some (s.frames ++ (List.range (last + 1)).flatMap (callbacksAt s.intervals),
        advanced s elapsed last) := by
  unfold advanced
  rw [advance_of_overtakes hlive (Interval.firingsUntil last)
    (fun i hi => overtakes_firingsUntil hnow (h i hi)) hfuel, sorted_callbacks h]

end Batches

section Cuts

variable {mid : Nat}

theorem exact_mono (hle : mid ≤ last) (h : i.Exact last) : i.Exact mid := by
  obtain ⟨due, period, hdue, hperiod, hpos, hsum⟩ := h
  exact ⟨due, period, hdue, hperiod, hpos, by omega⟩

theorem later_dueTime (h : i.Exact last) (hk : k ≤ i.firingsUntil last) :
    (i.later k).dueTime = i.dueTime + k * i.periodTime :=
  dueTime_eq (later_whole h hk)

theorem later_periodTime (i : Interval) (k : Nat) : (i.later k).periodTime = i.periodTime := by
  rw [Interval.periodTime, later_period, Interval.periodTime]

/-- An interval that has caught up stays exact. -/
theorem later_exact (hle : mid ≤ last) (h : i.Exact last) : (i.later (i.firingsUntil mid)).Exact last := by
  have hwhole := later_whole (exact_mono hle h) (Nat.le_refl _)
  obtain ⟨due, period, -, hperiod, hpos, hsum⟩ := h
  exact ⟨_, period, hwhole, by rwa [later_period], hpos, hsum⟩

/-- After it has caught up, an interval is not due before the time that it has reached. -/
theorem lt_later_dueTime (h : i.Exact mid) : mid < (i.later (i.firingsUntil mid)).dueTime := by
  have hpos := (exact_times h).2.2.1
  have hahead := lt_firingsUntil hpos (i.firingsUntil mid) mid
  rw [later_dueTime h (Nat.le_refl _)]
  omega

theorem later_firesAt_late (h : i.Exact mid) (htime : mid < time) :
    (i.later (i.firingsUntil mid)).firesAt time = i.firesAt time := by
  have hpos := (exact_times h).2.2.1
  rw [Bool.eq_iff_iff, firesAt_iff, firesAt_iff, later_periodTime, later_dueTime h (Nat.le_refl _)]
  constructor
  · rintro ⟨q, rfl⟩
    exact ⟨i.firingsUntil mid + q, by rw [Nat.add_mul, Nat.add_assoc]⟩
  · rintro ⟨q, rfl⟩
    have hq : i.firingsUntil mid ≤ q := by
      have hreached := lt_firingsUntil hpos q mid
      omega
    refine ⟨q - i.firingsUntil mid, ?_⟩
    rw [Nat.add_assoc, ← Nat.add_mul, Nat.add_sub_cancel' hq]

/-- The firings up to the end are those up to a time between, and those after it. -/
theorem firingsUntil_add (hle : mid ≤ last) (h : i.Exact last) :
    i.firingsUntil mid + (i.later (i.firingsUntil mid)).firingsUntil last = i.firingsUntil last := by
  have hpos := (exact_times h).2.2.1
  have hmid := exact_mono hle h
  have hpos' : 0 < (i.later (i.firingsUntil mid)).periodTime := by rwa [later_periodTime]
  -- the two numbers have the same numbers below them
  have hsame (j : Nat) :
      j < i.firingsUntil mid + (i.later (i.firingsUntil mid)).firingsUntil last ↔
        j < i.firingsUntil last := by
    rcases Nat.lt_or_ge j (i.firingsUntil mid) with hj | hj
    · have hreached := (lt_firingsUntil hpos j mid).mp hj
      have hlast := lt_firingsUntil hpos j last
      omega
    · obtain ⟨q, rfl⟩ := Nat.exists_eq_add_of_le hj
      have hlater := lt_firingsUntil hpos' q last
      rw [later_periodTime, later_dueTime hmid (Nat.le_refl _), Nat.add_assoc, ← Nat.add_mul] at hlater
      rw [lt_firingsUntil hpos, ← hlater]
      omega
  have hleft := hsame (i.firingsUntil last)
  have hright := hsame (i.firingsUntil mid + (i.later (i.firingsUntil mid)).firingsUntil last)
  omega

theorem callbacksAt_eq_nil (h : ∀ i ∈ is, time < i.dueTime) : callbacksAt is time = [] := by
  rw [callbacksAt, List.filter_eq_nil_iff.mpr, List.map_nil]
  intro i hi hfires
  obtain ⟨q, hq⟩ := firesAt_iff.mp hfires
  have hlate := h i hi
  omega

theorem callbacksAt_later_late (h : ∀ i ∈ is, i.Exact mid) (htime : mid < time) :
    callbacksAt (is.map fun i => i.later (i.firingsUntil mid)) time = callbacksAt is time := by
  rw [callbacksAt, callbacksAt, List.filter_map, List.map_map]
  have hfires : is.filter ((fun i => i.firesAt time) ∘ fun i => i.later (i.firingsUntil mid)) =
      is.filter fun i => i.firesAt time :=
    List.filter_congr fun i hi => later_firesAt_late (h i hi) htime
  rw [hfires]
  exact List.map_congr_left fun i _ => later_callback i _

theorem range_split (hle : mid ≤ last) :
    List.range (last + 1) = List.range (mid + 1) ++ List.range' (mid + 1) (last - mid) := by
  have hsum : last + 1 = mid + 1 + (last - mid) := by omega
  rw [hsum, List.range_eq_range', List.range_eq_range', ← List.range'_append (s := 0) (m := mid + 1)]
  simp

/-- Intervals that have caught up give out nothing before the time that they have reached. -/
theorem callbacks_after (hle : mid ≤ last) (h : ∀ i ∈ is, mid < i.dueTime) :
    (List.range (last + 1)).flatMap (callbacksAt is) =
      (List.range' (mid + 1) (last - mid)).flatMap (callbacksAt is) := by
  have hearly : (List.range (mid + 1)).flatMap (callbacksAt is) = [] := by
    rw [List.flatMap_eq_nil_iff]
    intro time htime
    refine callbacksAt_eq_nil fun i hi => Nat.lt_of_le_of_lt ?_ (h i hi)
    exact Nat.le_of_lt_succ (List.mem_range.mp htime)
  rw [range_split hle, List.flatMap_append, hearly, List.nil_append]

/-- What is given out up to the end is what is given out up to a time between, and what the intervals give out
that have caught up with it. -/
theorem callbacks_cut (hle : mid ≤ last) (h : ∀ i ∈ is, i.Exact mid) :
    (List.range (mid + 1)).flatMap (callbacksAt is) ++
        (List.range (last + 1)).flatMap (callbacksAt (is.map fun i => i.later (i.firingsUntil mid))) =
      (List.range (last + 1)).flatMap (callbacksAt is) := by
  have hahead : ∀ i ∈ is.map fun i => i.later (i.firingsUntil mid), mid < i.dueTime := by
    intro i' hi'
    obtain ⟨i, hi, rfl⟩ := List.mem_map.mp hi'
    exact lt_later_dueTime (h i hi)
  have hlate : (List.range' (mid + 1) (last - mid)).flatMap
        (callbacksAt (is.map fun i => i.later (i.firingsUntil mid))) =
      (List.range' (mid + 1) (last - mid)).flatMap (callbacksAt is) := by
    refine List.flatMap_congr ?_
    intro time htime
    exact callbacksAt_later_late h (List.mem_range'_1.mp htime).1
  rw [callbacks_after hle hahead, hlate, range_split hle, List.flatMap_append]

variable {s : Schedule} {a b : Float}

/-- Each interval of the advanced schedule is one that has caught up. -/
theorem forall_advanced {P : Interval → Prop} (h : ∀ i ∈ s.intervals, P (i.later (i.firingsUntil mid))) :
    ∀ i ∈ (advanced s a mid).intervals, P i := by
  intro i' hi'
  obtain ⟨i, hi, rfl⟩ := List.mem_map.mp hi'
  exact h i hi

/-- To advance by way of a time between leads to the same schedule. -/
theorem advanced_advanced (hle : mid ≤ last) (h : ∀ i ∈ s.intervals, i.Exact last)
    (hassoc : s.now + a + b = s.now + (a + b)) :
    advanced (advanced s a mid) b last = advanced s (a + b) last := by
  have hintervals : (s.intervals.map fun i => i.later (i.firingsUntil mid)).map
        (fun i => i.later (i.firingsUntil last)) =
      s.intervals.map fun i => i.later (i.firingsUntil last) := by
    rw [List.map_map]
    refine List.map_congr_left ?_
    intro i hi
    rw [Function.comp_apply, later_add, firingsUntil_add hle (h i hi)]
  simp only [advanced, hintervals, hassoc]

theorem cut_advance {t n m : Nat} (hlive : s.stopped = false) (hframes : s.frames = [])
    (ht : IsWhole s.now t) (ha : IsWhole a n) (hb : IsWhole b m) (hexact : s.ExactUntil (t + n + m)) :
    ∃ bound, ∀ fuel ≥ bound, ∃ first between second final,
      s.advance? fuel a = some (first, between) ∧ between.advance? fuel b = some (second, final) ∧
        s.advance? fuel (a + b) = some (first ++ second, final) := by
  obtain ⟨hsum, hexact⟩ := hexact
  have hle : t + n ≤ t + n + m := Nat.le_add_right _ _
  have hmid : ∀ i ∈ s.intervals, i.Exact (t + n) := fun i hi => exact_mono hle (hexact i hi)
  have hnow := whole_add ht ha (by omega)
  have hend := whole_add hnow hb hsum
  have hassoc := whole_add_assoc ht ha hb hsum
  obtain ⟨bound, hbound⟩ := exists_bound (Interval.firingsUntil (t + n + m)) s.intervals
  refine ⟨bound, fun fuel hfuel => ?_⟩
  -- what is enough for the whole way is enough for each part
  have hparts : ∀ i ∈ s.intervals,
      i.firingsUntil (t + n) + (i.later (i.firingsUntil (t + n))).firingsUntil (t + n + m) ≤ fuel := by
    intro i hi
    rw [firingsUntil_add hle (hexact i hi)]
    exact Nat.le_trans (hbound i hi) hfuel
  have hfirst := advance_exact hlive hnow hmid fun i hi => Nat.le_trans (Nat.le_add_right _ _) (hparts i hi)
  have hsecond := advance_exact (s := advanced s a (t + n)) hlive hend
    (forall_advanced fun i hi => later_exact hle (hexact i hi))
    (forall_advanced fun i hi => Nat.le_trans (Nat.le_add_left _ _) (hparts i hi))
  have hwhole := advance_exact hlive (hassoc ▸ hend) hexact fun i hi => Nat.le_trans (hbound i hi) hfuel
  refine ⟨_, _, _, _, hfirst, hsecond, ?_⟩
  have hcallbacks := callbacks_cut hle hmid
  rw [hwhole, advanced_advanced hle hexact hassoc, ← hcallbacks, hframes]
  rfl

end Cuts

section Timelines

variable {t n period : Nat} {r : Registration} {rs : List Registration} {s s' : Schedule} {elapsed : Float}

/-- The interval was registered so, and is due next at the first of its times after `now`. -/
structure Follows (now : Nat) (r : Registration) (i : Interval) : Prop where
  callback : i.callback = r.callback
  period : IsWhole i.period r.period
  pos : 0 < r.period
  due : ∃ q, IsWhole i.due (r.since + (q + 1) * r.period) ∧ now < r.since + (q + 1) * r.period ∧
    r.since + q * r.period ≤ now

theorem follows_dueTime (h : Follows t r i) : t < i.dueTime := by
  obtain ⟨q, hdue, hahead, -⟩ := h.due
  rwa [dueTime_eq hdue]

theorem follows_firesAt_late (h : Follows t r i) (htime : t < time) : i.firesAt time = r.firesAt time := by
  obtain ⟨q, hdue, -, hfirst⟩ := h.due
  rw [Bool.eq_iff_iff, firesAt_iff, dueTime_eq hdue, periodTime_eq h.period]
  simp only [Registration.firesAt, Bool.and_eq_true, decide_eq_true_eq]
  constructor
  · rintro ⟨j, rfl⟩
    have hpos := Nat.mul_pos (Nat.succ_pos q) h.pos
    refine ⟨by omega, q + 1 + j, ?_⟩
    rw [Nat.add_assoc, ← Nat.add_mul, Nat.add_sub_cancel_left, Nat.mul_comm]
  · rintro ⟨hsince, c, hc⟩
    have hq : q < c := by
      by_contra hge
      have hmul := Nat.mul_le_mul_right r.period (Nat.le_of_not_lt hge)
      rw [Nat.mul_comm c] at hmul
      omega
    refine ⟨c - (q + 1), ?_⟩
    rw [Nat.add_assoc, ← Nat.add_mul, Nat.add_sub_cancel' hq, Nat.mul_comm, ← hc]
    omega

theorem follows_exact (h : Follows t r i) (hsum : last + r.period ≤ 2 ^ 53) : i.Exact last := by
  obtain ⟨q, hdue, -⟩ := h.due
  exact ⟨_, _, hdue, h.period, h.pos, hsum⟩

/-- An interval that has caught up still follows its registration. -/
theorem follows_later (h : Follows t r i) (hle : t ≤ last) (hsum : last + r.period ≤ 2 ^ 53) :
    Follows last r (i.later (i.firingsUntil last)) := by
  have hexact := follows_exact h hsum
  have hwhole := later_whole hexact (Nat.le_refl _)
  have hahead := lt_later_dueTime hexact
  obtain ⟨q, hdue, hahead', hfirst⟩ := h.due
  rw [dueTime_eq hwhole] at hahead
  have hpos := (exact_times hexact).2.2.1
  have hreached := fun j => lt_firingsUntil hpos j last
  rw [dueTime_eq hdue, periodTime_eq h.period] at hwhole hahead
  simp only [dueTime_eq hdue, periodTime_eq h.period] at hreached
  generalize i.firingsUntil last = k at hwhole hahead hreached
  have hsteps : r.since + (q + 1) * r.period + k * r.period = r.since + (q + k + 1) * r.period := by
    rw [Nat.add_assoc, ← Nat.add_mul, Nat.add_right_comm]
  rw [hsteps] at hwhole hahead
  refine ⟨(later_callback i k).trans h.callback, by rw [later_period]; exact h.period, h.pos, q + k, hwhole,
    hahead, ?_⟩
  cases k with
  | zero => exact Nat.le_trans hfirst hle
  | succ k =>
    have hlast := (hreached k).mp (Nat.lt_succ_self k)
    rw [Nat.add_assoc, ← Nat.add_mul, Nat.add_right_comm] at hlast
    exact hlast

/-- At one time, the intervals that fire are those whose registrations do. -/
theorem follows_callbacksAt {is : List Interval} (h : List.Forall₂ (Follows t) rs is) (htime : t < time) :
    callbacksAt is time = (rs.filter fun r => r.firesAt time).map Registration.callback := by
  unfold callbacksAt
  induction h with
  | nil => rfl
  | cons hfollows _ ih =>
    rw [List.filter_cons, List.filter_cons, follows_firesAt_late hfollows htime]
    split
    · rw [List.map_cons, List.map_cons, hfollows.callback, ih]
    · exact ih

theorem exists_registration {is : List Interval} (h : List.Forall₂ (Follows t) rs is) (hi : i ∈ is) :
    ∃ r ∈ rs, Follows t r i := by
  induction h with
  | nil => exact absurd hi List.not_mem_nil
  | cons hfollows _ ih =>
    rcases List.mem_cons.mp hi with rfl | hmem
    · exact ⟨_, List.mem_cons_self, hfollows⟩
    · obtain ⟨r, hr, hfollows⟩ := ih hmem
      exact ⟨r, List.mem_cons_of_mem _ hr, hfollows⟩

theorem follows_callbacks {is : List Interval} (h : List.Forall₂ (Follows t) rs is) (hle : t ≤ last) :
    (List.range (last + 1)).flatMap (callbacksAt is) = Registration.firings rs t last := by
  have hahead : ∀ i ∈ is, t < i.dueTime := by
    intro i hi
    obtain ⟨r, -, hfollows⟩ := exists_registration h hi
    exact follows_dueTime hfollows
  rw [callbacks_after hle hahead, Registration.firings]
  refine List.flatMap_congr ?_
  intro time htime
  exact follows_callbacksAt h (List.mem_range'_1.mp htime).1

theorem follows_exactUntil {is : List Interval} (h : List.Forall₂ (Follows t) rs is)
    (hexact : Registration.ExactUntil rs last) : ∀ i ∈ is, i.Exact last := by
  intro i hi
  obtain ⟨r, hr, hfollows⟩ := exists_registration h hi
  exact follows_exact hfollows (hexact.2 r hr)

theorem follows_advanced {is : List Interval} (h : List.Forall₂ (Follows t) rs is) (hle : t ≤ last)
    (hexact : Registration.ExactUntil rs last) :
    List.Forall₂ (Follows last) rs (is.map fun i => i.later (i.firingsUntil last)) := by
  obtain ⟨-, hexact⟩ := hexact
  induction h with
  | nil => exact .nil
  | cons hfollows _ ih =>
    exact .cons (follows_later hfollows hle (hexact _ List.mem_cons_self))
      (ih fun r hr => hexact r (List.mem_cons_of_mem _ hr))

/-- The schedule at a time, with intervals that follow these registrations. -/
structure Keeps (now : Nat) (rs : List Registration) (s : Schedule) : Prop where
  live : s.stopped = false
  clock : IsWhole s.now now
  intervals : List.Forall₂ (Follows now) rs s.intervals

/-- An advance gives out what the registrations say. -/
theorem keeps_advance (h : Keeps t rs s) (helapsed : IsWhole elapsed n)
    (hexact : Registration.ExactUntil rs (t + n)) :
    ∃ s', Keeps (t + n) rs s' ∧ ∀ fuel, (∀ i ∈ s.intervals, i.firingsUntil (t + n) ≤ fuel) →
      s.advance? fuel elapsed = some (s.frames ++ Registration.firings rs t (t + n), s') := by
  have hle : t ≤ t + n := Nat.le_add_right t n
  have hnow := whole_add h.clock helapsed hexact.1
  refine ⟨advanced s elapsed (t + n), ⟨h.live, hnow, follows_advanced h.intervals hle hexact⟩, ?_⟩
  intro fuel hfuel
  rw [advance_exact h.live hnow (follows_exactUntil h.intervals hexact) hfuel,
    follows_callbacks h.intervals hle]

theorem clampPeriod_pos {given : Float} (h : IsWhole (Schedule.clampPeriod given) period) : 0 < period :=
  (whole_le isWhole_one h).mp (minPeriod_le_clampPeriod given)

theorem keeps_addInterval {callback : Value} {given : Float} (h : Keeps t rs s)
    (hperiod : IsWhole (Schedule.clampPeriod given) period) (hsum : t + period ≤ 2 ^ 53) :
    Keeps t (rs ++ [⟨callback, t, period⟩]) (s.addInterval callback given) := by
  have hpos := clampPeriod_pos hperiod
  unfold Schedule.addInterval
  rw [if_neg (Bool.eq_false_iff.mp h.live)]
  refine ⟨h.live, h.clock, List.rel_append h.intervals (.cons ⟨rfl, hperiod, hpos, 0, ?_, ?_, ?_⟩ .nil)⟩
  · rw [Nat.zero_add, Nat.one_mul]
    exact whole_add h.clock hperiod hsum
  · simp only
    omega
  · simp only
    omega

/-- Every timeline leads to a schedule that follows its registrations. -/
theorem keeps_of_timeline (h : s.Timeline t rs) : Keeps t rs s := by
  induction h with
  | idle => exact ⟨rfl, isWhole_zero, .nil⟩
  | interval _ hperiod hsum ih => exact keeps_addInterval ih hperiod hsum
  | frame _ ih =>
    unfold Schedule.requestFrame
    rw [if_neg (Bool.eq_false_iff.mp ih.live)]
    exact ⟨ih.live, ih.clock, ih.intervals⟩
  | @advance now time fuel rs s s' elapsed due _ helapsed hexact hadvance ih =>
    obtain ⟨after, hafter, hgives⟩ := keeps_advance ih helapsed hexact
    have hnow := whole_add ih.clock helapsed hexact.1
    have hfuel : ∀ i ∈ s.intervals, i.firingsUntil (now + time) ≤ fuel := by
      intro i hi
      obtain ⟨k, hk, hovertakes⟩ := overtakes_of_advance ih.live hadvance i hi
      rwa [overtakes_unique (overtakes_firingsUntil hnow (follows_exactUntil ih.intervals hexact i hi))
        hovertakes]
    rw [hgives fuel hfuel] at hadvance
    cases hadvance
    exact hafter

/-- In whole milliseconds, time may be cut into advances anywhere: an advance and then another give out what
one over both times does, and leave the same schedule. And each advance gives out the callbacks that waited
for a frame and then the firings between the old time and the new one: each interval fires once at each whole
number of periods after it was registered, by time and at one time in the order of registration. -/
theorem firings_follow_registrations :
    (∀ (s : Schedule) (a b : Float) (t n m : Nat), s.stopped = false → s.frames = [] → IsWhole s.now t →
      IsWhole a n →
      IsWhole b m → s.ExactUntil (t + n + m) →
      ∃ bound, ∀ fuel ≥ bound, ∃ first between second final,
        s.advance? fuel a = some (first, between) ∧ between.advance? fuel b = some (second, final) ∧
          s.advance? fuel (a + b) = some (first ++ second, final)) ∧
    ∀ (s : Schedule) (t n : Nat) (rs : List Registration) (elapsed : Float), s.Timeline t rs →
      IsWhole elapsed n →
      Registration.ExactUntil rs (t + n) →
      ∃ s' bound, ∀ fuel ≥ bound,
        s.advance? fuel elapsed = some (s.frames ++ Registration.firings rs t (t + n), s') := by
  constructor
  · intro s a b t n m hlive hframes ht ha hb hexact
    exact cut_advance hlive hframes ht ha hb hexact
  · intro s t n rs elapsed htimeline helapsed hexact
    obtain ⟨s', -, hgives⟩ := keeps_advance (keeps_of_timeline htimeline) helapsed hexact
    obtain ⟨bound, hbound⟩ := exists_bound (Interval.firingsUntil (t + n)) s.intervals
    exact ⟨s', bound, fun fuel hfuel => hgives fuel fun i hi => Nat.le_trans (hbound i hi) hfuel⟩

/-- Two intervals, of two and of three milliseconds, registered at time zero. -/
def twoAndThree : Schedule :=
  (Schedule.idle.addInterval (.text "two") 2).addInterval (.text "three") 3

theorem twoAndThree_timeline : twoAndThree.Timeline 0 [⟨.text "two", 0, 2⟩, ⟨.text "three", 0, 3⟩] := by
  have htwo : IsWhole (Schedule.clampPeriod 2) 2 := natural?_eq_some_iff.mp (by decide +kernel)
  have hthree : IsWhole (Schedule.clampPeriod 3) 3 := natural?_eq_some_iff.mp (by decide +kernel)
  exact .interval (.interval .idle htwo (by decide)) hthree (by decide)

/-- Both intervals fire at six milliseconds, in the order of their registration, whether or not the clock
stops at three milliseconds between. -/
theorem firings_follow_registrations_twoAndThree :
    twoAndThree.Timeline 0 [⟨.text "two", 0, 2⟩, ⟨.text "three", 0, 3⟩] ∧
    (∃ s' bound, ∀ fuel ≥ bound, twoAndThree.advance? fuel 6 =
      some ([.text "two", .text "three", .text "two", .text "two", .text "three"], s')) ∧
    ∃ bound, ∀ fuel ≥ bound, ∃ first between second final,
      twoAndThree.advance? fuel 3 = some (first, between) ∧ between.advance? fuel 3 = some (second, final) ∧
        twoAndThree.advance? fuel (3 + 3) = some (first ++ second, final) := by
  have hthree : IsWhole 3 3 := natural?_eq_some_iff.mp (by decide +kernel)
  have hsix : IsWhole 6 6 := natural?_eq_some_iff.mp (by decide +kernel)
  have hexact : Registration.ExactUntil [⟨.text "two", 0, 2⟩, ⟨.text "three", 0, 3⟩] 6 := by
    refine ⟨by decide, ?_⟩
    simp
  have hkeeps := keeps_of_timeline twoAndThree_timeline
  refine ⟨twoAndThree_timeline, ?_, ?_⟩
  · exact firings_follow_registrations.2 twoAndThree 0 6 _ 6 twoAndThree_timeline hsix hexact
  · exact firings_follow_registrations.1 twoAndThree 3 3 0 3 3 hkeeps.live rfl hkeeps.clock hthree hthree
      ⟨by decide, follows_exactUntil hkeeps.intervals hexact⟩

end Timelines

end Proofs.Timetable
end Scriptlet
