import Scriptlet.Proofs.Contents
import Scriptlet.Proofs.DoubleSums

namespace Scriptlet

namespace Interval

/-- The interval after one more firing. -/
def next (i : Interval) : Interval :=
  { i with due := i.due + i.period }

/-- The interval after so many more firings. -/
def later (i : Interval) : Nat → Interval
  | 0 => i
  | k + 1 => i.next.later k

/-- The interval has fired `k` times when it is ahead of the clock. -/
structure Overtakes (i : Interval) (now : Float) (k : Nat) : Prop where
  reached : ∀ j < k, (i.later j).due ≤ now
  ahead : ¬(i.later k).due ≤ now

/-- So many firings of an interval, which stands in place `order`. -/
def firings (i : Interval) (order k : Nat) : List Firing :=
  (List.range k).map fun j => ⟨(i.later j).due, order, i.callback⟩

/-- The firings of intervals one after another, with a number of firings for each. -/
def allFirings (count : Interval → Nat) (order : Nat) (is : List Interval) : List Firing :=
  (is.zipIdx order).flatMap fun e => e.1.firings e.2 (count e.1)

end Interval

namespace Proofs.CatchingUp
open Contents DoubleSums

variable {i : Interval} {now elapsed : Float} {fuel j k order : Nat} {times : List Float} {is : List Interval}

section Later

theorem later_callback (i : Interval) (k : Nat) : (i.later k).callback = i.callback := by
  induction k generalizing i with
  | zero => rfl
  | succ k ih => exact ih i.next

theorem later_period (i : Interval) (k : Nat) : (i.later k).period = i.period := by
  induction k generalizing i with
  | zero => rfl
  | succ k ih => exact ih i.next

theorem later_add (i : Interval) (j k : Nat) : (i.later j).later k = i.later (j + k) := by
  induction j generalizing i with
  | zero => rw [Nat.zero_add]; rfl
  | succ j ih =>
    rw [Nat.succ_add]
    exact ih i.next

theorem later_succ (i : Interval) (k : Nat) : (i.later (k + 1)).due = (i.later k).due + i.period := by
  rw [← later_add i k 1, ← later_period i k]
  rfl

end Later

section Periods

/-- Whatever period is asked for, the one that is kept is finite. -/
theorem clampPeriod_finite (given : Float) : (Schedule.clampPeriod given).isFinite = true := by
  unfold Schedule.clampPeriod
  split
  · rename_i hlong
    exact (Bool.and_eq_true_iff.mp hlong).1
  · rfl

/-- It is not shorter than the shortest. -/
theorem minPeriod_le_clampPeriod (given : Float) : Schedule.minPeriod ≤ Schedule.clampPeriod given := by
  unfold Schedule.clampPeriod
  split
  · rename_i hlong
    have hlt : Schedule.minPeriod < given := decide_eq_true_iff.mp (Bool.and_eq_true_iff.mp hlong).2
    obtain ⟨hmin, hgiven, hunits⟩ := lt_iff.mp hlt
    exact le_iff.mpr ⟨hmin, hgiven, Int.le_of_lt hunits⟩
  · exact (whole_le isWhole_one isWhole_one).mpr (Nat.le_refl 1)

end Periods

section CatchUp

theorem overtakes_next (h : i.Overtakes now (k + 1)) : i.next.Overtakes now k :=
  ⟨fun j hj => h.reached (j + 1) (by omega), h.ahead⟩

theorem overtakes_of_next (hdue : i.due ≤ now) (h : i.next.Overtakes now k) : i.Overtakes now (k + 1) := by
  refine ⟨?_, h.ahead⟩
  intro j hj
  cases j with
  | zero => exact hdue
  | succ j => exact h.reached j (by omega)

theorem overtakes_unique (hj : i.Overtakes now j) (hk : i.Overtakes now k) : j = k := by
  rcases Nat.lt_trichotomy j k with h | h | h
  · exact absurd (hk.reached j h) hj.ahead
  · exact h
  · exact absurd (hj.reached k h) hk.ahead

theorem catchUp_ahead (hahead : ¬i.due ≤ now) (fuel : Nat) (times : List Float) :
    Interval.catchUp? now fuel i times = some (times, i) := by
  cases fuel with
  | zero => rw [catchUp_zero, if_neg hahead]
  | succ n => rw [catchUp_succ, if_neg hahead]

/-- An interval that comes to be ahead of the clock gives its due times up to it. -/
theorem catchUp_of_overtakes (h : i.Overtakes now k) (hfuel : k ≤ fuel) (times : List Float) :
    Interval.catchUp? now fuel i times =
      some (((List.range k).map fun j => (i.later j).due).reverse ++ times, i.later k) := by
  induction k generalizing i fuel times with
  | zero => exact catchUp_ahead h.ahead fuel times
  | succ k ih =>
    obtain ⟨n, rfl⟩ : ∃ n, fuel = n + 1 := ⟨fuel - 1, by omega⟩
    have hdue : i.due ≤ now := h.reached 0 (by omega)
    have hnext := ih (overtakes_next h) (Nat.le_of_succ_le_succ hfuel) (i.due :: times)
    rw [catchUp_succ, if_pos hdue]
    refine hnext.trans ?_
    rw [List.range_succ_eq_map, List.map_cons, List.map_map, List.reverse_cons, List.append_assoc]
    rfl

theorem overtakes_of_catchUp {r : List Float × Interval} (h : Interval.catchUp? now fuel i times = some r) :
    ∃ k ≤ fuel, i.Overtakes now k := by
  induction fuel generalizing i times with
  | zero =>
    rw [catchUp_zero] at h
    split at h
    · cases h
    · rename_i hahead
      exact ⟨0, Nat.le_refl _, by omega, hahead⟩
  | succ n ih =>
    rw [catchUp_succ] at h
    split at h
    · rename_i hdue
      obtain ⟨k, hle, hk⟩ := ih (i := i.next) h
      exact ⟨k + 1, Nat.succ_le_succ hle, overtakes_of_next hdue hk⟩
    · rename_i hahead
      exact ⟨0, Nat.zero_le _, by omega, hahead⟩

end CatchUp

section Advance

/-- All intervals give their firings, one interval after another. -/
theorem advanceAll_of_overtakes (count : Interval → Nat) (h : ∀ i ∈ is, i.Overtakes now (count i))
    (hfuel : ∀ i ∈ is, count i ≤ fuel) (order : Nat) :
    Interval.advanceAll? fuel now order is =
      some (Interval.allFirings count order is, is.map fun i => i.later (count i)) := by
  induction is generalizing order with
  | nil => rfl
  | cons i is ih =>
    have hcaught := catchUp_of_overtakes (h i List.mem_cons_self) (hfuel i List.mem_cons_self) []
    have hrest :=
      ih (fun j hj => h j (List.mem_cons_of_mem _ hj)) (fun j hj => hfuel j (List.mem_cons_of_mem _ hj))
      (order + 1)
    simp only [Interval.advanceAll?, hcaught, hrest, List.append_nil, List.reverse_reverse, List.map_map,
      Interval.allFirings, List.zipIdx_cons, List.flatMap_cons, List.map_cons]
    rfl

theorem overtakes_of_advanceAll {r : List Firing × List Interval}
    (h : Interval.advanceAll? fuel now order is = some r) :
    ∀ i ∈ is, ∃ k ≤ fuel, i.Overtakes now k := by
  induction is generalizing order r with
  | nil => simp
  | cons i is ih =>
    unfold Interval.advanceAll? at h
    split at h
    · cases h
    · rename_i times i' hcaught
      split at h
      · cases h
      · rename_i firings is' hrest
        intro j hj
        rcases List.mem_cons.mp hj with rfl | hmem
        · exact overtakes_of_catchUp hcaught
        · exact ih hrest j hmem

variable {s : Schedule}

/-- What an advance gives: the callbacks that waited for it, then all firings in their order. -/
theorem advance_of_overtakes (hlive : s.stopped = false) (count : Interval → Nat)
    (h : ∀ i ∈ s.intervals, i.Overtakes (s.now + elapsed) (count i))
    (hfuel : ∀ i ∈ s.intervals, count i ≤ fuel) :
    s.advance? fuel elapsed =
      some (s.frames ++ ((Interval.allFirings count 0 s.intervals).mergeSort Firing.precedes).map
        Firing.callback,
        { s with
          now := s.now + elapsed
          intervals := s.intervals.map fun i => i.later (count i)
          frames := [] }) := by
  unfold Schedule.advance?
  rw [if_neg (Bool.eq_false_iff.mp hlive)]
  simp only [advanceAll_of_overtakes count h hfuel 0]

theorem exists_bound (count : Interval → Nat) (is : List Interval) : ∃ n, ∀ i ∈ is, count i ≤ n := by
  induction is with
  | nil => exact ⟨0, by simp⟩
  | cons i is ih =>
    obtain ⟨n, hn⟩ := ih
    refine ⟨max (count i) n, ?_⟩
    intro j hj
    rcases List.mem_cons.mp hj with rfl | hmem
    · exact Nat.le_max_left _ _
    · exact Nat.le_trans (hn j hmem) (Nat.le_max_right _ _)

/-- What has an answer has each interval ahead of the clock. -/
theorem overtakes_of_advance {r : List Value × Schedule} (hlive : s.stopped = false)
    (h : s.advance? fuel elapsed = some r) :
    ∀ i ∈ s.intervals, ∃ k ≤ fuel, i.Overtakes (s.now + elapsed) k := by
  unfold Schedule.advance? at h
  rw [if_neg (Bool.eq_false_iff.mp hlive)] at h
  dsimp only at h
  split at h
  · cases h
  · rename_i hall
    exact overtakes_of_advanceAll hall

/-- A number of firings for each interval that comes to be ahead of the clock. -/
theorem exists_count (h : ∀ i ∈ is, ∃ k, i.Overtakes now k) :
    ∃ count : Interval → Nat, ∀ i ∈ is, i.Overtakes now (count i) := by
  classical
  refine ⟨fun i => if hi : ∃ k, i.Overtakes now k then hi.choose else 0, ?_⟩
  intro i hi
  simp only [dif_pos (h i hi)]
  exact (h i hi).choose_spec

/-- An advance leaves each interval after some more firings. -/
theorem advance_intervals {t : Schedule} {due : List Value} (hlive : s.stopped = false)
    (h : s.advance? fuel elapsed = some (due, t)) :
    ∃ count : Interval → Nat, t.intervals = s.intervals.map fun i => i.later (count i) := by
  have hovertakes := overtakes_of_advance hlive h
  obtain ⟨count, hcount⟩ := exists_count fun i hi => (hovertakes i hi).imp fun _ hk => hk.2
  have hfuel : ∀ i ∈ s.intervals, count i ≤ fuel := by
    intro i hi
    obtain ⟨k, hk, hk'⟩ := hovertakes i hi
    rwa [overtakes_unique (hcount i hi) hk']
  rw [advance_of_overtakes hlive count hcount hfuel] at h
  cases h
  exact ⟨count, rfl⟩

/-- Advancing a schedule ends if it was stopped or each interval comes to be ahead of the clock. -/
theorem advance_ends_iff : (∃ fuel r, s.advance? fuel elapsed = some r) ↔
    s.stopped = true ∨ ∀ i ∈ s.intervals, ∃ k, i.Overtakes (s.now + elapsed) k := by
  cases hstopped : s.stopped
  · constructor
    · rintro ⟨fuel, r, h⟩
      right
      intro i hi
      obtain ⟨k, -, hk⟩ := overtakes_of_advance hstopped h i hi
      exact ⟨k, hk⟩
    · rintro (h | h)
      · cases h
      · obtain ⟨count, hcount⟩ := exists_count h
        obtain ⟨fuel, hfuel⟩ := exists_bound count s.intervals
        exact ⟨fuel, _, advance_of_overtakes hstopped count hcount hfuel⟩
  · refine iff_of_true ⟨0, ([], s), ?_⟩ (.inl rfl)
    unfold Schedule.advance?
    rw [if_pos hstopped]

end Advance

end Proofs.CatchingUp
end Scriptlet
