import Scriptlet.Proofs.Effects
import Scriptlet.Proofs.Installation
import Scriptlet.Proofs.Stages

namespace Scriptlet

/-- How an action ended, without its value. -/
def Outcome.void {α : Type} : Outcome α → Outcome Unit
  | .done _ m => .done () m
  | .fault e m => .fault e m
  | .starved => .starved

/-- The calls that a started task makes. -/
def Start.calls (fuel : Nat) (s : Start) : List Call :=
  s.task.calls fuel s.machine

/-- The calls that are made in a stage. -/
def Stage.calls (fuel : Nat) (g : Stage) : List Call :=
  g.starts.flatMap (Start.calls fuel)

/-- The calls that are made in a run. -/
def Host.calls (fuel : Nat) (h : Host) (program : Program) : List Call :=
  (h.stages fuel program).flatMap (Stage.calls fuel)

/-- Stages one after another, at most `n`, from a machine on: each goes on from where the one before ended,
and nothing is written in between. The last one may break off. -/
inductive Stage.Course (fuel : Nat) : Nat → Machine → List Stage → Outcome Unit → Prop where
  | ended (n : Nat) (m : Machine) : Course fuel n m [] (.done () m)
  | spent (n : Nat) (m : Machine) : Course fuel n m [] .starved
  | next {n : Nat} {m m' : Machine} {g : Stage} {gs : List Stage} {o : Outcome Unit}
      (houtput : g.machine.output = m.output)
      (hstage : Start.Chain fuel g.machine g.starts (Outcome.done () m'))
      (h : Course fuel n m' gs o) : Course fuel (n + 1) m (g :: gs) o
  | broken {m : Machine} {g : Stage} {o : Outcome Unit} (n : Nat) (houtput : g.machine.output = m.output)
      (hstage : Start.Chain fuel g.machine g.starts o) (hend : ∀ m', o ≠ .done () m') :
      Course fuel (n + 1) m [g] o

/-- The clock after a number of frames. -/
def Schedule.clockAfter (frameMs : Float) : Nat → Float → Float
  | 0, now => now
  | n + 1, now => clockAfter frameMs n (now + frameMs)

namespace Proofs.Courses
open Machine Plans Calls Effects

variable {fuel : Nat} {α : Type}

theorem machine_void (o : Outcome α) : o.void.machine? = o.machine? := by
  cases o <;> rfl

section Chains

variable {m : Machine} {ss : List Start} {o : Outcome α}

theorem chain_void (h : Start.Chain fuel m ss o) : Start.Chain fuel m ss o.void := by
  induction h with
  | nil a m => exact .nil () m
  | spent m => exact .spent m
  | next ht _ ih => exact .next ht ih
  | fault ht => exact .fault ht
  | starved ht => exact .starved ht

/-- What is started one after another leads where its calls lead. -/
theorem chain_through (h : Start.Chain fuel m ss o) : o.Through m (ss.flatMap (Start.calls fuel)) := by
  induction h with
  | nil a m => exact through_onlyStore (onlyStore_pure a) m
  | spent m => exact nofun
  | @next t m m₁ a ss o ht _ ih =>
    intro m' hend
    have hfirst : m.Through (t.calls fuel m) m₁ := through_run fuel t m m₁ (by rw [ht]; rfl)
    rw [List.flatMap_cons]
    exact .trans hfirst (ih m' hend)
  | @fault t m m₁ e ht =>
    intro m' hend
    rw [List.flatMap_singleton]
    exact through_run fuel t m m' (by rw [ht]; exact hend)
  | starved ht => exact nofun

/-- Only the last of what is started one after another can fault, and its fault is how all of it ends. -/
theorem chain_fault (h : Start.Chain fuel m ss o) {j : Nat} {s : Start} (hs : ss[j]? = some s) {e : Fault}
    {m' : Machine} (hfault : s.outcome fuel = .fault e m') : j + 1 = ss.length ∧ o = .fault e m' := by
  induction h generalizing j with
  | nil a m => cases hs
  | spent m => cases hs
  | next ht _ ih =>
    cases j with
    | zero =>
      cases hs
      cases ht.symm.trans hfault
    | succ j =>
      obtain ⟨hlast, hend⟩ := ih hs
      exact ⟨congrArg (· + 1) hlast, hend⟩
  | fault ht =>
    cases j with
    | zero =>
      cases hs
      cases ht.symm.trans hfault
      exact ⟨rfl, rfl⟩
    | succ j => cases hs
  | starved ht =>
    cases j with
    | zero =>
      cases hs
      cases ht.symm.trans hfault
    | succ j => cases hs

end Chains

section Courses

variable {n : Nat} {m : Machine} {gs : List Stage} {o : Outcome Unit}

theorem course_length (h : Stage.Course fuel n m gs o) : gs.length ≤ n := by
  induction h with
  | ended n m => exact Nat.zero_le n
  | spent n m => exact Nat.zero_le n
  | next _ _ _ ih => exact Nat.succ_le_succ ih
  | broken n => exact Nat.succ_le_succ (Nat.zero_le n)

/-- Only the last stage can have a fault, and only the last that is started in it. -/
theorem course_fault (h : Stage.Course fuel n m gs o) {i j : Nat} {g : Stage} {s : Start}
    (hg : gs[i]? = some g)
    (hs : g.starts[j]? = some s) {e : Fault} {m' : Machine} (hfault : s.outcome fuel = .fault e m') :
    i + 1 = gs.length ∧ j + 1 = g.starts.length ∧ o = .fault e m' := by
  induction h generalizing i with
  | ended n m => cases hg
  | spent n m => cases hg
  | next _ hstage _ ih =>
    cases i with
    | zero =>
      cases hg
      cases (chain_fault hstage hs hfault).2
    | succ i =>
      obtain ⟨hlast, hrest⟩ := ih hg
      exact ⟨congrArg (· + 1) hlast, hrest⟩
  | broken n _ hstage hend =>
    cases i with
    | zero =>
      cases hg
      obtain ⟨hlast, rfl⟩ := chain_fault hstage hs hfault
      exact ⟨rfl, hlast, rfl⟩
    | succ i => cases hg

/-- What is there at the end is what the calls of all stages have written. -/
theorem course_output (h : Stage.Course fuel n m gs o) {m' : Machine} (hend : o.machine? = some m') :
    m'.output = Call.written (gs.flatMap (Stage.calls fuel)) m.output := by
  induction h with
  | ended n m =>
    cases hend
    rfl
  | spent n m => cases hend
  | next houtput hstage _ ih =>
    have hfirst := through_output (chain_through hstage _ rfl)
    rw [ih hend, hfirst, houtput, List.flatMap_cons, Call.written, Call.written, Call.written,
      List.foldl_append]
    rfl
  | broken n houtput hstage _ =>
    have hfirst := through_output (chain_through hstage _ hend)
    rw [hfirst, houtput, List.flatMap_singleton]
    rfl

end Courses

section Hosts

theorem frames_course (fuel : Nat) (frameMs : Float) (n : Nat) (m : Machine) :
    Stage.Course fuel n m (Host.frameStages fuel frameMs n m) (Host.runFrames fuel frameMs n m) := by
  induction n generalizing m with
  | zero => exact .ended 0 m
  | succ n ih =>
    rw [Stages.runFrames_succ]
    unfold Host.frameStages
    by_cases hidle : (m.schedule.stopped || m.schedule.pending == 0) = true
    · rw [if_pos hidle, if_pos hidle]
      exact .ended _ m
    · rw [if_neg hidle, if_neg hidle]
      cases m.schedule.advance? fuel frameMs with
      | none => exact .spent _ m
      | some r =>
        have hchain := Stages.chain_callStarts fuel r.1 { m with schedule := r.2 }
        dsimp only
        generalize Host.callAll fuel r.1 { m with schedule := r.2 } = o at hchain
        cases o with
        | done u m' => exact .next rfl hchain (ih m')
        | fault e m' => exact .broken n rfl hchain nofun
        | starved => exact .broken n rfl hchain nofun

/-- The body of a program begins where the tools are installed, which is done to the store alone, and its
statements form a chain. -/
theorem body_chain (fuel : Nat) (h : Host) (program : Program) :
    (∃ store, (h.bodyStage fuel program).machine = { h.machine with store := store }) ∧
      Start.Chain fuel (h.bodyStage fuel program).machine (h.bodyStage fuel program).starts
        (Host.runBody fuel h.settings program h.machine) := by
  obtain ⟨installed, hinstall, _⟩ := Installation.host_installs h
  rw [Stages.bodyStage_eq hinstall, Stages.runBody_eq hinstall]
  exact ⟨onlyStore_install _ _ h.machine installed (by rw [hinstall]; rfl),
    Stages.chain_starts fuel _ _ _ _ _⟩

/-- Whether or not there is a value behind the frames, they end alike. -/
theorem void_frames (x : Action Unit) (v : Value) (m : Machine) :
    ((x >>= fun _ => pure v) m).void = (x m).void := by
  rw [bind_eq]
  cases x m <;> rfl

/-- A run is a course of at most as many stages as frames may be driven, and one for the body. -/
theorem stages_course (fuel : Nat) (h : Host) (program : Program) :
    Stage.Course fuel (h.settings.maxFrames + 1) h.machine (h.stages fuel program)
      (Host.drive fuel h.settings program h.machine).void := by
  obtain ⟨⟨store, hmachine⟩, hchain⟩ := body_chain fuel h program
  have houtput : (h.bodyStage fuel program).machine.output = h.machine.output := by rw [hmachine]
  rw [Stages.drive_eq, bind_eq]
  unfold Host.stages Host.frames
  -- what the body is no longer matters, only that its statements form a chain
  generalize h.bodyStage fuel program = body at houtput hchain
  generalize Host.runBody fuel h.settings program h.machine = outcome at hchain
  cases outcome with
  | done v m =>
    dsimp only
    rw [void_frames]
    refine .next houtput (chain_void hchain) ?_
    have hframes := frames_course fuel h.settings.frameMs h.settings.maxFrames m
    generalize Host.runFrames fuel h.settings.frameMs h.settings.maxFrames m = o at hframes
    cases o <;> exact hframes
  | fault e m => exact .broken _ houtput (chain_void hchain) nofun
  | starved => exact .broken _ houtput (chain_void hchain) nofun

/-- At the end of a run, the output is what its calls have written. -/
theorem drive_output {h : Host} {program : Program} {m : Machine}
    (hend : (Host.drive fuel h.settings program h.machine).machine? = some m) :
    m.output = Call.written (h.calls fuel program) h.output :=
  course_output (stages_course fuel h program) ((machine_void _).trans hend)

end Hosts

section Clock

theorem advance_now {s t : Schedule} {frameMs : Float} {due : List Value} (hlive : s.stopped = false)
    (h : s.advance? fuel frameMs = some (due, t)) : t.now = s.now + frameMs ∧ t.stopped = false := by
  unfold Schedule.advance? at h
  rw [if_neg (Bool.eq_false_iff.mp hlive)] at h
  dsimp only at h
  split at h
  · cases h
  · cases h
    exact ⟨rfl, hlive⟩

/-- Each frame that is driven moves the clock once, and nothing else does. -/
theorem frames_clock (fuel : Nat) (frameMs : Float) (n : Nat) {m m' : Machine}
    (hlive : m.schedule.stopped = false) (hend : (Host.runFrames fuel frameMs n m).machine? = some m') :
    m'.schedule.now =
      Schedule.clockAfter frameMs (Host.frameStages fuel frameMs n m).length m.schedule.now := by
  induction n generalizing m with
  | zero =>
    cases hend
    rfl
  | succ n ih =>
    rw [Stages.runFrames_succ] at hend
    unfold Host.frameStages
    by_cases hidle : (m.schedule.stopped || m.schedule.pending == 0) = true
    · rw [if_pos hidle] at hend ⊢
      cases hend
      rfl
    · rw [if_neg hidle] at hend ⊢
      cases hadvance : m.schedule.advance? fuel frameMs with
      | none =>
        rw [hadvance] at hend
        cases hend
      | some r =>
        rw [hadvance] at hend
        obtain ⟨hnow, hrunning⟩ := advance_now hlive hadvance
        have hchain := Stages.chain_callStarts fuel r.1 { m with schedule := r.2 }
        dsimp only at hend ⊢
        generalize Host.callAll fuel r.1 { m with schedule := r.2 } = o at hchain hend
        cases o with
        | done u m₁ =>
          have hthrough := chain_through hchain m₁ rfl
          have hmoved : m₁.schedule.now = m.schedule.now + frameMs := (through_now hthrough).trans hnow
          rw [ih (gains_through hthrough hrunning).running hend, hmoved]
          rfl
        | fault e m₁ =>
          cases hend
          exact (through_now (chain_through hchain _ rfl)).trans hnow
        | starved => cases hend

/-- At the end of a run, the clock shows the time of as many frames as were driven. -/
theorem drive_clock {h : Host} {program : Program} {m : Machine}
    (hend : (Host.drive fuel h.settings program h.machine).machine? = some m) :
    m.schedule.now = Schedule.clockAfter h.settings.frameMs (h.frames fuel program).length 0 := by
  obtain ⟨⟨store, hmachine⟩, hchain⟩ := body_chain fuel h program
  rw [hmachine] at hchain
  rw [Stages.drive_eq, bind_eq] at hend
  unfold Host.frames
  generalize Host.runBody fuel h.settings program h.machine = outcome at hchain hend
  cases outcome with
  | done v m₁ =>
    have hthrough := chain_through hchain m₁ rfl
    have hnow : m₁.schedule.now = 0 := through_now hthrough
    have hframes : (Host.runFrames fuel h.settings.frameMs h.settings.maxFrames m₁).machine? = some m := by
      rw [← machine_void, ← void_frames _ v, machine_void]
      exact hend
    rw [frames_clock fuel _ _ (gains_through hthrough rfl).running hframes, hnow]
  | fault e m₁ =>
    cases hend
    exact through_now (chain_through hchain _ rfl)
  | starved => cases hend

end Clock

end Proofs.Courses

end Scriptlet
