import Scriptlet.Proofs.Courses

namespace Scriptlet

/-- Something that is done with the schedule of a run: by itself, or by calling what the run has left
behind. -/
inductive Schedule.Use where
  | addInterval (callback : Value) (period : Float)
  | requestFrame (callback : Value)
  | advance (elapsed : Float)
  | stop
  | call (f : Value) (arguments : List Value)

namespace Schedule.Use

/-- Does something with the schedule of a machine: the callbacks that it gives out, and the machine after it.
There is no answer if the bound does not suffice. -/
def perform (fuel : Nat) (m : Machine) : Use → Option (List Value × Machine)
  | .addInterval f period => some ([], { m with schedule := m.schedule.addInterval f period })
  | .requestFrame f => some ([], { m with schedule := m.schedule.requestFrame f })
  | .advance elapsed => (m.schedule.advance? fuel elapsed).map fun r => (r.1, { m with schedule := r.2 })
  | .stop => some ([], { m with schedule := m.schedule.stop })
  | .call f arguments => (Machine.call fuel f arguments m).machine?.map fun m' => ([], m')

/-- One thing after another: all callbacks that are given out, and the machine at the end. -/
def performAll (fuel : Nat) : List Use → Machine → Option (List Value × Machine)
  | [], m => some ([], m)
  | u :: us, m =>
    (u.perform fuel m).bind fun r =>
      (performAll fuel us r.2).map fun r' => (r.1 ++ r'.1, r'.2)

end Schedule.Use

/-- The fault of an action, if it ended in one. -/
def Outcome.fault? {α : Type} : Outcome α → Option Fault
  | .fault e _ => some e
  | .done .. | .starved => none

namespace Proofs.Stopping
open Machine Plans Calls Effects Courses

variable {fuel : Nat}

section Afterwards

variable {m m' : Machine} {due : List Value}

theorem stopped_of_stop {s : Schedule} (h : s.stop = s) : s.stopped = true :=
  (congrArg Schedule.stopped h).symm

/-- A schedule that was stopped takes nothing, gives nothing out and stands still. -/
theorem perform_stopped {u : Schedule.Use} (hstop : m.schedule.stop = m.schedule)
    (h : u.perform fuel m = some (due, m')) : due = [] ∧ m'.schedule = m.schedule := by
  have hstopped := stopped_of_stop hstop
  cases u with
  | addInterval f period =>
    cases h
    exact ⟨rfl, if_pos hstopped⟩
  | requestFrame f =>
    cases h
    exact ⟨rfl, if_pos hstopped⟩
  | advance elapsed =>
    have hstill : m.schedule.advance? fuel elapsed = some ([], m.schedule) := if_pos hstopped
    obtain ⟨r, hadvance, hsame⟩ := Option.map_eq_some_iff.mp h
    rw [hstill] at hadvance
    cases hadvance
    cases hsame
    exact ⟨rfl, rfl⟩
  | stop =>
    cases h
    exact ⟨rfl, hstop⟩
  | call f vs =>
    obtain ⟨m₁, hend, hsame⟩ := Option.map_eq_some_iff.mp h
    cases hsame
    exact ⟨rfl, through_stopped (through_run fuel (.call f vs) m m' hend) hstopped⟩

theorem performAll_stopped {us : List Schedule.Use} (hstop : m.schedule.stop = m.schedule)
    (h : Schedule.Use.performAll fuel us m = some (due, m')) : due = [] ∧ m'.schedule = m.schedule := by
  induction us generalizing m due with
  | nil =>
    cases h
    exact ⟨rfl, rfl⟩
  | cons u us ih =>
    obtain ⟨⟨given, m₁⟩, hfirst, hrest⟩ := Option.bind_eq_some_iff.mp h
    obtain ⟨⟨later, m₂⟩, hlater, hsame⟩ := Option.map_eq_some_iff.mp hrest
    cases hsame
    obtain ⟨rfl, hkept⟩ := perform_stopped hstop hfirst
    obtain ⟨rfl, hend⟩ := ih (by rw [hkept, hstop]) hlater
    exact ⟨rfl, hend.trans hkept⟩

end Afterwards

section Hosts

variable {h : Host} {program : Program} {run : Run}

/-- A run that has an answer leaves the host where its last machine was. -/
theorem runProgram_host (hrun : h.runProgram fuel program = some run) :
    ∃ m, (Host.drive fuel h.settings program h.machine).machine? = some m ∧ run.host = h.after m := by
  unfold Host.runProgram at hrun
  generalize Host.drive fuel h.settings program h.machine = o at hrun
  cases o with
  | done v m =>
    cases hrun
    exact ⟨m, rfl, rfl⟩
  | fault e m =>
    cases hrun
    exact ⟨m, rfl, rfl⟩
  | starved => cases hrun

theorem runProgram_of_fault {e : Fault} {m : Machine} (hrun : h.runProgram fuel program = some run)
    (hfault : (Host.drive fuel h.settings program h.machine).void = .fault e m) :
    run = ⟨.error (.runtime e), m.store, h.after m⟩ := by
  unfold Host.runProgram at hrun
  generalize Host.drive fuel h.settings program h.machine = o at hrun hfault
  cases o with
  | done v m => cases hfault
  | fault e m =>
    cases hfault
    cases hrun
    rfl
  | starved => cases hfault

end Hosts

/-- Every run ends stopped, and a fault ends it at once. When a run has ended, its schedule is stopped with
nothing waiting, and nothing that is done afterwards makes a callback wait, gives one out or moves the clock.
At most as many frames are driven as the settings allow, each of which moved the clock once. The output is
what the calls of the run have written. A statement or callback that faults is the last one of its stage, in
the last stage of the run, and the run ends with its error, on the store and with the output that it left. -/
theorem run_ends_stopped (fuel : Nat) (h : Host) (program : Program) (run : Run)
    (hrun : h.runProgram fuel program = some run) :
    (run.host.schedule.stopped = true ∧ run.host.schedule.pending = 0) ∧
    (∀ (bound : Nat) (us : List Schedule.Use) (m m' : Machine) (due : List Value),
      m.schedule = run.host.schedule → Schedule.Use.performAll bound us m = some (due, m') →
      due = [] ∧ m'.schedule = run.host.schedule) ∧
    ((h.frames fuel program).length ≤ h.settings.maxFrames ∧
      run.host.schedule.now = Schedule.clockAfter h.settings.frameMs (h.frames fuel program).length 0) ∧
    run.host.output = Call.written (h.calls fuel program) h.output ∧
    ∀ (i j : Nat) (g : Stage) (s : Start) (e : Fault) (m : Machine), (h.stages fuel program)[i]? = some g →
      g.starts[j]? = some s → s.outcome fuel = .fault e m →
      i + 1 = (h.stages fuel program).length ∧ j + 1 = g.starts.length ∧
        run = ⟨.error (.runtime e), m.store, h.after m⟩ := by
  obtain ⟨last, hend, hhost⟩ := runProgram_host hrun
  have hcourse := stages_course fuel h program
  have hschedule : run.host.schedule = last.schedule.stop := by rw [hhost]; rfl
  have houtput : run.host.output = last.output := by rw [hhost]; rfl
  refine ⟨?_, fun bound us m m' due hsame hperformed => ?_, ⟨?_, ?_⟩, ?_, fun i j g s e m hg hs hfault => ?_⟩
  · rw [hschedule]
    exact ⟨rfl, rfl⟩
  · have hstop : m.schedule.stop = m.schedule := by
      rw [hsame, hschedule]
      rfl
    obtain ⟨hnothing, hkept⟩ := performAll_stopped hstop hperformed
    exact ⟨hnothing, hkept.trans hsame⟩
  · exact Nat.le_of_succ_le_succ (course_length hcourse)
  · rw [hschedule]
    exact drive_clock hend
  · rw [houtput]
    exact drive_output hend
  · obtain ⟨hstage, hstart, hdrive⟩ := course_fault hcourse hg hs hfault
    exact ⟨hstage, hstart, runProgram_of_fault hrun hdrive⟩

/-- Two callbacks wait for the first frame, and the first of them faults. -/
def faultsInFrame : Program where
  body :=
    [.fnDecl "f" [] [.expr (.call (.identifier "nextFrame") [.identifier "f"]), .expr (.identifier "x")],
      .expr (.call (.identifier "nextFrame") [.identifier "f"]),
      .expr (.call (.identifier "nextFrame") [.identifier "f"])]

theorem run_ends_stopped_faultsInFrame : ∃ run g s m,
    (Host.new .default).runProgram 20 faultsInFrame = some run ∧
    ((Host.new .default).stages 20 faultsInFrame)[1]? = some g ∧ g.starts[0]? = some s ∧
    s.outcome 20 = .fault (.undeclared "x") m ∧ g.starts.length = 1 ∧
    run = ⟨.error (.runtime (.undeclared "x")), m.store, (Host.new .default).after m⟩ ∧
    run.host.schedule.stopped = true ∧ run.host.schedule.pending = 0 := by
  have hends : ((Host.new .default).runProgram 20 faultsInFrame).isSome = true := by decide +kernel
  have hfaults : ((Host.new .default).stages 20 faultsInFrame)[1]?.any (fun g =>
      g.starts[0]?.any fun s => (s.outcome 20).fault? == some (.undeclared "x")) = true := by decide +kernel
  obtain ⟨run, hrun⟩ := Option.isSome_iff_exists.mp hends
  obtain ⟨g, hg, hstarts⟩ := (Option.any_eq_true _ _).mp hfaults
  obtain ⟨s, hs, hfault⟩ := (Option.any_eq_true _ _).mp hstarts
  obtain ⟨hstopped, -, -, -, hfirst⟩ := run_ends_stopped 20 _ faultsInFrame run hrun
  have hcause := eq_of_beq hfault
  cases houtcome : s.outcome 20 with
  | fault e m =>
    rw [houtcome] at hcause
    cases hcause
    obtain ⟨-, hlast, hresult⟩ := hfirst 1 0 g s _ m hg hs houtcome
    exact ⟨run, g, s, m, hrun, hg, hs, houtcome, hlast.symm, hresult, hstopped⟩
  | done v m =>
    rw [houtcome] at hcause
    cases hcause
  | starved =>
    rw [houtcome] at hcause
    cases hcause

end Proofs.Stopping

end Scriptlet
