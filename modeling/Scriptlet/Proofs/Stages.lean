import Scriptlet.Host
import Scriptlet.Proofs.Plans

namespace Scriptlet

/-- A task that a host starts by itself, and the machine on which it starts. -/
structure Start where
  task : Task
  machine : Machine

/-- How a started task ends. -/
def Start.outcome (fuel : Nat) (s : Start) : Outcome s.task.Result :=
  s.task.run fuel s.machine

/-- Tasks that are started one after another, each on the machine that the one before left, up to the first
that does not end as usual; and the outcome of this. -/
inductive Start.Chain (fuel : Nat) {α : Type} : Machine → List Start → Outcome α → Prop where
  | nil (a : α) (m : Machine) : Chain fuel m [] (.done a m)
  | spent (m : Machine) : Chain fuel m [] .starved
  | next {t : Task} {m m' : Machine} {a : t.Result} {ss : List Start} {o : Outcome α}
      (ht : t.run fuel m = .done a m') (h : Chain fuel m' ss o) : Chain fuel m (⟨t, m⟩ :: ss) o
  | fault {t : Task} {m m' : Machine} {e : Fault} (ht : t.run fuel m = .fault e m') :
      Chain fuel m [⟨t, m⟩] (.fault e m')
  | starved {t : Task} {m : Machine} (ht : t.run fuel m = .starved) : Chain fuel m [⟨t, m⟩] .starved

/-- A part of a run: the machine on which it begins, the firings of intervals that came due with it, and what
was started in it. -/
structure Stage where
  machine : Machine
  firings : List Firing
  starts : List Start

/-- The statements that a run starts within a limit on steps, up to the first that does not end as usual. -/
def Execution.starts (fuel : Nat) (limit : Option Nat) : Nat → Nat → Execution → Machine → List Start
  | 0, _, _, _ => []
  | n + 1, steps, e, m =>
    if limitReached limit steps && !e.isFinished then []
    else
      match e.program.body[e.progress.position]? with
      | none => []
      | some stmt => ⟨.execute e.root stmt, m⟩ ::
        match e.step fuel m with
        | (e', .done _ m') => e'.starts fuel limit n (steps + 1) m'
        | _ => []

/-- The firings that come due when the clock moves, in their order. -/
def Schedule.firings (s : Schedule) (fuel : Nat) (elapsed : Float) : List Firing :=
  match Interval.advanceAll? fuel (s.now + elapsed) 0 s.intervals with
  | some (firings, _) => firings.mergeSort Firing.precedes
  | none => []

namespace Host

/-- The calls of callbacks one after another, up to the first that does not end as usual. -/
def callStarts (fuel : Nat) : List Value → Machine → List Start
  | [], _ => []
  | f :: fs, m =>
    if m.schedule.stopped then []
    else ⟨.call f [], m⟩ ::
      match Machine.call fuel f [] m with
      | .done _ m' => callStarts fuel fs m'
      | _ => []

/-- The frames of a run, as many as are driven. -/
def frameStages (fuel : Nat) (frameMs : Float) : Nat → Machine → List Stage
  | 0, _ => []
  | n + 1, m =>
    if m.schedule.stopped || m.schedule.pending == 0 then []
    else
      match m.schedule.advance? fuel frameMs with
      | none => []
      | some (due, schedule) =>
        ⟨{ m with schedule }, m.schedule.firings fuel frameMs, callStarts fuel due { m with schedule }⟩ ::
        match callAll fuel due { m with schedule } with
        | .done _ m' => frameStages fuel frameMs n m'
        | _ => []

/-- Installs the tools and runs the body of a program, up to its frames. -/
def runBody (fuel : Nat) (settings : Settings) (program : Program) : Action Value := do
  Toolbox.standard.install root
  fun m => ((Execution.start program root).runLimited fuel settings.maxSteps m).2

/-- The body of a program as a stage. No interval fires in it. -/
def bodyStage (fuel : Nat) (h : Host) (program : Program) : Stage :=
  match Toolbox.standard.install root h.machine with
  | .done _ m =>
    ⟨m, [], (Execution.start program root).starts fuel h.settings.maxSteps (program.body.length + 1) 0 m⟩
  | _ => ⟨h.machine, [], []⟩

/-- The frames that follow the body of a program. -/
def frames (fuel : Nat) (h : Host) (program : Program) : List Stage :=
  match runBody fuel h.settings program h.machine with
  | .done _ m => frameStages fuel h.settings.frameMs h.settings.maxFrames m
  | _ => []

/-- All stages of a run: the body, and the frames that are driven. -/
def stages (fuel : Nat) (h : Host) (program : Program) : List Stage :=
  h.bodyStage fuel program :: h.frames fuel program

/-- While a program is run, a task begins on a machine. -/
def Reaches (fuel : Nat) (h : Host) (program : Program) (t : Task) (m : Machine) : Prop :=
  ∃ stage ∈ h.stages fuel program, ∃ s ∈ stage.starts, Task.Reaches (fun _ => True) fuel s.task s.machine t m

end Host

namespace Proofs.Stages
open Machine Plans

theorem drive_eq (fuel : Nat) (settings : Settings) (program : Program) : Host.drive fuel settings program =
    Host.runBody fuel settings program >>= fun v =>
      Host.runFrames fuel settings.frameMs settings.maxFrames >>= fun _ => pure v := by
  unfold Host.drive Host.runBody
  exact (bind_assoc ..).symm

theorem runBody_eq {fuel : Nat} {h : Host} {installed : Machine}
    (hinstall : Toolbox.standard.install Host.root h.machine = .done () installed) (program : Program) :
    Host.runBody fuel h.settings program h.machine = ((Execution.start program Host.root).runWithin fuel
      h.settings.maxSteps (program.body.length + 1) 0 installed).2 := by
  refine (bind_eq (Toolbox.standard.install Host.root) _ h.machine).trans ?_
  rw [hinstall]
  rfl

theorem bodyStage_eq {fuel : Nat} {h : Host} {installed : Machine}
    (hinstall : Toolbox.standard.install Host.root h.machine = .done () installed) (program : Program) :
    h.bodyStage fuel program =
      ⟨installed, [], (Execution.start program Host.root).starts fuel h.settings.maxSteps
      (program.body.length + 1) 0 installed⟩ := by
  unfold Host.bodyStage
  rw [hinstall]

theorem callAll_cons (fuel : Nat) (f : Value) (fs : List Value) (m : Machine) :
    Host.callAll fuel (f :: fs) m =
      if m.schedule.stopped then .done () m
      else
        match call fuel f [] m with
        | .done _ m' => Host.callAll fuel fs m'
        | .fault e m' => .fault e m'
        | .starved => .starved := by
  change (if m.schedule.stopped then pure () else call fuel f [] >>= fun _ => Host.callAll fuel fs) m = _
  split
  · rfl
  · rw [bind_eq]
    cases call fuel f [] m <;> rfl

/-- What is listed as started in a frame is what calls the callbacks. -/
theorem chain_callStarts (fuel : Nat) (fs : List Value) (m : Machine) :
    Start.Chain fuel m (Host.callStarts fuel fs m) (Host.callAll fuel fs m) := by
  induction fs generalizing m with
  | nil => exact .nil () m
  | cons f fs ih =>
    rw [callAll_cons]
    unfold Host.callStarts
    by_cases hstopped : m.schedule.stopped = true
    · rw [if_pos hstopped, if_pos hstopped]
      exact .nil () m
    · rw [if_neg hstopped, if_neg hstopped]
      cases hcall : call fuel f [] m with
      | done v m' => exact .next (t := .call f []) hcall (ih m')
      | fault e m' => exact .fault (t := .call f []) hcall
      | starved => exact .starved (t := .call f []) hcall

/-- What is listed as started in the body of a program is what runs the body. -/
theorem chain_starts (fuel : Nat) (limit : Option Nat) (n steps : Nat) (e : Execution) (m : Machine) :
    Start.Chain fuel m (e.starts fuel limit n steps m) (e.runWithin fuel limit n steps m).2 := by
  induction n generalizing steps e m with
  | zero => exact .spent m
  | succ n ih =>
    unfold Execution.starts Execution.runWithin
    split
    · exact .nil _ m
    · cases hstmt : e.program.body[e.progress.position]? with
      | none =>
        rw [Runs.step_none hstmt]
        exact .nil _ m
      | some stmt =>
        rw [Runs.step_some hstmt]
        cases hexecute : execute e.root fuel stmt m with
        | done flow m' => exact .next (t := .execute e.root stmt) hexecute (ih _ _ m')
        | fault c m' => exact .fault (t := .execute e.root stmt) hexecute
        | starved => exact .starved (t := .execute e.root stmt) hexecute

theorem callStarts_task {fuel : Nat} {fs : List Value} {m : Machine} {s : Start}
    (h : s ∈ Host.callStarts fuel fs m) : ∃ f ∈ fs, s.task = .call f [] := by
  induction fs generalizing m with
  | nil => cases h
  | cons f fs ih =>
    unfold Host.callStarts at h
    split at h
    · cases h
    · rcases List.mem_cons.mp h with rfl | hrest
      · exact ⟨f, List.mem_cons_self, rfl⟩
      · split at hrest
        · obtain ⟨g, hg, htask⟩ := ih hrest
          exact ⟨g, List.mem_cons_of_mem f hg, htask⟩
        · cases hrest

theorem starts_task {fuel : Nat} {limit : Option Nat} {n steps : Nat} {e : Execution} {m : Machine}
    {s : Start} (h : s ∈ e.starts fuel limit n steps m) : ∃ stmt, s.task = .execute e.root stmt := by
  induction n generalizing steps e m with
  | zero => cases h
  | succ n ih =>
    unfold Execution.starts at h
    split at h
    · cases h
    · split at h
      · cases h
      · rename_i stmt _
        rcases List.mem_cons.mp h with rfl | hrest
        · exact ⟨stmt, rfl⟩
        · split at hrest
          · rename_i e' _ _ hstep
            have hroot : (e.step fuel m).1.root = e.root := rfl
            rw [hstep] at hroot
            obtain ⟨later, htask⟩ := ih hrest
            exact ⟨later, htask.trans (by rw [hroot])⟩
          · cases hrest

theorem runFrames_succ (fuel : Nat) (frameMs : Float) (n : Nat) (m : Machine) :
    Host.runFrames fuel frameMs (n + 1) m =
      if m.schedule.stopped || m.schedule.pending == 0 then .done () m
      else
        match m.schedule.advance? fuel frameMs with
        | none => .starved
        | some (due, schedule) =>
          match Host.callAll fuel due { m with schedule } with
          | .done _ m' => Host.runFrames fuel frameMs n m'
          | .fault e m' => .fault e m'
          | .starved => .starved := by
  change (if m.schedule.stopped || m.schedule.pending == 0 then pure () else
    Host.runFrame fuel frameMs >>= fun _ => Host.runFrames fuel frameMs n) m = _
  split
  · rfl
  · rw [bind_eq]
    unfold Host.runFrame
    cases m.schedule.advance? fuel frameMs with
    | none => rfl
    | some r =>
      dsimp only
      cases Host.callAll fuel r.1 { m with schedule := r.2 } <;> rfl

end Proofs.Stages

end Scriptlet
