import Scriptlet.Proofs.Installation
import Scriptlet.Proofs.Stages
import Scriptlet.Proofs.Stepping

namespace Scriptlet

/-- A host with another limit on steps. -/
def Host.withStepLimit (h : Host) (limit : Option Nat) : Host :=
  { h with settings := { h.settings with maxSteps := limit } }

/-- The first statements of a program. -/
def Program.take (k : Nat) (p : Program) : Program :=
  ⟨p.body.take k⟩

/-- What is started when statements are executed in their order, up to the first that does not end as
usual. -/
def Machine.startsInOrder (root fuel : Nat) : List Stmt → Machine → List Start
  | [], _ => []
  | stmt :: stmts, m => ⟨.execute root stmt, m⟩ ::
    match execute root fuel stmt m with
    | .done _ m' => startsInOrder root fuel stmts m'
    | _ => []

/-- The value of a body of which a limit on steps admits `k` statements: it is null if there are more. -/
def Program.valueWithin (k : Nat) (p : Program) (v : Value) : Value :=
  if k < p.body.length then .null else v

/-- The same run under a limit of `k` steps, where it was made of the first `k` statements of a program
without a limit. -/
def Run.limited (k : Nat) (p : Program) (run : Run) : Run :=
  { run with result := run.result.map (p.valueWithin k), host := run.host.withStepLimit (some k) }

namespace Proofs.StepLimit
open Machine Plans Tasks Stepping

variable {fuel root : Nat}

/-- The statements that a run starts within a limit are those that it admits. -/
theorem starts_eq {program : Program} (before : List Stmt) {stmts : List Stmt}
    (hbody : program.body = before ++ stmts) (limit : Option Nat) (steps : Nat) (v : Value) (m : Machine) :
    (⟨program, root, ⟨before.length, v⟩⟩ : Execution).starts fuel limit (stmts.length + 1) steps m =
      startsInOrder root fuel (Execution.admitted limit steps stmts) m := by
  induction stmts generalizing before steps v m with
  | nil =>
    unfold Execution.starts
    rw [isFinished_at hbody, List.isEmpty_nil, Bool.not_true, Bool.and_false, if_neg Bool.false_ne_true,
      body_end hbody, admitted_nil]
    rfl
  | cons stmt stmts ih =>
    unfold Execution.starts
    rw [isFinished_at hbody, List.isEmpty_cons, Bool.not_false, Bool.and_true]
    cases hlimit : Execution.limitReached limit steps with
    | true =>
      rw [if_pos rfl, admitted_reached hlimit]
      rfl
    | false =>
      rw [if_neg Bool.false_ne_true, body_at hbody, Runs.step_some (body_at hbody), admitted_cons hlimit]
      dsimp only [startsInOrder]
      cases execute root fuel stmt m with
      | done flow m' =>
        have hnext := ih (before ++ [stmt]) (body_next hbody) (steps + 1) flow.value m'
        rw [List.length_append] at hnext
        exact congrArg _ hnext
      | fault e m' => rfl
      | starved => rfl

/-- Under a limit of `k` steps, a body is run like its first `k` statements without a limit. -/
theorem runLimited_take (k : Nat) (program : Program) (m : Machine) :
    ((Execution.start program root).runLimited fuel (some k) m).2 =
      ((fun m => ((Execution.start (program.take k) root).finish fuel m).2) >>= fun v =>
        pure (program.valueWithin k v) : Action Value) m := by
  have hcut : (Execution.admitted (some k) 0 program.body).length < program.body.length ↔
      k < program.body.length := by
    change (program.body.take (k - 0)).length < _ ↔ _
    rw [List.length_take, Nat.sub_zero]
    omega
  have hfinish : (fun m => ((Execution.start (program.take k) root).finish fuel m).2) =
      inOrder root fuel (program.body.take k) .null :=
    funext fun m => finish_eq (program.take k) m
  have hrun : ((Execution.start program root).runLimited fuel (some k) m).2 =
      (inOrder root fuel (Execution.admitted (some k) 0 program.body) .null >>= fun w =>
        pure (if (Execution.admitted (some k) 0 program.body).length < program.body.length
          then .null else w)) m :=
    runWithin_eq [] rfl (some k) 0 .null m
  simp only [hcut] at hrun
  rw [hrun, hfinish]
  rfl

theorem runBody_take (h : Host) (program : Program) (k : Nat) :
    Host.runBody fuel (h.withStepLimit (some k)).settings program =
      Host.runBody fuel (h.withStepLimit none).settings (program.take k) >>= fun v =>
        pure (program.valueWithin k v) := by
  have hcut :
      (fun m => ((Execution.start program Host.root).runLimited fuel (some k) m).2 : Action Value) = _ :=
    funext fun m => runLimited_take k program m
  exact (congrArg (Toolbox.standard.install Host.root >>= fun _ => ·) hcut).trans (bind_assoc ..).symm

theorem drive_take (h : Host) (program : Program) (k : Nat) :
    Host.drive fuel (h.withStepLimit (some k)).settings program =
      Host.drive fuel (h.withStepLimit none).settings (program.take k) >>= fun v =>
        pure (program.valueWithin k v) := by
  rw [Stages.drive_eq, Stages.drive_eq, runBody_take, bind_assoc, bind_assoc]
  congr 1
  funext v
  rw [pure_bind, bind_assoc]
  rfl

theorem machine_withStepLimit (h : Host) (limit : Option Nat) : (h.withStepLimit limit).machine = h.machine :=
  rfl

/-- Under any limit, the body is a stage in which the admitted statements are executed. -/
theorem bodyStage_admitted (h : Host) (limit : Option Nat) (program : Program) {installed : Machine}
    (hinstall : Toolbox.standard.install Host.root h.machine = .done () installed) :
    (h.withStepLimit limit).bodyStage fuel program =
      ⟨installed, [], startsInOrder Host.root fuel (Execution.admitted limit 0 program.body) installed⟩ := by
  rw [← machine_withStepLimit h limit] at hinstall
  rw [Stages.bodyStage_eq hinstall]
  exact congrArg (Stage.mk installed []) (starts_eq [] rfl limit 0 .null installed)

theorem bodyStage_take (h : Host) (program : Program) (k : Nat) :
    (h.withStepLimit (some k)).bodyStage fuel program =
      (h.withStepLimit none).bodyStage fuel (program.take k) := by
  obtain ⟨installed, hinstall, _⟩ := Installation.host_installs h
  rw [bodyStage_admitted h (some k) program hinstall, bodyStage_admitted h none (program.take k) hinstall]
  rfl

theorem frames_take (h : Host) (program : Program) (k : Nat) :
    (h.withStepLimit (some k)).frames fuel program = (h.withStepLimit none).frames fuel (program.take k) := by
  unfold Host.frames
  rw [runBody_take, bind_eq, machine_withStepLimit, machine_withStepLimit]
  cases Host.runBody fuel (h.withStepLimit none).settings (program.take k) h.machine with
  | done v m => rfl
  | fault e m => rfl
  | starved => rfl

/-- A limit of `k` steps is a program of `k` statements. A run under the limit ends like one without a limit
of the first `k` statements, with the same error, store, output and schedule, after the same statements and
the same callbacks in the same frames; its value is that of the other run, or null if the limit cut the body
short. -/
theorem step_limit_cuts_body (fuel : Nat) (h : Host) (program : Program) (k : Nat) :
    (h.withStepLimit (some k)).runProgram fuel program =
        ((h.withStepLimit none).runProgram fuel (program.take k)).map (Run.limited k program) ∧
      (h.withStepLimit (some k)).stages fuel program =
        (h.withStepLimit none).stages fuel (program.take k) := by
  constructor
  · unfold Host.runProgram
    rw [drive_take, bind_eq, machine_withStepLimit, machine_withStepLimit]
    cases Host.drive fuel (h.withStepLimit none).settings (program.take k) h.machine with
    | done v m => rfl
    | fault e m => rfl
    | starved => rfl
  · unfold Host.stages
    rw [bodyStage_take, frames_take]

end Proofs.StepLimit

end Scriptlet
