import Scriptlet.Proofs.Lockstep
import Scriptlet.Proofs.Stages

namespace Scriptlet

/-- A program with something made of every statement of its body. -/
def Program.map (k : Stmt → Stmt) (p : Program) : Program :=
  ⟨p.body.map k⟩

/-- The same run of another program. -/
def Execution.map (k : Stmt → Stmt) (e : Execution) : Execution :=
  { e with program := e.program.map k }

namespace Proofs.LockstepHosts
open Machine Plans Lockstep

variable {L : Leeway}

section Install

variable {d : Nat}

theorem follows_installConstants (frame : Nat) (constants : List (String × Value)) :
    L.Follows d Eq (Toolbox.installConstants frame constants) (Toolbox.installConstants frame constants) := by
  induction constants with
  | nil => exact follows_pure rfl
  | cons c cs ih => exact follows_then (follows_declare frame c.1 c.2 true) fun _ => ih

theorem follows_installTools (frame : Nat) (tools : List Tool) :
    L.Follows d Eq (Toolbox.installTools frame tools) (Toolbox.installTools frame tools) := by
  induction tools with
  | nil => exact follows_pure rfl
  | cons t ts ih =>
    refine follows_then (follows_allocate fun _ => rfl) fun v => ?_
    exact follows_then (follows_declare frame t.name v true) fun _ => ih

theorem follows_install (box : Toolbox) (frame : Nat) :
    L.Follows d Eq (box.install frame) (box.install frame) :=
  follows_then (follows_installConstants frame box.constants) fun _ => follows_installTools frame box.tools

end Install

section Body

variable {k : Stmt → Stmt} {fuel : Nat}

theorem isFinished_map (e : Execution) : (e.map k).isFinished = e.isFinished := by
  simp [Execution.isFinished, Progress.isFinished, Execution.map, Program.map]

theorem body_map (e : Execution) (i : Nat) : (e.map k).program.body[i]? = e.program.body[i]?.map k := by
  simp [Execution.map, Program.map]

/-- A step of one run goes together with a step of the other, and after a step that ended they stand alike. -/
theorem step_follows (hk : ∀ frame s, L.Follows 0 Eq (execute frame fuel s) (execute frame fuel (k s)))
    (e : Execution) {m m' : Machine} (hm : L.Machines 0 m m') :
    L.Ends 0 Eq (e.step fuel m).2 ((e.map k).step fuel m').2 ∧
      ∀ s m₁, (e.step fuel m).2 = .done s m₁ → ((e.map k).step fuel m').1 = (e.step fuel m).1.map k := by
  have hbody := body_map (k := k) e e.progress.position
  cases hstmt : e.program.body[e.progress.position]? with
  | none =>
    rw [hstmt] at hbody
    rw [Runs.step_none hstmt, Runs.step_none hbody]
    exact ⟨.done rfl hm, fun _ _ _ => rfl⟩
  | some stmt =>
    rw [hstmt] at hbody
    rw [Runs.step_some hstmt, Runs.step_some hbody]
    have hends := hk e.root stmt m m' hm
    change L.Ends 0 Eq _ (execute (e.map k).root fuel (k stmt) m') at hends
    generalize execute e.root fuel stmt m = o at hends
    generalize execute (e.map k).root fuel (k stmt) m' = o' at hends
    cases hends with
    | done hV hm' =>
      cases hV
      exact ⟨.done rfl hm', fun _ _ _ => rfl⟩
    | fault c hm' => exact ⟨.fault c hm', fun _ _ h => by cases h⟩
    | excused hc m _ => exact ⟨.excused hc m _, fun _ _ h => by cases h⟩
    | starved => exact ⟨.starved, fun _ _ h => by cases h⟩

theorem follows_runWithin (hk : ∀ frame s, L.Follows 0 Eq (execute frame fuel s) (execute frame fuel (k s)))
    (limit : Option Nat) (n steps : Nat) (e : Execution) :
    L.Follows 0 Eq (fun m => (e.runWithin fuel limit n steps m).2)
      (fun m => ((e.map k).runWithin fuel limit n steps m).2) := by
  induction n generalizing steps e with
  | zero => exact fun _ _ _ => .starved
  | succ n ih =>
    intro m m' hm
    dsimp only [Execution.runWithin]
    rw [isFinished_map]
    split
    · exact .done rfl hm
    · obtain ⟨hends, hnext⟩ := step_follows hk e hm
      generalize e.step fuel m = r at hends hnext
      generalize (e.map k).step fuel m' = r' at hends hnext
      obtain ⟨e₁, o⟩ := r
      obtain ⟨e₁', o'⟩ := r'
      cases hends with
      | @done s _ _ _ hV hm₁ =>
        cases hV
        cases hnext s _ rfl
        cases s with
        | yielded => exact ih (steps + 1) e₁ _ _ hm₁
        | finished v => exact .done rfl hm₁
      | fault c hm₁ => exact .fault c hm₁
      | excused hc m₁ _ => exact .excused hc m₁ _
      | starved => exact .starved

theorem follows_runBody (hk : ∀ frame s, L.Follows 0 Eq (execute frame fuel s) (execute frame fuel (k s)))
    (settings : Settings) (program : Program) :
    L.Follows 0 Eq (Host.runBody fuel settings program) (Host.runBody fuel settings (program.map k)) := by
  have hlength : (program.map k).body.length = program.body.length := List.length_map ..
  refine follows_then (follows_install Toolbox.standard Host.root) fun _ => ?_
  have hrun := follows_runWithin hk settings.maxSteps (program.body.length + 1) 0
    (Execution.start program Host.root)
  unfold Execution.runLimited
  dsimp only [Execution.start]
  rw [hlength]
  exact hrun

end Body

section Frames

variable {fuel : Nat}

theorem follows_callAll (hcall : ∀ f, L.Follows 0 Eq (call fuel f []) (call fuel f [])) (fs : List Value) :
    L.Follows 0 Eq (Host.callAll fuel fs) (Host.callAll fuel fs) := by
  induction fs with
  | nil => exact follows_pure rfl
  | cons f fs ih =>
    refine follows_then (follows_look fun _ _ hm => congrArg Schedule.stopped hm.schedule.symm)
      fun stopped => ?_
    exact follows_ite (follows_pure rfl) (follows_then (hcall f) fun _ => ih)

theorem follows_runFrame (hcall : ∀ f, L.Follows 0 Eq (call fuel f []) (call fuel f [])) (frameMs : Float) :
    L.Follows 0 Eq (Host.runFrame fuel frameMs) (Host.runFrame fuel frameMs) := by
  intro m m' hm
  unfold Host.runFrame
  rw [hm.schedule]
  cases m.schedule.advance? fuel frameMs with
  | none => exact .starved
  | some r => exact follows_callAll hcall r.1 _ _ { hm with schedule := rfl }

theorem follows_runFrames (hcall : ∀ f, L.Follows 0 Eq (call fuel f []) (call fuel f [])) (frameMs : Float)
    (n : Nat) :
    L.Follows 0 Eq (Host.runFrames fuel frameMs n) (Host.runFrames fuel frameMs n) := by
  induction n with
  | zero => exact follows_pure rfl
  | succ n ih =>
    refine follows_then (follows_look fun _ _ hm => hm.schedule.symm) fun schedule => ?_
    exact follows_ite (follows_pure rfl) (follows_then (follows_runFrame hcall frameMs) fun _ => ih)

/-- In step, the second host drives as many frames as the first, unless the first meets an excused fault. -/
theorem frameStages_length (hcall : ∀ f, L.Follows 0 Eq (call fuel f []) (call fuel f [])) (frameMs : Float)
    (n : Nat) {m m' : Machine} (hm : L.Machines 0 m m')
    (hquiet : ∀ e m₁, Host.runFrames fuel frameMs n m = .fault e m₁ → ¬L.excused e) :
    (Host.frameStages fuel frameMs n m').length = (Host.frameStages fuel frameMs n m).length := by
  induction n generalizing m m' with
  | zero => rfl
  | succ n ih =>
    rw [Stages.runFrames_succ] at hquiet
    unfold Host.frameStages
    rw [hm.schedule]
    by_cases hidle : (m.schedule.stopped || m.schedule.pending == 0) = true
    · rw [if_pos hidle, if_pos hidle]
    · rw [if_neg hidle] at hquiet
      rw [if_neg hidle, if_neg hidle]
      cases hadvance : m.schedule.advance? fuel frameMs with
      | none => rfl
      | some r =>
        rw [hadvance] at hquiet
        have hmoved : L.Machines 0 { m with schedule := r.2 } { m' with schedule := r.2 } :=
          { hm with schedule := rfl }
        have hends := follows_callAll hcall r.1 _ _ hmoved
        dsimp only at hquiet ⊢
        generalize Host.callAll fuel r.1 { m with schedule := r.2 } = o at hends hquiet
        generalize Host.callAll fuel r.1 { m' with schedule := r.2 } = o' at hends
        rw [List.length_cons, List.length_cons]
        cases hends with
        | done _ hm' => exact congrArg (· + 1) (ih hm' hquiet)
        | fault e hm' => rfl
        | excused he m₁ _ => exact (hquiet _ _ rfl he).elim
        | starved => rfl

theorem follows_drive {k : Stmt → Stmt}
    (hk : ∀ frame s, L.Follows 0 Eq (execute frame fuel s) (execute frame fuel (k s)))
    (hcall : ∀ f, L.Follows 0 Eq (call fuel f []) (call fuel f [])) (settings : Settings)
    (program : Program) :
    L.Follows 0 Eq (Host.drive fuel settings program) (Host.drive fuel settings (program.map k)) := by
  rw [Stages.drive_eq, Stages.drive_eq]
  refine follows_then (follows_runBody hk settings program) fun v => ?_
  exact follows_then (follows_runFrames hcall settings.frameMs settings.maxFrames) fun _ => follows_pure rfl

end Frames

section Itself

theorem map_id (program : Program) : program.map id = program := by
  simp [Program.map]

theorem runBody_itself (hbody : L.body = id) (fuel : Nat) (settings : Settings) (program : Program) :
    L.Follows 0 Eq (Host.runBody fuel settings program) (Host.runBody fuel settings program) := by
  have hfollows :=
    follows_runBody (k := id) (fun frame s => run_itself hbody fuel 0 (.execute frame s)) settings program
  rwa [map_id] at hfollows

/-- Where the bodies of functions are the same, every run of a program is in step with itself. -/
theorem drive_itself (hbody : L.body = id) (fuel : Nat) (settings : Settings) (program : Program) :
    L.Follows 0 Eq (Host.drive fuel settings program) (Host.drive fuel settings program) := by
  have hfollows := follows_drive (k := id) (fun frame s => run_itself hbody fuel 0 (.execute frame s))
    (fun f => run_itself hbody fuel 0 (.call f [])) settings program
  rwa [map_id] at hfollows

end Itself

end Proofs.LockstepHosts

end Scriptlet
