import Scriptlet.Proofs.Courses
import Scriptlet.Proofs.LockstepHosts

namespace Scriptlet

/-- The second machine may have printed anything. -/
def Leeway.anyOutput : Leeway :=
  { Leeway.same with
    output := fun _ _ => True
    write := fun _ h => h
    clear := fun h => h }

/-- A call on a machine that has printed nothing. -/
def Call.silent (c : Call) : Call :=
  { c with machine := { c.machine with output := .empty } }

/-- Calls that differ in nothing but what was printed before them. -/
def Call.Alike (cs cs' : List Call) : Prop :=
  cs'.map silent = cs.map silent

/-- A run as it is on another host: with the same result and schedule, and its output behind that of the host,
or in its place if it was cleared. -/
def Run.onto (run : Run) (h : Host) (cleared : Bool) : Run :=
  { run with host :=
    { h with output := run.host.output.behind h.output cleared, schedule := run.host.schedule } }

/-- Runs programs one after another, each on the host that the one before left. -/
def Host.runInTurn (fuel : Nat) : List Program → Host → Option (List Run)
  | [], _ => some []
  | p :: ps, h => (h.runProgram fuel p).bind fun run => (runInTurn fuel ps run.host).map (run :: ·)

namespace Proofs.WriteOnlyOutput
open Machine Plans Calls Effects Courses Lockstep LockstepHosts

variable {fuel d : Nat} {m m' : Machine}

section Calls

variable {α : Type} {cs cs' ds ds' : List Call}

theorem store_eq (hm : Leeway.anyOutput.Machines d m m') : m'.store = m.store :=
  hm.store.trans (Bodies.mapBodies_id m.store)

theorem alike_nil : Call.Alike [] [] :=
  rfl

theorem alike_append (hc : Call.Alike cs cs') (hd : Call.Alike ds ds') :
    Call.Alike (cs ++ ds) (cs' ++ ds') := by
  unfold Call.Alike at *
  rw [List.map_append, List.map_append, hc, hd]

theorem alike_single (f : Value) (vs : List Value) (hm : Leeway.anyOutput.Machines d m m') :
    Call.Alike [⟨f, vs, m⟩] [⟨f, vs, m'⟩] := by
  have hlimit : m.limit = m'.limit := hm.limit
  change [(⟨f, vs, { m' with output := .empty }⟩ : Call)] = [⟨f, vs, { m with output := .empty }⟩]
  rw [store_eq hm, hm.schedule, hm.random, hm.depth, hm.depth', hlimit]

/-- What follows two outcomes in step makes the same calls. -/
theorem alike_toList {o o' : Outcome α} {f : α → Machine → List Call} (h : Leeway.anyOutput.Ends d Eq o o')
    (hf : ∀ a m m', Leeway.anyOutput.Machines d m m' → Call.Alike (f a m) (f a m')) :
    Call.Alike (o.toList f) (o'.toList f) := by
  cases h with
  | done hV hm =>
    cases hV
    exact hf _ _ _ hm
  | fault e hm => exact alike_nil
  | excused he m _ => exact he.elim
  | starved => exact alike_nil

variable {run : (t : Task) → Action t.Result} {inner : Task → Machine → List Call}

theorem alike_bodyCalls
    (hinner : ∀ d t m m', Leeway.anyOutput.Machines d m m' → Call.Alike (inner t m) (inner t m')) (ref : Nat)
    (vs : List Value) (hm : Leeway.anyOutput.Machines d m m') :
    Call.Alike (bodyCalls inner ref vs m) (bodyCalls inner ref vs m') := by
  have hfound : m'.store.functions[ref]? = m.store.functions[ref]? := by rw [store_eq hm]
  have hlimit : m.limit = m'.limit := hm.limit
  have hfull : m'.limit ≤ m'.depth ↔ m.limit ≤ m.depth := by rw [hlimit, hm.depth, hm.depth']
  unfold bodyCalls
  rw [hfound]
  cases m.store.functions[ref]? with
  | none => exact alike_nil
  | some f =>
    simp only [hfull]
    split
    · exact alike_nil
    · have hinside : Leeway.anyOutput.Machines (d + 1) { m with depth := m.depth + 1 }
          { m' with depth := m'.depth + 1 } :=
        { hm with depth := congrArg (· + 1) hm.depth, depth' := congrArg (· + 1) hm.depth' }
      refine alike_toList (follows_enterFunction f vs _ _ hinside) fun frame m m' hm => ?_
      exact hinner (d + 1) _ m m' hm

/-- A plan makes the same calls on machines in step. -/
theorem alike_plan (hrun : ∀ d t, Leeway.anyOutput.Follows d Eq (run t) (run t))
    (hinner : ∀ d t m m', Leeway.anyOutput.Machines d m m' → Call.Alike (inner t m) (inner t m')) {p : Plan α}
    (hacts : p.Acts fun x => Leeway.anyOutput.Follows d Eq x x) (hm : Leeway.anyOutput.Machines d m m') :
    Call.Alike (p.calls run inner m) (p.calls run inner m') := by
  induction p generalizing m m' with
  | done a => exact alike_nil
  | act x next ih => exact alike_toList (hacts.1 m m' hm) fun a _ _ hm => ih a (hacts.2 a) hm
  | task t next ih =>
    refine alike_append (hinner d t m m' hm) ?_
    exact alike_toList (hrun d t m m' hm) fun a _ _ hm => ih a (hacts a) hm
  | function ref vs next ih =>
    refine alike_append (alike_bodyCalls hinner ref vs hm) ?_
    let body (frame : Nat) (stmts : List Stmt) : Action Value := run (.executeBody frame stmts)
    have hcall : Leeway.anyOutput.Follows d Eq (callFunction body ref vs) (callFunction body ref vs) :=
      follows_callFunction (fun frame stmts => hrun (d + 1) (.executeBody frame stmts)) ref vs
    exact alike_toList (hcall m m' hm) fun v _ _ hm => ih v (hacts v) hm

theorem alike_asCall (t : Task) (hm : Leeway.anyOutput.Machines d m m') :
    Call.Alike (t.asCall m) (t.asCall m') := by
  cases t with
  | call f vs => exact alike_single f vs hm
  | _ => exact alike_nil

/-- A task makes the same calls on machines in step. The induction is on the bound. -/
theorem alike_calls (n d : Nat) (t : Task) (m m' : Machine) (hm : Leeway.anyOutput.Machines d m m') :
    Call.Alike (t.calls n m) (t.calls n m') := by
  induction n generalizing d t m m' with
  | zero => exact alike_nil
  | succ n ih =>
    exact alike_append (alike_asCall t hm)
      (alike_plan (fun d t => run_itself rfl n d t) ih (acts_itself rfl d t) hm)

end Calls

section Hosts

theorem alike_callStarts (fs : List Value) (hm : Leeway.anyOutput.Machines 0 m m') :
    Call.Alike ((Host.callStarts fuel fs m).flatMap (Start.calls fuel))
      ((Host.callStarts fuel fs m').flatMap (Start.calls fuel)) := by
  induction fs generalizing m m' with
  | nil => exact alike_nil
  | cons f fs ih =>
    unfold Host.callStarts
    rw [hm.schedule]
    split
    · exact alike_nil
    · rw [List.flatMap_cons, List.flatMap_cons]
      refine alike_append (alike_calls fuel 0 (.call f []) m m' hm) ?_
      have hends : Leeway.anyOutput.Ends 0 Eq (call fuel f [] m) (call fuel f [] m') :=
        run_itself rfl fuel 0 (.call f []) m m' hm
      generalize call fuel f [] m = o at hends
      generalize call fuel f [] m' = o' at hends
      cases hends with
      | done hV hm₁ => exact ih hm₁
      | fault e hm₁ => exact alike_nil
      | excused he m _ => exact he.elim
      | starved => exact alike_nil

theorem alike_starts (limit : Option Nat) (n steps : Nat) (e : Execution)
    (hm : Leeway.anyOutput.Machines 0 m m') :
    Call.Alike ((e.starts fuel limit n steps m).flatMap (Start.calls fuel))
      ((e.starts fuel limit n steps m').flatMap (Start.calls fuel)) := by
  induction n generalizing steps e m m' with
  | zero => exact alike_nil
  | succ n ih =>
    unfold Execution.starts
    split
    · exact alike_nil
    · cases hstmt : e.program.body[e.progress.position]? with
      | none => exact alike_nil
      | some stmt =>
        dsimp only
        rw [List.flatMap_cons, List.flatMap_cons, Runs.step_some hstmt, Runs.step_some hstmt]
        refine alike_append (alike_calls fuel 0 (.execute e.root stmt) m m' hm) ?_
        have hends : Leeway.anyOutput.Ends 0 Eq (execute e.root fuel stmt m) (execute e.root fuel stmt m') :=
          run_itself rfl fuel 0 (.execute e.root stmt) m m' hm
        generalize execute e.root fuel stmt m = o at hends
        generalize execute e.root fuel stmt m' = o' at hends
        cases hends with
        | done hV hm₁ =>
          cases hV
          exact ih _ _ hm₁
        | fault c hm₁ => exact alike_nil
        | excused hc m _ => exact hc.elim
        | starved => exact alike_nil

theorem alike_frameStages (frameMs : Float) (n : Nat) (hm : Leeway.anyOutput.Machines 0 m m') :
    Call.Alike ((Host.frameStages fuel frameMs n m).flatMap (Stage.calls fuel))
      ((Host.frameStages fuel frameMs n m').flatMap (Stage.calls fuel)) := by
  induction n generalizing m m' with
  | zero => exact alike_nil
  | succ n ih =>
    unfold Host.frameStages
    rw [hm.schedule]
    split
    · exact alike_nil
    · cases m.schedule.advance? fuel frameMs with
      | none => exact alike_nil
      | some r =>
        have hmoved : Leeway.anyOutput.Machines 0 { m with schedule := r.2 } { m' with schedule := r.2 } :=
          { hm with schedule := rfl }
        have hends := follows_callAll (fun f => run_itself rfl fuel 0 (.call f [])) r.1 _ _ hmoved
        dsimp only
        rw [List.flatMap_cons, List.flatMap_cons]
        refine alike_append (alike_callStarts r.1 hmoved) ?_
        generalize Host.callAll fuel r.1 { m with schedule := r.2 } = o at hends
        generalize Host.callAll fuel r.1 { m' with schedule := r.2 } = o' at hends
        cases hends with
        | done _ hm₁ => exact ih hm₁
        | fault e hm₁ => exact alike_nil
        | excused he m _ => exact he.elim
        | starved => exact alike_nil

/-- With a seed, every run begins like that of a new host. -/
theorem machines_start (h : Host) (hseed : h.settings.seed.isSome = true) :
    Leeway.anyOutput.Machines 0 (Host.new h.settings).machine h.machine where
  store := (Bodies.mapBodies_id _).symm
  output := trivial
  schedule := rfl
  random := by
    obtain ⟨seed, hsome⟩ := Option.isSome_iff_exists.mp hseed
    unfold Host.machine Host.new
    dsimp only
    rw [hsome, Option.getD_some, Option.getD_some]
  depth := rfl
  depth' := rfl
  limit := rfl

theorem alike_bodyStage (h : Host) (program : Program) (hseed : h.settings.seed.isSome = true) :
    Call.Alike (((Host.new h.settings).bodyStage fuel program).calls fuel)
      ((h.bodyStage fuel program).calls fuel) := by
  have hends := follows_install Toolbox.standard Host.root _ _ (machines_start h hseed)
  have hsame : (Host.new h.settings).settings = h.settings := rfl
  unfold Host.bodyStage
  rw [hsame]
  generalize Toolbox.standard.install Host.root (Host.new h.settings).machine = o at hends
  generalize Toolbox.standard.install Host.root h.machine = o' at hends
  cases hends with
  | done _ hm =>
    exact alike_starts h.settings.maxSteps (program.body.length + 1) 0 (.start program Host.root) hm
  | fault e hm => exact alike_nil
  | excused he m _ => exact he.elim
  | starved => exact alike_nil

theorem alike_frames (h : Host) (program : Program) (hseed : h.settings.seed.isSome = true) :
    Call.Alike (((Host.new h.settings).frames fuel program).flatMap (Stage.calls fuel))
      ((h.frames fuel program).flatMap (Stage.calls fuel)) := by
  have hends := runBody_itself (L := .anyOutput) rfl fuel h.settings program _ _ (machines_start h hseed)
  have hsame : (Host.new h.settings).settings = h.settings := rfl
  unfold Host.frames
  rw [hsame]
  generalize Host.runBody fuel h.settings program (Host.new h.settings).machine = o at hends
  generalize Host.runBody fuel h.settings program h.machine = o' at hends
  cases hends with
  | done _ hm => exact alike_frameStages h.settings.frameMs h.settings.maxFrames hm
  | fault e hm => exact alike_nil
  | excused he m _ => exact he.elim
  | starved => exact alike_nil

/-- A run makes the calls that it makes on a new host. -/
theorem alike_hosts (fuel : Nat) (h : Host) (program : Program) (hseed : h.settings.seed.isSome = true) :
    Call.Alike ((Host.new h.settings).calls fuel program) (h.calls fuel program) := by
  unfold Host.calls Host.stages
  rw [List.flatMap_cons, List.flatMap_cons]
  exact alike_append (alike_bodyStage h program hseed) (alike_frames h program hseed)

end Hosts

section Runs

variable {cs cs' : List Call}

/-- What a call writes does not depend on what was printed before it. -/
theorem written_silent (cs : List Call) : Call.written (cs.map Call.silent) = Call.written cs := by
  funext o
  exact List.foldl_map

theorem clears_silent (cs : List Call) : (cs.map Call.silent).any Call.clears = cs.any Call.clears :=
  List.any_map

theorem written_alike (h : Call.Alike cs cs') : Call.written cs' = Call.written cs := by
  rw [← written_silent cs', h, written_silent]

theorem clears_alike (h : Call.Alike cs cs') : cs'.any Call.clears = cs.any Call.clears := by
  rw [← clears_silent cs', h, clears_silent]

variable {h : Host} {program : Program}

/-- What a run prints stands behind what the host had printed, or in its place. -/
theorem output_behind (fuel : Nat) (h : Host) (program : Program) (hseed : h.settings.seed.isSome = true)
    (m m' : Machine)
    (hend : (Host.drive fuel h.settings program (Host.new h.settings).machine).machine? = some m)
    (hend' : (Host.drive fuel h.settings program h.machine).machine? = some m') :
    m'.output = m.output.behind h.output (((Host.new h.settings).calls fuel program).any Call.clears) := by
  have halone : m.output = Call.written ((Host.new h.settings).calls fuel program) .empty :=
    drive_output (h := Host.new h.settings) hend
  rw [drive_output hend', halone, written_alike (alike_hosts fuel h program hseed)]
  exact appends_written _ h.output

theorem settings_onto (run : Run) (h : Host) (b : Bool) : (run.onto h b).host.settings = h.settings :=
  rfl

/-- Runs that end on machines in step are alike but for the host. -/
theorem run_eq_onto {b : Bool} (result : Except Error Value) (hm : Leeway.anyOutput.Machines 0 m m')
    (houtput : m'.output = m.output.behind h.output b) :
    (⟨result, m'.store, h.after m'⟩ : Run) =
      Run.onto ⟨result, m.store, (Host.new h.settings).after m⟩ h b := by
  unfold Run.onto Host.after
  rw [store_eq hm, hm.schedule, houtput]

/-- Every run is one of a new host, put onto the host that it is made on. -/
theorem runProgram_onto (fuel : Nat) (h : Host) (program : Program) (hseed : h.settings.seed.isSome = true) :
    h.runProgram fuel program = ((Host.new h.settings).runProgram fuel program).map
      (·.onto h (((Host.new h.settings).calls fuel program).any Call.clears)) := by
  have hends := drive_itself (L := .anyOutput) rfl fuel h.settings program _ _ (machines_start h hseed)
  have hbehind := output_behind fuel h program hseed
  have hsame : (Host.new h.settings).settings = h.settings := rfl
  unfold Host.runProgram
  rw [hsame]
  generalize Host.drive fuel h.settings program (Host.new h.settings).machine = o at hends hbehind
  generalize Host.drive fuel h.settings program h.machine = o' at hends hbehind
  cases hends with
  | done hV hm =>
    cases hV
    exact congrArg some (run_eq_onto (.ok _) hm (hbehind _ _ rfl rfl))
  | fault e hm => exact congrArg some (run_eq_onto (.error (.runtime e)) hm (hbehind _ _ rfl rfl))
  | excused he m _ => exact he.elim
  | starved => rfl

/-- Runs one after another are runs of a new host, each put onto the host that the one before left. -/
theorem runInTurn_onto {settings : Settings} (hseed : settings.seed.isSome = true) {programs : List Program}
    {runs : List Run} (hsettings : h.settings = settings) (hruns : h.runInTurn fuel programs = some runs)
    {i : Nat} {before : Host} {run : Run} (hprogram : programs[i]? = some program)
    (hbefore : (h :: runs.map Run.host)[i]? = some before) (hrun : runs[i]? = some run) :
    ∃ alone, (Host.new settings).runProgram fuel program = some alone ∧
      run = alone.onto before (((Host.new settings).calls fuel program).any Call.clears) := by
  induction programs generalizing h runs i with
  | nil => cases hprogram
  | cons p ps ih =>
    obtain ⟨first, hfirst, hrest⟩ := Option.bind_eq_some_iff.mp hruns
    obtain ⟨others, hothers, rfl⟩ := Option.map_eq_some_iff.mp hrest
    subst hsettings
    rw [runProgram_onto fuel h p hseed] at hfirst
    obtain ⟨alone, halone, honto⟩ := Option.map_eq_some_iff.mp hfirst
    cases i with
    | zero =>
      cases hprogram
      cases hbefore
      cases hrun
      exact ⟨alone, halone, honto.symm⟩
    | succ i =>
      have hkept : first.host.settings = h.settings := by rw [← honto, settings_onto]
      exact ih hkept hothers hprogram hbefore hrun

end Runs

/-- Output is never read. Where the settings fix the seed, a run on a host is the run of a new host with the
same settings: it has the same result, store and schedule, and what it prints stands behind what the host had
printed, or in its place if the run made a call of `clear`, which does not depend on the host either. So the
runs of one host, one after another, have nothing of each other but the output that was kept. -/
theorem output_is_write_only (fuel : Nat) (h : Host) (program : Program)
    (hseed : h.settings.seed.isSome = true) :
    h.runProgram fuel program = ((Host.new h.settings).runProgram fuel program).map
      (·.onto h ((h.calls fuel program).any Call.clears)) ∧
    (h.calls fuel program).any Call.clears = ((Host.new h.settings).calls fuel program).any Call.clears ∧
    ∀ (programs : List Program) (runs : List Run), h.runInTurn fuel programs = some runs →
      ∀ (i : Nat) (p : Program) (before : Host) (run : Run), programs[i]? = some p →
        (h :: runs.map Run.host)[i]? = some before → runs[i]? = some run →
        ∃ alone, (Host.new h.settings).runProgram fuel p = some alone ∧
          run = alone.onto before (((Host.new h.settings).calls fuel p).any Call.clears) := by
  have hclears := clears_alike (alike_hosts fuel h program hseed)
  refine ⟨?_, hclears, fun programs runs hruns i p before run hp hbefore hrun => ?_⟩
  · rw [hclears]
    exact runProgram_onto fuel h program hseed
  · exact runInTurn_onto hseed rfl hruns hp hbefore hrun

/-- A host with a seed that has printed a line. -/
def printedBefore : Host where
  settings := { Settings.default with seed := some 7 }
  output := Output.empty.write "a"
  schedule := .idle
  entropy := 0

/-- The call of a native by its name, with texts. -/
def tell (name : String) (texts : List String) : Stmt :=
  .expr (.call (.identifier name) (texts.map .text))

/-- Programs of which the second drops what was printed before. -/
def clearsSecond : List Program :=
  [⟨[tell "print" ["b"]]⟩, ⟨[tell "clear" [], tell "print" ["c"]]⟩, ⟨[tell "print" ["d"]]⟩]

theorem output_is_write_only_clearsSecond : ∃ runs before run alone,
    printedBefore.runInTurn 10 clearsSecond = some runs ∧ (runs.map Run.host)[1]? = some before ∧
      runs[2]? = some run ∧
    (Host.new printedBefore.settings).runProgram 10 ⟨[tell "print" ["d"]]⟩ = some alone ∧
    run.result = alone.result ∧ run.host.schedule = alone.host.schedule ∧
    before.output.lines = #["c"] ∧ run.host.output.lines = #["c", "d"] := by
  have hends : (printedBefore.runInTurn 10 clearsSecond).any (fun runs =>
      (runs.map Run.host)[1]?.any (·.output.lines == #["c"]) &&
        runs[2]?.any (·.host.output.lines == #["c", "d"])) = true := by decide +kernel
  obtain ⟨runs, hruns, hlines⟩ := (Option.any_eq_true _ _).mp hends
  obtain ⟨hfirst, hlast⟩ := Bool.and_eq_true_iff.mp hlines
  obtain ⟨before, hbefore, hkept⟩ := (Option.any_eq_true _ _).mp hfirst
  obtain ⟨run, hrun, hprinted⟩ := (Option.any_eq_true _ _).mp hlast
  obtain ⟨-, -, hturns⟩ := output_is_write_only 10 printedBefore ⟨[]⟩ rfl
  obtain ⟨alone, halone, honto⟩ := hturns clearsSecond runs hruns 2 _ before run rfl hbefore hrun
  refine ⟨runs, before, run, alone, hruns, hbefore, hrun, halone, ?_, ?_, eq_of_beq hkept, eq_of_beq hprinted⟩
  · rw [honto]
    rfl
  · rw [honto]
    rfl

end Proofs.WriteOnlyOutput

end Scriptlet
