import Scriptlet.Proofs.Runs

namespace Scriptlet

/-- What the evaluator can be asked to do. -/
inductive Task where
  | eval (frame : Nat) (e : Expr)
  | evalAll (frame : Nat) (es : List Expr)
  | evalProperties (frame : Nat) (ps : List Property)
  | evalKey (frame : Nat) (e : Expr) (computed : Bool)
  | execute (frame : Nat) (stmt : Stmt)
  | executeBlock (frame : Nat) (stmts : List Stmt)
  | executeAll (frame : Nat) (stmts : List Stmt)
  | loop (frame : Nat) (test : Expr) (body : List Stmt)
  | call (f : Value) (arguments : List Value)
  | executeBody (frame : Nat) (stmts : List Stmt)

/-- What a task gives when it is done. -/
@[reducible]
def Task.Result : Task → Type
  | eval .. | evalKey .. | call .. | executeBody .. => Value
  | evalAll .. => List Value
  | evalProperties .. => List (String × Value)
  | execute .. | executeBlock .. => Flow
  | executeAll .. | loop .. => Unit

/-- Does a task within a bound. -/
def Task.run (n : Nat) : (t : Task) → Action t.Result
  | eval frame e => Machine.eval frame n e
  | evalAll frame es => Machine.evalAll frame n es
  | evalProperties frame ps => Machine.evalProperties frame n ps
  | evalKey frame e computed => Machine.evalKey frame n e computed
  | execute frame stmt => Machine.execute frame n stmt
  | executeBlock frame stmts => Machine.executeBlock frame n stmts
  | executeAll frame stmts => Machine.executeAll frame n stmts
  | loop frame test body => Machine.loop frame n test body
  | call f arguments => Machine.call n f arguments
  | executeBody frame stmts => Machine.executeBody frame n stmts

/-- The steps of a task: actions of its own, other tasks, and calls of user functions. A plan says what a task
needs before any of it is done, and the evaluator carries the plans out, so what holds of every plan holds of
the evaluator. -/
inductive Plan (α : Type) : Type 1 where
  | done (value : α) : Plan α
  | act {β : Type} (x : Action β) (next : β → Plan α) : Plan α
  | task (t : Task) (next : t.Result → Plan α) : Plan α
  | function (ref : Nat) (arguments : List Value) (next : Value → Plan α) : Plan α

namespace Machine

/-- Refuses a return where no call is under way. -/
def guardReturn : Action Unit := do
  if (← Action.look Machine.depth) = 0 then .fail (.irregular .strayReturn) else pure ()

/-- Begins a call of a user function, up to its body. -/
def enterFunction (f : Function) (arguments : List Value) : Action Nat := do
  let frame ← enter f.closure
  bindParameters frame f.parameters arguments
  return frame

/-- Calls a user function whose body is run by `body`. -/
def callFunction (body : Nat → List Stmt → Action Value) (ref : Nat) (arguments : List Value) :
    Action Value := do
  match ← Action.look (·.store.functions[ref]?) with
  | some f =>
    beginCall
    endCall do
      let frame ← enterFunction f arguments
      body frame f.body
  | none => return .null

end Machine

/-- Carries out a plan, with `run` for the other tasks. -/
def Plan.run {α : Type} (run : (t : Task) → Action t.Result) : Plan α → Action α
  | done a => pure a
  | act x next => x >>= fun a => (next a).run run
  | task t next => run t >>= fun a => (next a).run run
  | function ref arguments next =>
    Machine.callFunction (fun frame stmts => run (.executeBody frame stmts)) ref arguments >>= fun v =>
      (next v).run run

open Machine in
/-- The plan of a task. -/
def Task.plan : (t : Task) → Plan t.Result
  | .eval _ (.number x) => .done (.number x)
  | .eval _ (.text s) => .done (.text s)
  | .eval frame (.array es) =>
    .task (.evalAll frame es) fun vs => .act (Action.allocate fun s => s.addArray vs.toArray) .done
  | .eval frame (.object ps) =>
    .task (.evalProperties frame ps) fun entries =>
      .act (Action.allocate fun s => s.addObject (.ofEntries entries)) .done
  | .eval frame (.identifier name) => .act (Action.read fun s => s.lookup frame name) .done
  | .eval frame (.assign name e) =>
    .task (.eval frame e) fun v => .act (Action.update fun s => s.assign frame name v) fun _ => .done v
  | .eval frame (.call callee es) =>
    .task (.eval frame callee) fun f => .task (.evalAll frame es) fun vs => .task (.call f vs) .done
  | .eval frame (.member object key computed none) =>
    .task (.eval frame object) fun target => .task (.evalKey frame key computed) fun k =>
      .act (Action.read fun s => s.getMember target k) .done
  | .eval frame (.member object key computed (some e)) =>
    .task (.eval frame object) fun target => .task (.evalKey frame key computed) fun k =>
      .task (.eval frame e) fun v =>
        .act (Action.update fun s => s.setMember target k v) fun _ => .done v
  | .eval frame (.boolean left .and right) =>
    .task (.eval frame left) fun l => .task (.eval frame right) fun r =>
      .done (.boolean (Value.isTruthy l && Value.isTruthy r))
  | .eval frame (.boolean left .or right) =>
    .task (.eval frame left) fun l => .task (.eval frame right) fun r =>
      .done (.boolean (Value.isTruthy l || Value.isTruthy r))
  | .eval frame (.binary left op right) =>
    .task (.eval frame left) fun l => .task (.eval frame right) fun r =>
      .act (Action.read fun s => s.binary op l r) .done
  | .eval frame (.logical left op equals right) =>
    .task (.eval frame left) fun l => .task (.eval frame right) fun r =>
      .done (.boolean (Value.compare op equals l r))
  | .eval frame (.not e) => .task (.eval frame e) fun v => .done (.boolean (!Value.isTruthy v))
  | .evalAll _ [] => .done []
  | .evalAll frame (e :: es) =>
    .task (.eval frame e) fun v => .task (.evalAll frame es) fun vs => .done (v :: vs)
  | .evalProperties _ [] => .done []
  | .evalProperties frame (.shorthand key :: ps) =>
    .act (Action.read fun s => s.lookup frame key) fun v =>
      .task (.evalProperties frame ps) fun entries => .done ((key, v) :: entries)
  | .evalProperties frame (.valued key e :: ps) =>
    .task (.eval frame e) fun v =>
      .task (.evalProperties frame ps) fun entries => .done ((key, v) :: entries)
  | .evalKey frame e true => .task (.eval frame e) .done
  | .evalKey _ (.identifier name) false => .done (.text name)
  | .evalKey _ e false => .act (Action.fail (.irregular (.memberName e.kindName))) .done
  | .execute frame (.expr e) => .task (.eval frame e) fun v => .done (.normal v)
  | .execute frame (.varDecl name constant e) =>
    .task (.eval frame e) fun v => .act (declare frame name v constant) fun _ => .done (.normal .null)
  | .execute frame (.structDecl name fields) =>
    .act (declareStruct frame name fields) fun _ => .done (.normal .null)
  | .execute frame (.fnDecl name parameters body) =>
    .act (declareFunction frame name parameters body) fun _ => .done (.normal .null)
  | .execute frame (.ret e) =>
    .act guardReturn fun _ => .task (.eval frame e) fun v => .done (.returned v)
  | .execute frame (.ifThen test consequent) =>
    .task (.eval frame test) fun t =>
      if Value.isTruthy t then
        .act (enter frame) fun block => .task (.executeBlock block consequent) .done
      else .done (.normal .null)
  | .execute frame (.whileDo test body) => .task (.loop frame test body) fun _ => .done (.normal .null)
  | .executeBlock _ [] => .done (.normal .null)
  | .executeBlock frame (stmt :: stmts) =>
    .task (.execute frame stmt) fun flow =>
      if stmt.isReturn then .done flow else .task (.executeBlock frame stmts) .done
  | .executeAll _ [] => .done ()
  | .executeAll frame (stmt :: stmts) =>
    .task (.execute frame stmt) fun _ => .task (.executeAll frame stmts) .done
  | .loop frame test body =>
    .task (.eval frame test) fun t =>
      if Value.isTruthy t then
        .act (enter frame) fun turn => .task (.executeAll turn body) fun _ =>
          .task (.loop frame test body) .done
      else .done ()
  | .call (.function ref) vs => .function ref vs .done
  | .call (.native ref) vs =>
    .act (Action.look (·.store.natives[ref]?)) fun
      | some native => .act (native.call vs) .done
      | none => .done .null
  | .call (.structType ref) vs =>
    .act (Action.read fun s => s.instantiate (s.structAt ref) vs) fun object =>
      .act (Action.allocate fun s => s.addObject object) .done
  | .call f _ =>
    .act (Action.look (·.store.display f)) fun shown =>
      .act (Action.fail (.mismatch (.notCallable f.kind shown))) .done
  | .executeBody _ [] => .done .null
  | .executeBody frame (.ret e :: _) => .task (.eval frame e) .done
  | .executeBody frame (.ifThen test consequent :: stmts) =>
    .task (.execute frame (.ifThen test consequent)) fun
      | .returned v => if v.isTruthy then .done v else .task (.executeBody frame stmts) .done
      | .normal _ => .task (.executeBody frame stmts) .done
  | .executeBody frame (stmt :: stmts) =>
    .task (.execute frame stmt) fun _ => .task (.executeBody frame stmts) .done

namespace Proofs.Tasks
open Machine

-- All proofs below unfold these. Their equations are made here, once, and not in each of the proofs at the
-- same time.
attribute [local simp] Task.run Task.plan Plan.run

variable {α β γ : Type}

instance : LawfulMonad Action := by
  refine LawfulMonad.mk' Action ?_ ?_ ?_
  · intro α x
    funext m
    change Action.bind x Action.pure m = x m
    unfold Action.bind
    cases x m <;> rfl
  · intro α β a f
    rfl
  · intro α β γ x f g
    funext m
    change Action.bind (Action.bind x f) g m = Action.bind x (fun a => Action.bind (f a) g) m
    unfold Action.bind
    cases x m <;> rfl

theorem run_ite {p : Prop} [Decidable p] (run : (t : Task) → Action t.Result) (x y : Plan α) :
    (if p then x else y).run run = if p then x.run run else y.run run :=
  apply_ite _ p x y

theorem execute_ret (frame n : Nat) (e : Expr) : Machine.execute frame (n + 1) (.ret e) =
    guardReturn >>= fun _ => Machine.eval frame n e >>= fun v => pure (Flow.returned v) := by
  funext m
  by_cases hdepth : m.depth = 0
  · simp [Machine.execute, guardReturn, hdepth, Action.look, bind, Action.bind, Action.fail]
  · simp [Machine.execute, guardReturn, hdepth, Action.look, bind, Action.bind, pure, Action.pure]

theorem run_eval_succ (n frame : Nat) (e : Expr) :
    (Task.eval frame e).run (n + 1) = (Task.eval frame e).plan.run (Task.run n) := by
  cases e with
  | member object key computed assignment =>
    cases assignment with
    | none => simp only [Task.run, Task.plan, Plan.run, Machine.eval, bind_pure]
    | some e => simp only [Task.run, Task.plan, Plan.run, Machine.eval]
  | boolean left op right =>
    cases op with
    | and => simp only [Task.run, Task.plan, Plan.run, Machine.eval]
    | or => simp only [Task.run, Task.plan, Plan.run, Machine.eval]
  | _ => simp only [Task.run, Task.plan, Plan.run, Machine.eval, bind_pure]

theorem run_evalKey_succ (n frame : Nat) (e : Expr) (computed : Bool) :
    (Task.evalKey frame e computed).run (n + 1) = (Task.evalKey frame e computed).plan.run (Task.run n) := by
  cases computed with
  | true => simp only [Task.run, Task.plan, Plan.run, Machine.evalKey, bind_pure]
  | false =>
    cases e with
    | identifier name => rfl
    | _ => rfl

theorem run_execute_succ (n frame : Nat) (stmt : Stmt) :
    (Task.execute frame stmt).run (n + 1) = (Task.execute frame stmt).plan.run (Task.run n) := by
  cases stmt with
  | ret e => exact execute_ret frame n e
  | ifThen test consequent =>
    simp only [Task.run, Task.plan, Plan.run, Machine.execute, run_ite, bind_pure]
  | _ => rfl

theorem run_call_succ (n : Nat) (f : Value) (vs : List Value) :
    (Task.call f vs).run (n + 1) = (Task.call f vs).plan.run (Task.run n) := by
  cases f with
  | function ref =>
    simp only [Task.run, Task.plan, Plan.run, Machine.call, callFunction, enterFunction, bind_pure]
    congr 1
    funext found
    cases found with
    | none => rfl
    | some f => simp only [bind_assoc, pure_bind]
  | native ref =>
    simp only [Task.run, Task.plan, Plan.run, Machine.call]
    congr 1
    funext found
    cases found with
    | none => rfl
    | some native => simp only [Plan.run, bind_pure]
  | structType ref => simp only [Task.run, Task.plan, Plan.run, Machine.call, bind_pure]
  | _ => rfl

theorem run_executeBody_succ (n frame : Nat) (stmts : List Stmt) :
    (Task.executeBody frame stmts).run (n + 1) = (Task.executeBody frame stmts).plan.run (Task.run n) := by
  cases stmts with
  | nil => rfl
  | cons stmt stmts =>
    cases stmt with
    | ret e => simp only [Task.run, Task.plan, Plan.run, Machine.executeBody, bind_pure]
    | ifThen test consequent =>
      simp only [Task.run, Task.plan, Plan.run, Machine.executeBody]
      congr 1
      funext flow
      cases flow with
      | normal v => simp only [Task.run, Plan.run, bind_pure]
      | returned v => simp only [Task.run, Plan.run, run_ite, bind_pure]
    | _ => simp only [Task.run, Task.plan, Plan.run, Machine.executeBody, bind_pure]

/-- The evaluator carries out the plans, with a bound one smaller for the other tasks. -/
theorem run_succ (n : Nat) (t : Task) : t.run (n + 1) = t.plan.run (Task.run n) := by
  cases t with
  | eval frame e => exact run_eval_succ n frame e
  | evalAll frame es => cases es <;> rfl
  | evalProperties frame ps =>
    cases ps with
    | nil => rfl
    | cons p ps => cases p <;> rfl
  | evalKey frame e computed => exact run_evalKey_succ n frame e computed
  | execute frame stmt => exact run_execute_succ n frame stmt
  | executeBlock frame stmts =>
    cases stmts with
    | nil => rfl
    | cons stmt stmts =>
      simp only [Task.run, Task.plan, Plan.run, Machine.executeBlock, run_ite, bind_pure]
  | executeAll frame stmts =>
    cases stmts with
    | nil => rfl
    | cons stmt stmts => simp only [Task.run, Task.plan, Plan.run, Machine.executeAll, bind_pure]
  | loop frame test body => simp only [Task.run, Task.plan, Plan.run, Machine.loop, run_ite, bind_pure]
  | call f vs => exact run_call_succ n f vs
  | executeBody frame stmts => exact run_executeBody_succ n frame stmts

end Proofs.Tasks

end Scriptlet
