import Scriptlet.Host

namespace Scriptlet

/-- The edits that a store is asked for: a declaration is new, what is written is no constant, and a
function is enclosed where it was declared. -/
def Store.Admits (s : Store) : Edit → Prop
  | .bind frame name _ => s.declaresIn frame name = false
  | .put frame name _ => ∃ b, s.bindingIn? frame name = some b ∧ b.constant = false
  | .enclose function frame => ∃ f, s.functions[function]? = some f ∧ f.closure = frame
  | .setElement array index _ => index < (s.elements array).size
  | .setEntry .. | .pushElement .. => True

/-- One elementary change of a store. -/
inductive Store.Change : Store → Store → Prop where
  | edit {s : Store} {e : Edit} (h : s.Admits e) : Change s (s.apply e)
  | array (s : Store) (values : Array Value) : Change s (s.addArray values).2
  | object (s : Store) (object : Object) : Change s (s.addObject object).2
  | struct (s : Store) (struct : StructType) : Change s (s.addStruct struct).2
  | native (s : Store) (native : Native) : Change s (s.addNative native).2
  | function (s : Store) (function : Function) : Change s (s.addFunction function).2
  | frame (s : Store) (parent : Option Nat) : Change s (s.addFrame parent).2

/-- What a run can make of a machine. A call counts itself for as long as its body runs. Everything that the
evaluator, the natives and a host do is cut into these changes, so an invariant of runs is one induction with
a case for each of them. -/
inductive Machine.Runs : Machine → Machine → Prop where
  | refl (m : Machine) : Runs m m
  | trans {a b c : Machine} (hab : Runs a b) (hbc : Runs b c) : Runs a c
  | store {m : Machine} {s : Store} (h : m.store.Change s) : Runs m { m with store := s }
  | output (m : Machine) (output : Output) : Runs m { m with output := output }
  | schedule (m : Machine) (schedule : Schedule) : Runs m { m with schedule := schedule }
  | random (m : Machine) (random : Random) : Runs m { m with random := random }
  | call {m m' : Machine} (hdepth : m.depth < m.limit) (hbody : Runs { m with depth := m.depth + 1 } m') :
      Runs m { m' with depth := m'.depth - 1 }

/-- The outcomes of actions that began on `m` and only ran. -/
def Outcome.RunFrom {α : Type} (m : Machine) : Outcome α → Prop
  | .done _ m' => m.Runs m'
  | .fault _ m' => m.Runs m'
  | .starved => True

theorem Outcome.RunFrom.of_runs {α : Type} {m m' : Machine} {o : Outcome α} (h : o.RunFrom m')
    (hrun : m.Runs m') : o.RunFrom m := by
  cases o with
  | done v m => exact .trans hrun h
  | fault e m => exact .trans hrun h
  | starved => trivial

/-- An action that only runs, wherever it begins and however it ends. -/
def Action.Runs {α : Type} (x : Action α) : Prop :=
  ∀ m, (x m).RunFrom m

namespace Proofs.Runs
open Machine

variable {α β : Type}

theorem runs_pure (a : α) : Action.Runs (pure a : Action α) := by
  intro m
  exact .refl m

/-- One action after another, where the second may count on how the first ended. -/
theorem runFrom_bind {x : Action α} {f : α → Action β} {m : Machine} (hx : (x m).RunFrom m)
    (hf : ∀ a m', x m = .done a m' → (f a m').RunFrom m') : Outcome.RunFrom m ((x >>= f) m) := by
  change Outcome.RunFrom m (Action.bind x f m)
  unfold Action.bind
  cases hm : x m with
  | done a m' =>
    rw [hm] at hx
    exact (hf a m' hm).of_runs hx
  | fault e m' =>
    rw [hm] at hx
    exact hx
  | starved => trivial

theorem runs_bind {x : Action α} {f : α → Action β} (hx : x.Runs) (hf : ∀ a, (f a).Runs) :
    Action.Runs (x >>= f) := by
  intro m
  exact runFrom_bind (hx m) fun a m' _ => hf a m'

theorem runs_ite {p : Prop} [Decidable p] {x y : Action α} (hx : x.Runs) (hy : y.Runs) :
    Action.Runs (if p then x else y) := by
  split
  · exact hx
  · exact hy

theorem runs_fail (e : Fault) : Action.Runs (Action.fail e : Action α) := by
  intro m
  exact .refl m

theorem runs_starve : Action.Runs (Action.starve : Action α) := by
  intro m
  trivial

theorem runs_look (f : Machine → α) : Action.Runs (Action.look f) := by
  intro m
  exact .refl m

theorem runs_read (f : Store → Except Fault α) : Action.Runs (Action.read f) := by
  intro m
  unfold Action.read
  split
  · exact .refl m
  · exact .refl m

theorem runFrom_update {f : Store → Except Fault Edit} {m : Machine}
    (h : ∀ e, f m.store = .ok e → m.store.Admits e) : (Action.update f m).RunFrom m := by
  unfold Action.update
  split
  · rename_i e he
    exact Machine.Runs.store (.edit (h e he))
  · exact Machine.Runs.refl m

theorem runs_update {f : Store → Except Fault Edit} (h : ∀ s e, f s = .ok e → s.Admits e) :
    Action.Runs (Action.update f) := by
  intro m
  exact runFrom_update (h m.store)

theorem update_done {f : Store → Except Fault Edit} {m m' : Machine} {u : Unit}
    (h : Action.update f m = .done u m') :
    ∃ e, f m.store = .ok e ∧ m' = { m with store := m.store.apply e } := by
  unfold Action.update at h
  split at h
  · rename_i e he
    cases h
    exact ⟨e, he, rfl⟩
  · cases h

theorem update_fault {f : Store → Except Fault Edit} {m m' : Machine} {e : Fault}
    (h : Action.update f m = .fault e m') : f m.store = .error e ∧ m' = m := by
  unfold Action.update at h
  split at h
  · cases h
  · rename_i e' he
    cases h
    exact ⟨he, rfl⟩

theorem read_fault {f : Store → Except Fault α} {m m' : Machine} {e : Fault}
    (h : Action.read f m = .fault e m') :
    f m.store = .error e ∧ m' = m := by
  unfold Action.read at h
  split at h
  · cases h
  · rename_i e' he
    cases h
    exact ⟨he, rfl⟩

theorem runs_allocate {f : Store → α × Store} (h : ∀ s : Store, s.Change (f s).2) :
    Action.Runs (Action.allocate f) := by
  intro m
  exact .store (h m.store)

theorem runs_modify {f : Machine → Machine} (h : ∀ m : Machine, m.Runs (f m)) :
    Action.Runs (Action.modify f) := by
  intro m
  exact h m

theorem admits_declare {s : Store} {frame : Nat} {name : String} {value : Value} {constant : Bool} {e : Edit}
    (h : s.declare frame name value constant = .ok e) :
    e = .bind frame name ⟨value, constant⟩ ∧ s.Admits e := by
  unfold Store.declare at h
  split at h
  · cases h
  · rename_i hfree
    cases h
    exact ⟨rfl, Bool.eq_false_iff.mpr hfree⟩

theorem admits_assign {s : Store} {frame : Nat} {name : String} {value : Value} {e : Edit}
    (h : s.assign frame name value = .ok e) : s.Admits e := by
  unfold Store.assign at h
  split at h
  · cases h
  · split at h
    · cases h
    · rename_i b hb
      split at h
      · cases h
      · rename_i hconstant
        cases h
        exact ⟨b, hb, Bool.eq_false_iff.mpr hconstant⟩

theorem admits_setMember {s : Store} {target key value : Value} {e : Edit}
    (h : s.setMember target key value = .ok e) : s.Admits e := by
  unfold Store.setMember at h
  split at h
  · cases h
    trivial
  · split at h
    · cases h
    · dsimp only at h
      split at h
      · rename_i hlength
        cases h
        exact hlength
      · split at h
        · cases h
          trivial
        · cases h
  · cases h

theorem runs_declare (frame : Nat) (name : String) (value : Value) (constant : Bool) :
    (declare frame name value constant).Runs :=
  runs_update fun _ _ h => (admits_declare h).2

/-- The variable that a declaration adds. -/
theorem bindingIn_bind {s : Store} {frame : Nat} {name : String} {b b' : Binding}
    (hfree : s.declaresIn frame name = false)
    (h : (s.apply (.bind frame name b)).bindingIn? frame name = some b') : b' = b := by
  unfold Store.declaresIn Store.bindingIn? at hfree
  simp only [Store.apply, Store.bindingIn?, Array.getElem?_modify, if_true] at h
  cases hf : s.frames[frame]? with
  | none =>
    rw [hf] at h
    cases h
  | some f =>
    rw [hf] at h hfree
    have hnone : f.bindings.lookup name = none := by simpa [Frame.get?] using hfree
    simp only [Option.map_some, Option.bind_some, Frame.get?, Frame.bind, List.lookup_append, hnone,
      Option.none_or, List.lookup_cons, beq_self_eq_true] at h
    exact (Option.some.inj h).symm

/-- A function that has just been declared is enclosed where it is already. -/
theorem admits_attachClosure {s : Store} {frame : Nat} {name : String} {f : Function} {e : Edit}
    (hclosure : f.closure = frame)
    (hfree : (s.addFunction f).2.declaresIn frame name = false)
    (h : ((s.addFunction f).2.apply
      (.bind frame name ⟨(s.addFunction f).1, true⟩)).attachClosure frame name = .ok e) :
    ((s.addFunction f).2.apply (.bind frame name ⟨(s.addFunction f).1, true⟩)).Admits e := by
  unfold Store.attachClosure at h
  split at h
  · cases h
  · rename_i b hb
    rw [bindingIn_bind hfree hb] at h
    cases h
    exact ⟨f, Array.getElem?_push_size, hclosure⟩

theorem runs_declareFunction (frame : Nat) (name : String) (parameters : List String) (body : List Stmt) :
    (declareFunction frame name parameters body).Runs := by
  intro m
  refine runFrom_bind (runs_allocate (fun s => .function s _) m) fun v m₁ hadded => ?_
  refine runFrom_bind (runs_declare frame name v true m₁) fun u m₂ hdeclared => ?_
  cases hadded
  obtain ⟨e, he, rfl⟩ := update_done hdeclared
  obtain ⟨rfl, hfree⟩ := admits_declare he
  exact runFrom_update fun e' he' => admits_attachClosure rfl hfree he'

theorem runs_declareStruct (frame : Nat) (name : String) (fields : List Field) :
    (declareStruct frame name fields).Runs :=
  runs_bind (runs_allocate fun s => .struct s _) fun v => runs_declare frame name v true

theorem runs_enter (frame : Nat) : (enter frame).Runs :=
  runs_allocate fun s => .frame s _

theorem runs_bindParameters (frame : Nat) (names : List String) (values : List Value) :
    (bindParameters frame names values).Runs := by
  induction names generalizing values with
  | nil => exact runs_pure ()
  | cons p ps ih => exact runs_bind (runs_declare frame p _ false) fun _ => ih values.tail

theorem beginCall_eq (m : Machine) : beginCall m =
    if m.limit ≤ m.depth then .fault (.callDepthExceeded m.limit) m
    else .done () { m with depth := m.depth + 1 } := by
  unfold beginCall
  change (if m.limit ≤ m.depth then Action.fail _ else Action.modify _ : Action Unit) m = _
  split
  · rfl
  · rfl

/-- A call that is begun is also ended, whatever its body does. -/
theorem runs_counted {body : Action α} (h : body.Runs) :
    Action.Runs (beginCall >>= fun _ => endCall body) := by
  intro m
  change Outcome.RunFrom m (Action.bind beginCall _ m)
  unfold Action.bind
  rw [beginCall_eq]
  by_cases hdepth : m.limit ≤ m.depth
  · rw [if_pos hdepth]
    exact Machine.Runs.refl m
  · rw [if_neg hdepth]
    have hbody := h { m with depth := m.depth + 1 }
    have hroom := Nat.lt_of_not_le hdepth
    dsimp only
    unfold endCall
    cases hend : body { m with depth := m.depth + 1 } with
    | done v m' =>
      rw [hend] at hbody
      exact Machine.Runs.call hroom hbody
    | fault e m' =>
      rw [hend] at hbody
      exact Machine.Runs.call hroom hbody
    | starved => trivial

theorem runs_callback (name : String) (arguments : List Value) :
    (Behaviour.callback name arguments).Runs := by
  cases arguments with
  | nil => exact runs_fail _
  | cons v vs => exact runs_ite (runs_pure v) (runs_fail _)

theorem runs_printAll (values : List Value) : (Behaviour.printAll values).Runs := by
  induction values with
  | nil => exact runs_pure ()
  | cons v vs ih => exact runs_bind (runs_modify fun m => .output m _) fun _ => ih

theorem runs_perform (name : String) (arguments : List Value) (behaviour : Behaviour) :
    (behaviour.perform name arguments).Runs := by
  cases behaviour with
  | print => exact runs_bind (runs_printAll arguments) fun _ => runs_pure _
  | clear => exact runs_bind (runs_modify fun m => .output m _) fun _ => runs_pure _
  | sqrt =>
    cases arguments with
    | nil => exact runs_fail _
    | cons v vs => exact runs_pure _
  | rand =>
    intro m
    exact Machine.Runs.random m _
  | addElement =>
    dsimp only [Behaviour.perform]
    split
    · refine runs_bind (runs_update fun s e h => ?_) fun _ => runs_pure _
      cases h
      trivial
    · exact runs_pure _
  | time => exact runs_bind (runs_look _) fun _ => runs_pure _
  | interval =>
    exact runs_bind (runs_callback name arguments) fun f =>
      runs_bind (runs_modify fun m => .schedule m _) fun _ => runs_pure _
  | nextFrame =>
    exact runs_bind (runs_callback name arguments) fun f =>
      runs_bind (runs_modify fun m => .schedule m _) fun _ => runs_pure _
  | collect => exact runs_allocate fun s => .array s _
  | constantly v => exact runs_pure v

theorem runs_nativeCall (native : Native) (arguments : List Value) : (native.call arguments).Runs := by
  unfold Native.call
  split
  · exact runs_ite (runs_fail _) (runs_perform _ _ _)
  · exact runs_perform _ _ _

/-- Everything that the evaluator does within a bound is a run. -/
structure EvaluatorRuns (n : Nat) : Prop where
  eval : ∀ frame e, (eval frame n e).Runs
  evalAll : ∀ frame es, (evalAll frame n es).Runs
  evalProperties : ∀ frame ps, (evalProperties frame n ps).Runs
  evalKey : ∀ frame e computed, (evalKey frame n e computed).Runs
  execute : ∀ frame stmt, (execute frame n stmt).Runs
  executeBlock : ∀ frame stmts, (executeBlock frame n stmts).Runs
  executeAll : ∀ frame stmts, (executeAll frame n stmts).Runs
  loop : ∀ frame test body, (loop frame n test body).Runs
  call : ∀ f vs, (call n f vs).Runs
  executeBody : ∀ frame stmts, (executeBody frame n stmts).Runs

variable {n : Nat}

theorem runs_eval_succ (h : EvaluatorRuns n) (frame : Nat) (e : Expr) : (eval frame (n + 1) e).Runs := by
  cases e with
  | number x => exact runs_pure _
  | text s => exact runs_pure _
  | array es => exact runs_bind (h.evalAll frame es) fun vs => runs_allocate fun s => .array s _
  | object ps => exact runs_bind (h.evalProperties frame ps) fun vs => runs_allocate fun s => .object s _
  | identifier name => exact runs_read _
  | assign name e =>
    exact runs_bind (h.eval frame e) fun v =>
      runs_bind (runs_update fun _ _ => admits_assign) fun _ => runs_pure v
  | call callee es =>
    exact runs_bind (h.eval frame callee) fun f => runs_bind (h.evalAll frame es) fun vs => h.call f vs
  | member object key computed assignment =>
    refine runs_bind (h.eval frame object) fun target => runs_bind (h.evalKey frame key computed) fun k => ?_
    cases assignment with
    | none => exact runs_read _
    | some e =>
      exact runs_bind (h.eval frame e) fun v =>
        runs_bind (runs_update fun _ _ => admits_setMember) fun _ => runs_pure v
  | boolean left op right =>
    refine runs_bind (h.eval frame left) fun l => runs_bind (h.eval frame right) fun r => ?_
    cases op with
    | and => exact runs_pure _
    | or => exact runs_pure _
  | binary left op right =>
    exact runs_bind (h.eval frame left) fun l => runs_bind (h.eval frame right) fun r => runs_read _
  | logical left op admitsEqual right =>
    exact runs_bind (h.eval frame left) fun l => runs_bind (h.eval frame right) fun r => runs_pure _
  | not e => exact runs_bind (h.eval frame e) fun v => runs_pure _

theorem runs_evalAll_succ (h : EvaluatorRuns n) (frame : Nat) (es : List Expr) :
    (evalAll frame (n + 1) es).Runs := by
  cases es with
  | nil => exact runs_pure _
  | cons e es =>
    exact runs_bind (h.eval frame e) fun v => runs_bind (h.evalAll frame es) fun vs => runs_pure _

theorem runs_evalProperties_succ (h : EvaluatorRuns n) (frame : Nat) (ps : List Property) :
    (evalProperties frame (n + 1) ps).Runs := by
  cases ps with
  | nil => exact runs_pure _
  | cons p ps =>
    cases p with
    | shorthand key =>
      exact runs_bind (runs_read _) fun v => runs_bind (h.evalProperties frame ps) fun vs => runs_pure _
    | valued key e =>
      exact runs_bind (h.eval frame e) fun v =>
        runs_bind (h.evalProperties frame ps) fun vs => runs_pure _

theorem runs_evalKey_succ (h : EvaluatorRuns n) (frame : Nat) (e : Expr) (computed : Bool) :
    (evalKey frame (n + 1) e computed).Runs := by
  cases computed with
  | true =>
    rw [evalKey]
    exact h.eval frame e
  | false =>
    cases e with
    | identifier name => exact runs_pure _
    | _ => exact runs_fail _

theorem runs_execute_succ (h : EvaluatorRuns n) (frame : Nat) (stmt : Stmt) :
    (execute frame (n + 1) stmt).Runs := by
  cases stmt with
  | expr e => exact runs_bind (h.eval frame e) fun v => runs_pure _
  | varDecl name constant e =>
    exact runs_bind (h.eval frame e) fun v =>
      runs_bind (runs_declare frame name v constant) fun _ => runs_pure _
  | structDecl name fields => exact runs_bind (runs_declareStruct frame name fields) fun _ => runs_pure _
  | fnDecl name parameters body =>
    exact runs_bind (runs_declareFunction frame name parameters body) fun _ => runs_pure _
  | ret e =>
    exact runs_bind (runs_look _) fun depth =>
      runs_ite (runs_fail _) (runs_bind (h.eval frame e) fun v => runs_pure _)
  | ifThen test consequent =>
    exact runs_bind (h.eval frame test) fun t =>
      runs_ite (runs_bind (runs_enter frame) fun block => h.executeBlock block consequent) (runs_pure _)
  | whileDo test body => exact runs_bind (h.loop frame test body) fun _ => runs_pure _

theorem runs_executeBlock_succ (h : EvaluatorRuns n) (frame : Nat) (stmts : List Stmt) :
    (executeBlock frame (n + 1) stmts).Runs := by
  cases stmts with
  | nil => exact runs_pure _
  | cons stmt stmts =>
    exact runs_bind (h.execute frame stmt) fun flow => runs_ite (runs_pure flow) (h.executeBlock frame stmts)

theorem runs_executeAll_succ (h : EvaluatorRuns n) (frame : Nat) (stmts : List Stmt) :
    (executeAll frame (n + 1) stmts).Runs := by
  cases stmts with
  | nil => exact runs_pure _
  | cons stmt stmts => exact runs_bind (h.execute frame stmt) fun _ => h.executeAll frame stmts

theorem runs_loop_succ (h : EvaluatorRuns n) (frame : Nat) (test : Expr) (body : List Stmt) :
    (loop frame (n + 1) test body).Runs :=
  runs_bind (h.eval frame test) fun _ =>
    runs_ite
      (runs_bind (runs_enter frame) fun turn =>
        runs_bind (h.executeAll turn body) fun _ => h.loop frame test body)
      (runs_pure _)

theorem runs_call_succ (h : EvaluatorRuns n) (f : Value) (vs : List Value) : (call (n + 1) f vs).Runs := by
  cases f with
  | function ref =>
    refine runs_bind (runs_look _) fun found => ?_
    cases found with
    | none => exact runs_pure _
    | some f =>
      exact runs_counted (runs_bind (runs_enter f.closure) fun frame =>
        runs_bind (runs_bindParameters frame f.parameters vs) fun _ => h.executeBody frame f.body)
  | native ref =>
    refine runs_bind (runs_look _) fun found => ?_
    cases found with
    | none => exact runs_pure _
    | some native => exact runs_nativeCall native vs
  | structType ref =>
    exact runs_bind (runs_read _) fun object => runs_allocate fun s => .object s object
  | _ => exact runs_bind (runs_look _) fun shown => runs_fail _

theorem runs_executeBody_succ (h : EvaluatorRuns n) (frame : Nat) (stmts : List Stmt) :
    (executeBody frame (n + 1) stmts).Runs := by
  cases stmts with
  | nil => exact runs_pure _
  | cons stmt stmts =>
    cases stmt with
    | ret e => exact h.eval frame e
    | ifThen test consequent =>
      refine runs_bind (h.execute frame _) fun flow => ?_
      cases flow with
      | normal v => exact h.executeBody frame stmts
      | returned v => exact runs_ite (runs_pure v) (h.executeBody frame stmts)
    | _ => exact runs_bind (h.execute frame _) fun _ => h.executeBody frame stmts

/-- The evaluator only runs. The induction is on the bound, which every function of it counts down. -/
theorem evaluator_runs (n : Nat) : EvaluatorRuns n := by
  induction n with
  | zero =>
    constructor
    all_goals
      intros
      exact runs_starve
  | succ n ih =>
    exact {
      eval := runs_eval_succ ih
      evalAll := runs_evalAll_succ ih
      evalProperties := runs_evalProperties_succ ih
      evalKey := runs_evalKey_succ ih
      execute := runs_execute_succ ih
      executeBlock := runs_executeBlock_succ ih
      executeAll := runs_executeAll_succ ih
      loop := runs_loop_succ ih
      call := runs_call_succ ih
      executeBody := runs_executeBody_succ ih }

theorem step_some {fuel : Nat} {e : Execution} {stmt : Stmt}
    (h : e.program.body[e.progress.position]? = some stmt) (m : Machine) : e.step fuel m =
      match execute e.root fuel stmt m with
      | .done flow m' => ({ e with progress := ⟨e.progress.position + 1, flow.value⟩ }, .done .yielded m')
      | .fault c m' => ({ e with progress := ⟨e.program.body.length, .null⟩ }, .fault c m')
      | .starved => (e, .starved) := by
  simp only [Execution.step, Progress.advance, h]
  cases execute e.root fuel stmt m <;> rfl

theorem step_none {fuel : Nat} {e : Execution} (h : e.program.body[e.progress.position]? = none)
    (m : Machine) : e.step fuel m = (e, .done (.finished e.progress.last) m) := by
  simp only [Execution.step, Progress.advance, h]

theorem runFrom_step (fuel : Nat) (e : Execution) (m : Machine) : (e.step fuel m).2.RunFrom m := by
  unfold Execution.step Progress.advance
  dsimp only
  cases hstmt : e.program.body[e.progress.position]? with
  | none => exact Machine.Runs.refl m
  | some stmt =>
    dsimp only
    have hrun := (evaluator_runs fuel).execute e.root stmt m
    cases hend : execute e.root fuel stmt m with
    | done flow m' =>
      rw [hend] at hrun
      exact hrun
    | fault c m' =>
      rw [hend] at hrun
      exact hrun
    | starved => trivial

theorem runFrom_runWithin (fuel : Nat) (limit : Option Nat) (n steps : Nat) (e : Execution) (m : Machine) :
    (Execution.runWithin fuel limit n steps e m).2.RunFrom m := by
  induction n generalizing steps e m with
  | zero => trivial
  | succ n ih =>
    unfold Execution.runWithin
    split
    · exact Machine.Runs.refl m
    · have hstep := runFrom_step fuel e m
      split
      all_goals
        rename_i hend
        rw [hend] at hstep
      · exact (ih _ _ _).of_runs hstep
      · exact hstep
      · exact hstep
      · trivial

theorem runs_installConstants (frame : Nat) (constants : List (String × Value)) :
    (Toolbox.installConstants frame constants).Runs := by
  induction constants with
  | nil => exact runs_pure ()
  | cons c cs ih => exact runs_bind (runs_declare frame c.1 c.2 true) fun _ => ih

theorem runs_installTools (frame : Nat) (tools : List Tool) : (Toolbox.installTools frame tools).Runs := by
  induction tools with
  | nil => exact runs_pure ()
  | cons t ts ih =>
    exact runs_bind (runs_allocate fun s => .native s _) fun v =>
      runs_bind (runs_declare frame t.name v true) fun _ => ih

theorem runs_install (box : Toolbox) (frame : Nat) : (box.install frame).Runs :=
  runs_bind (runs_installConstants frame box.constants) fun _ => runs_installTools frame box.tools

theorem runs_callAll (fuel : Nat) (callbacks : List Value) : (Host.callAll fuel callbacks).Runs := by
  induction callbacks with
  | nil => exact runs_pure ()
  | cons f fs ih =>
    exact runs_bind (runs_look _) fun _ =>
      runs_ite (runs_pure ()) (runs_bind ((evaluator_runs fuel).call f []) fun _ => ih)

theorem runs_runFrame (fuel : Nat) (frameMs : Float) : (Host.runFrame fuel frameMs).Runs := by
  intro m
  unfold Host.runFrame
  split
  · trivial
  · exact (runs_callAll fuel _ _).of_runs (.schedule m _)

theorem runs_runFrames (fuel : Nat) (frameMs : Float) (n : Nat) :
    (Host.runFrames fuel frameMs n).Runs := by
  induction n with
  | zero => exact runs_pure ()
  | succ n ih =>
    exact runs_bind (runs_look _) fun _ =>
      runs_ite (runs_pure ()) (runs_bind (runs_runFrame fuel frameMs) fun _ => ih)

/-- A host does nothing but run. -/
theorem runs_drive (fuel : Nat) (settings : Settings) (program : Program) :
    (Host.drive fuel settings program).Runs := by
  refine runs_bind (runs_install _ _) fun _ => runs_bind ?_ fun v =>
    runs_bind (runs_runFrames fuel _ _) fun _ => runs_pure v
  intro m
  exact runFrom_runWithin fuel _ _ _ _ m

end Proofs.Runs

end Scriptlet
