import Scriptlet.Proofs.LockstepHosts

namespace Scriptlet

mutual

/-- The normal form of a statement, which stands in a function or not. -/
def Stmt.normal (inFunction : Bool) : Stmt → Stmt
  | .fnDecl name parameters body => .fnDecl name parameters (Stmt.normalBlock true body)
  | .ifThen test body => .ifThen test (Stmt.normalBlock inFunction body)
  | .whileDo test body => .whileDo test (Stmt.normalTurn inFunction body)
  | .structDecl name fields => .structDecl name fields
  | .ret e => .ret e
  | .varDecl name constant e => .varDecl name constant e
  | .expr e => .expr e

/-- The statements of a function body or a conditional block, up to the first return among them. -/
def Stmt.normalBlock (inFunction : Bool) : List Stmt → List Stmt
  | [] => []
  | s :: ss => s.normal inFunction :: if s.isReturn then [] else Stmt.normalBlock inFunction ss

/-- The statements of a loop. In a function, a return among them is only its expression. -/
def Stmt.normalTurn (inFunction : Bool) : List Stmt → List Stmt
  | [] => []
  | .ret e :: ss => (if inFunction then .expr e else .ret e) :: Stmt.normalTurn inFunction ss
  | s :: ss => s.normal inFunction :: Stmt.normalTurn inFunction ss

end

mutual

/-- Whether a statement, which stands in a function or not, is in normal form. -/
def Stmt.isNormal (inFunction : Bool) : Stmt → Bool
  | .fnDecl _ _ body => Stmt.isNormalBlock true body
  | .ifThen _ body => Stmt.isNormalBlock inFunction body
  | .whileDo _ body => Stmt.isNormalTurn inFunction body
  | .structDecl .. | .ret _ | .varDecl .. | .expr _ => true

/-- Whether nothing stands behind a return. -/
def Stmt.isNormalBlock (inFunction : Bool) : List Stmt → Bool
  | [] => true
  | s :: ss => s.isNormal inFunction && (!s.isReturn || ss.isEmpty) && Stmt.isNormalBlock inFunction ss

/-- Whether there is no return among the statements of a loop in a function. -/
def Stmt.isNormalTurn (inFunction : Bool) : List Stmt → Bool
  | [] => true
  | s :: ss => s.isNormal inFunction && !(inFunction && s.isReturn) && Stmt.isNormalTurn inFunction ss

end

/-- The normal form of a program: nothing stands behind a return, and the loops of functions have none. A
return ends the function or the conditional block in which it stands; in a loop its value is dropped and the
loop goes on. -/
def Program.normal (p : Program) : Program :=
  p.map (Stmt.normal false)

/-- Whether a program is in normal form. -/
def Program.isNormal (p : Program) : Bool :=
  p.body.all (Stmt.isNormal false)

/-- How a run ends if its functions have their normal forms. -/
def Run.normal (r : Run) : Run :=
  { r with store := r.store.mapBodies (Stmt.normalBlock true) }

/-- The functions of the second machine have their normal forms. -/
def Leeway.normal : Leeway :=
  { Leeway.same with body := Stmt.normalBlock true }

/-- Whether the code of a task is expressions, or what was got from them. -/
def Task.isExpression : Task → Bool
  | .eval .. | .evalAll .. | .evalProperties .. | .evalKey .. | .call .. => true
  | .execute .. | .executeBlock .. | .executeAll .. | .loop .. | .executeBody .. => false

/-- A task goes together with the one for the normal form of its code. Code stands in a function where a call
is under way. -/
inductive Task.Normal : Task.Pairing where
  | expression {d : Nat} {t : Task} (h : t.isExpression = true) : Normal d t t Eq
  | statement {d : Nat} {b : Bool} (hb : b = decide (0 < d)) (frame : Nat) (s : Stmt) :
      Normal d (.execute frame s) (.execute frame (s.normal b)) Eq
  | dropped {d : Nat} (hd : 0 < d) (frame : Nat) (e : Expr) :
      Normal d (.execute frame (.ret e)) (.execute frame (.expr e)) fun _ _ => True
  | block {d : Nat} {b : Bool} (hb : b = decide (0 < d)) (frame : Nat) (ss : List Stmt) :
      Normal d (.executeBlock frame ss) (.executeBlock frame (Stmt.normalBlock b ss)) Eq
  | turn {d : Nat} {b : Bool} (hb : b = decide (0 < d)) (frame : Nat) (ss : List Stmt) :
      Normal d (.executeAll frame ss) (.executeAll frame (Stmt.normalTurn b ss)) Eq
  | loop {d : Nat} {b : Bool} (hb : b = decide (0 < d)) (frame : Nat) (test : Expr) (ss : List Stmt) :
      Normal d (.loop frame test ss) (.loop frame test (Stmt.normalTurn b ss)) Eq
  | body {d : Nat} (hd : 0 < d) (frame : Nat) (ss : List Stmt) :
      Normal d (.executeBody frame ss) (.executeBody frame (Stmt.normalBlock true ss)) Eq

namespace Proofs.NormalReturns
open Machine Plans OwnActions Parts Lockstep LockstepHosts

variable {d : Nat} {b : Bool}

theorem isReturn_normal (s : Stmt) : (s.normal b).isReturn = s.isReturn := by
  cases s <;> simp [Stmt.normal, Stmt.isReturn]

theorem exists_ret {s : Stmt} (h : s.isReturn = true) : ∃ e, s = .ret e := by
  cases s with
  | ret e => exact ⟨e, rfl⟩
  | _ => cases h

theorem normalTurn_cons {s : Stmt} (h : s.isReturn = false) (ss : List Stmt) :
    Stmt.normalTurn b (s :: ss) = s.normal b :: Stmt.normalTurn b ss := by
  cases s with
  | ret e => cases h
  | _ => rfl

mutual

theorem isNormal_normal (b : Bool) (s : Stmt) : (s.normal b).isNormal b = true := by
  cases s with
  | fnDecl name parameters body =>
    simpa [Stmt.normal, Stmt.isNormal] using isNormalBlock_normalBlock true body
  | ifThen test body => simpa [Stmt.normal, Stmt.isNormal] using isNormalBlock_normalBlock b body
  | whileDo test body => simpa [Stmt.normal, Stmt.isNormal] using isNormalTurn_normalTurn b body
  | _ => simp [Stmt.normal, Stmt.isNormal]

theorem isNormalBlock_normalBlock (b : Bool) (ss : List Stmt) :
    Stmt.isNormalBlock b (Stmt.normalBlock b ss) = true := by
  cases ss with
  | nil => rfl
  | cons s ss =>
    have hs := isNormal_normal b s
    have hss := isNormalBlock_normalBlock b ss
    cases hreturn : s.isReturn with
    | true => simp [Stmt.normalBlock, Stmt.isNormalBlock, hreturn, hs]
    | false => simp [Stmt.normalBlock, Stmt.isNormalBlock, hreturn, isReturn_normal, hs, hss]

theorem isNormalTurn_normalTurn (b : Bool) (ss : List Stmt) :
    Stmt.isNormalTurn b (Stmt.normalTurn b ss) = true := by
  cases ss with
  | nil => rfl
  | cons s ss =>
    have hs := isNormal_normal b s
    have hss := isNormalTurn_normalTurn b ss
    cases hreturn : s.isReturn with
    | true =>
      obtain ⟨e, rfl⟩ := exists_ret hreturn
      cases b <;> simpa [Stmt.normalTurn, Stmt.isNormalTurn, Stmt.isNormal, Stmt.isReturn] using hss
    | false => simp [normalTurn_cons hreturn, Stmt.isNormalTurn, isReturn_normal, hreturn, hs, hss]

end

theorem part_isExpression {size : Nat} {t t' : Task} (h : t.Part size t') (ht : t.isExpression = true) :
    t'.isExpression = true := by
  cases h <;> simp_all [Task.isExpression]

theorem plan_expression {t : Task} (h : t.isExpression = true) :
    t.plan.Matches .normal Task.Normal d Eq t.plan := by
  apply matches_self
  · refine acts_mono (fun hown => own_follows hown fun frame name parameters body ht => ?_) (own_plan t)
    rw [ht] at h
    cases h
  · exact tasks_mono (Nat.le_refl 0) (fun t' hpart => .expression (part_isExpression hpart h))
      (plan_parts 0 t)

theorem plan_statement (hb : b = decide (0 < d)) (frame : Nat) (s : Stmt) :
    (Task.execute frame s).plan.Matches .normal Task.Normal d Eq (Task.execute frame (s.normal b)).plan := by
  cases s with
  | structDecl name fields => exact .act Eq (follows_declareStruct frame name fields) fun _ _ _ => .done rfl
  | fnDecl name parameters body =>
    exact .act Eq (follows_declareFunction frame name parameters body) fun _ _ _ => .done rfl
  | ret e =>
    refine .act Eq follows_guardReturn fun _ _ _ => .task Eq (.expression rfl) ?_
    rintro v _ rfl
    exact .done rfl
  | varDecl name constant e =>
    refine .task Eq (.expression rfl) ?_
    rintro v _ rfl
    exact .act Eq (follows_declare frame name v constant) fun _ _ _ => .done rfl
  | expr e =>
    refine .task Eq (.expression rfl) ?_
    rintro v _ rfl
    exact .done rfl
  | ifThen test body =>
    refine .task Eq (.expression rfl) ?_
    rintro t _ rfl
    split
    · refine .act Eq (follows_enter frame) ?_
      rintro block _ rfl
      exact .task Eq (.block hb block body) fun _ _ hflow => .done hflow
    · exact .done rfl
  | whileDo test body => exact .task Eq (.loop hb frame test body) fun _ _ _ => .done rfl

/-- A return in a loop of a function is as good as its expression: the guard lets it pass. -/
theorem plan_dropped (hd : 0 < d) (frame : Nat) (e : Expr) :
    (Task.execute frame (.ret e)).plan.Matches .normal Task.Normal d (fun _ _ => True)
      (Task.execute frame (.expr e)).plan := by
  refine .skip () (fun m hm => ?_) (.task Eq (.expression rfl) fun _ _ _ => .done trivial)
  have hinside : m.depth ≠ 0 := by omega
  rw [guardReturn_eq, if_neg hinside]

theorem plan_block (hb : b = decide (0 < d)) (frame : Nat) (ss : List Stmt) :
    (Task.executeBlock frame ss).plan.Matches .normal Task.Normal d Eq
      (Task.executeBlock frame (Stmt.normalBlock b ss)).plan := by
  cases ss with
  | nil => exact .done rfl
  | cons s ss =>
    change Plan.Matches _ _ _ _ _
      (Task.executeBlock frame (s.normal b :: if s.isReturn then [] else Stmt.normalBlock b ss)).plan
    cases hreturn : s.isReturn with
    | true =>
      refine .task Eq (.statement hb frame s) ?_
      rintro flow _ rfl
      rw [isReturn_normal, hreturn]
      exact .done rfl
    | false =>
      refine .task Eq (.statement hb frame s) ?_
      rintro flow _ rfl
      rw [isReturn_normal, hreturn]
      exact .task Eq (.block hb frame ss) fun _ _ hflow => .done hflow

theorem plan_turn (hb : b = decide (0 < d)) (frame : Nat) (ss : List Stmt) :
    (Task.executeAll frame ss).plan.Matches .normal Task.Normal d Eq
      (Task.executeAll frame (Stmt.normalTurn b ss)).plan := by
  cases ss with
  | nil => exact .done rfl
  | cons s ss =>
    have hrest := Task.Normal.turn hb frame ss
    cases s with
    | ret e =>
      cases b with
      | true =>
        exact .task _ (.dropped (of_decide_eq_true hb.symm) frame e) fun _ _ _ => .task Eq hrest fun _ _ _ =>
          .done rfl
      | false =>
        exact .task Eq (.statement hb frame (.ret e)) fun _ _ _ => .task Eq hrest fun _ _ _ => .done rfl
    | _ => exact .task Eq (.statement hb frame _) fun _ _ _ => .task Eq hrest fun _ _ _ => .done rfl

theorem plan_loop (hb : b = decide (0 < d)) (frame : Nat) (test : Expr) (ss : List Stmt) :
    (Task.loop frame test ss).plan.Matches .normal Task.Normal d Eq
      (Task.loop frame test (Stmt.normalTurn b ss)).plan := by
  refine .task Eq (.expression rfl) ?_
  rintro t _ rfl
  split
  · refine .act Eq (follows_enter frame) ?_
    rintro turn _ rfl
    exact .task Eq (.turn hb turn ss) fun _ _ _ => .task Eq (.loop hb frame test ss) fun _ _ _ => .done rfl
  · exact .done rfl

theorem plan_body (hd : 0 < d) (frame : Nat) (ss : List Stmt) :
    (Task.executeBody frame ss).plan.Matches .normal Task.Normal d Eq
      (Task.executeBody frame (Stmt.normalBlock true ss)).plan := by
  have hb : true = decide (0 < d) := (decide_eq_true hd).symm
  cases ss with
  | nil => exact .done rfl
  | cons s ss =>
    have hrest := Task.Normal.body hd frame ss
    cases s with
    | ret e => exact .task Eq (.expression rfl) fun _ _ hv => .done hv
    | ifThen test body =>
      refine .task Eq (.statement hb frame (.ifThen test body)) ?_
      rintro flow _ rfl
      cases flow with
      | normal v => exact .task Eq hrest fun _ _ hv => .done hv
      | returned v =>
        dsimp only
        split
        · exact .done rfl
        · exact .task Eq hrest fun _ _ hv => .done hv
    | _ => exact .task Eq (.statement hb frame _) fun _ _ _ => .task Eq hrest fun _ _ hv => .done hv

theorem plan_normal {t t' : Task} {V : t.Result → t'.Result → Prop} (h : Task.Normal d t t' V) :
    t.plan.Matches .normal Task.Normal d V t'.plan := by
  cases h with
  | expression h => exact plan_expression h
  | statement hb frame s => exact plan_statement hb frame s
  | dropped hd frame e => exact plan_dropped hd frame e
  | block hb frame ss => exact plan_block hb frame ss
  | turn hb frame ss => exact plan_turn hb frame ss
  | loop hb frame test ss => exact plan_loop hb frame test ss
  | body hd frame ss => exact plan_body hd frame ss

theorem run_normal (n : Nat) {t t' : Task} {V : t.Result → t'.Result → Prop} (h : Task.Normal d t t' V) :
    Leeway.normal.Follows d V (t.run n) (t'.run n) :=
  follows_run (fun d frame stmts => .body (Nat.succ_pos d) frame stmts)
    (fun _ _ _ _ h => plan_normal h) n d t t' V h

theorem drive_normal (fuel : Nat) (settings : Settings) (program : Program) :
    Leeway.normal.Follows 0 Eq (Host.drive fuel settings program) (Host.drive fuel settings program.normal) :=
  follows_drive (fun frame s => run_normal fuel (.statement rfl frame s))
    (fun f => run_normal fuel (t := .call f []) (.expression rfl)) settings program

theorem machines_start (h : Host) : Leeway.normal.Machines 0 h.machine h.machine where
  store := by simp [Host.machine, Store.addFrame, Store.empty, Store.mapBodies]
  output := rfl
  schedule := rfl
  random := rfl
  depth := rfl
  depth' := rfl
  limit := rfl

theorem after_eq (h : Host) {m m' : Machine} (hm : Leeway.normal.Machines 0 m m') :
    h.after m' = h.after m := by
  have houtput : m.output = m'.output := hm.output
  unfold Host.after
  rw [hm.schedule, houtput]

/-- A program runs like its normal form: with the same value or error, the same output and the same schedule
at the end, on a store that differs only in the bodies of functions, which are in normal form too. -/
theorem runs_like_normal_form (fuel : Nat) (h : Host) (program : Program) :
    program.normal.isNormal = true ∧
      h.runProgram fuel program.normal = (h.runProgram fuel program).map Run.normal := by
  constructor
  · simp [Program.normal, Program.map, Program.isNormal, isNormal_normal]
  · have hends := drive_normal fuel h.settings program _ _ (machines_start h)
    unfold Host.runProgram
    generalize Host.drive fuel h.settings program h.machine = o at hends
    generalize Host.drive fuel h.settings program.normal h.machine = o' at hends
    cases hends with
    | done hV hm =>
      cases hV
      dsimp only
      rw [after_eq h hm, hm.store]
      rfl
    | fault e hm =>
      dsimp only
      rw [after_eq h hm, hm.store]
      rfl
    | excused he => exact he.elim
    | starved => rfl

end Proofs.NormalReturns

end Scriptlet
