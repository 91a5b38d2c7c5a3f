import Scriptlet.Proofs.CallDepth

namespace Scriptlet

/-- Executes statements in their order at a frame. The value is that of the last one, or `last` if there is
none. -/
def Machine.inOrder (root fuel : Nat) : List Stmt → Value → Action Value
  | [], last => pure last
  | stmt :: stmts, _ => do
    let flow ← execute root fuel stmt
    inOrder root fuel stmts flow.value

/-- One program after another. -/
def Program.append (p q : Program) : Program :=
  ⟨p.body ++ q.body⟩

namespace Execution

/-- What step number `k`, counted from zero, gives to a driver that goes on stepping, also after a fault. -/
def stepAt (fuel k : Nat) (e : Execution) (m : Machine) : Option (Execution × Outcome Step) :=
  (Step.trail (Execution.step fuel) (k + 1) e m)[k]?

/-- Step number `k` executes statement `k` on the machine that the statements before it left, and yields
behind it. -/
def Yields (fuel root : Nat) (program : Program) (m : Machine) (k : Nat) : Prop :=
  ∃ stmt v before flow after, program.body[k]? = some stmt ∧
    Machine.inOrder root fuel (program.body.take k) .null m = .done v before ∧
    Machine.execute root fuel stmt before = .done flow after ∧
    (start program root).stepAt fuel k m = some (⟨program, root, ⟨k + 1, flow.value⟩⟩, .done .yielded after)

/-- The statements that a limit on steps leaves of some, after a number of steps. -/
def admitted (limit : Option Nat) (steps : Nat) (stmts : List Stmt) : List Stmt :=
  match limit with
  | some k => stmts.take (k - steps)
  | none => stmts

end Execution

namespace Proofs.Stepping
open Machine Plans Tasks

variable {fuel root : Nat}

theorem inOrder_append (ss ts : List Stmt) (v : Value) :
    inOrder root fuel (ss ++ ts) v = inOrder root fuel ss v >>= inOrder root fuel ts := by
  induction ss generalizing v with
  | nil => exact (pure_bind v (inOrder root fuel ts)).symm
  | cons s ss ih =>
    dsimp only [List.cons_append, inOrder]
    rw [bind_assoc]
    congr 1
    funext flow
    exact ih flow.value

/-- What the statements before a place come to, if all of them come to an end. -/
theorem inOrder_take {ss : List Stmt} {v w : Value} {m m' : Machine}
    (h : inOrder root fuel ss v m = .done w m')
    (k : Nat) : ∃ u mk, inOrder root fuel (ss.take k) v m = .done u mk ∧
      inOrder root fuel (ss.drop k) u mk = .done w m' := by
  rw [← List.take_append_drop k ss, inOrder_append] at h
  exact bind_done h

section Steps

variable {program : Program} {m : Machine}

theorem body_at {before stmts : List Stmt} {stmt : Stmt} (h : program.body = before ++ stmt :: stmts) :
    program.body[before.length]? = some stmt := by
  rw [h, List.getElem?_append_right (Nat.le_refl _), Nat.sub_self]
  rfl

theorem body_end {before : List Stmt} (h : program.body = before ++ []) :
    program.body[before.length]? = none := by
  rw [h, List.append_nil]
  exact List.getElem?_eq_none (Nat.le_refl _)

theorem body_next {before stmts : List Stmt} {stmt : Stmt} (h : program.body = before ++ stmt :: stmts) :
    program.body = (before ++ [stmt]) ++ stmts := by
  rw [h, List.append_assoc]
  rfl

theorem stepAt_zero (e : Execution) (m : Machine) : e.stepAt fuel 0 m = some (e.step fuel m) := by
  unfold Execution.stepAt Step.trail
  cases e.step fuel m with
  | mk e' o => cases o <;> rfl

theorem stepAt_done {e e' : Execution} {s : Step} {m' : Machine} (h : e.step fuel m = (e', .done s m'))
    (k : Nat) :
    e.stepAt fuel (k + 1) m = e'.stepAt fuel k m' := by
  unfold Execution.stepAt
  rw [Step.trail, h]
  rfl

theorem stepAt_fault {e e' : Execution} {c : Fault} {m' : Machine} (h : e.step fuel m = (e', .fault c m'))
    (k : Nat) :
    e.stepAt fuel (k + 1) m = e'.stepAt fuel k m' := by
  unfold Execution.stepAt
  rw [Step.trail, h]
  rfl

/-- Where no statement is left, every step says so and changes nothing. -/
theorem stepAt_finished {e : Execution} (h : e.program.body[e.progress.position]? = none) (k : Nat) :
    e.stepAt fuel k m = some (e, .done (.finished e.progress.last) m) := by
  have hstep : e.step fuel m = (e, .done (.finished e.progress.last) m) := Runs.step_none h m
  induction k with
  | zero => rw [stepAt_zero, hstep]
  | succ k ih => rw [stepAt_done hstep, ih]

/-- As many steps as statements come to an end lead behind them. -/
theorem stepAt_behind {stmts rest : List Stmt} (before : List Stmt) {v w : Value} {m' : Machine}
    (hbody : program.body = before ++ (stmts ++ rest)) (h : inOrder root fuel stmts v m = .done w m')
    (k : Nat) :
    (⟨program, root, ⟨before.length, v⟩⟩ : Execution).stepAt fuel (stmts.length + k) m =
      (⟨program, root, ⟨(before ++ stmts).length, w⟩⟩ : Execution).stepAt fuel k m' := by
  induction stmts generalizing before v m with
  | nil =>
    cases h
    rw [List.append_nil, List.length_nil, Nat.zero_add]
  | cons stmt stmts ih =>
    obtain ⟨flow, m₁, hexecute, hrest⟩ := bind_done h
    have hstep : (⟨program, root, ⟨before.length, v⟩⟩ : Execution).step fuel m =
        (⟨program, root, ⟨before.length + 1, flow.value⟩⟩, .done .yielded m₁) := by
      rw [Runs.step_some (e := ⟨program, root, ⟨before.length, v⟩⟩) (body_at hbody), hexecute]
    have hnext := ih (before ++ [stmt]) (body_next hbody) hrest
    rw [List.length_append, List.append_assoc] at hnext
    rw [List.length_cons, Nat.add_right_comm, stepAt_done hstep]
    exact hnext

/-- Where the statements before number `k` come to an end, the steps from number `k` on begin with that
statement. -/
theorem stepAt_from {k j : Nat} {v : Value} {m' : Machine} (hk : k ≤ program.body.length)
    (h : inOrder root fuel (program.body.take k) .null m = .done v m') :
    (Execution.start program root).stepAt fuel (k + j) m =
      (⟨program, root, ⟨k, v⟩⟩ : Execution).stepAt fuel j m' := by
  have hlength : (program.body.take k).length = k := List.length_take_of_le hk
  have hbehind := stepAt_behind [] (List.take_append_drop k program.body).symm h j
  rw [List.nil_append, hlength] at hbehind
  exact hbehind

theorem yields_of_done {k : Nat} {stmt : Stmt} {v : Value} {before after : Machine} {flow : Flow}
    (hstmt : program.body[k]? = some stmt)
    (hbefore : inOrder root fuel (program.body.take k) .null m = .done v before)
    (hexecute : execute root fuel stmt before = .done flow after) :
    Execution.Yields fuel root program m k := by
  have hk : k < program.body.length := (List.getElem?_eq_some_iff.mp hstmt).1
  refine ⟨stmt, v, before, flow, after, hstmt, hbefore, hexecute, ?_⟩
  have hstep : (⟨program, root, ⟨k, v⟩⟩ : Execution).step fuel before =
      (⟨program, root, ⟨k + 1, flow.value⟩⟩, .done .yielded after) := by
    rw [Runs.step_some (e := ⟨program, root, ⟨k, v⟩⟩) hstmt, hexecute]
  rw [← Nat.add_zero k, stepAt_from (Nat.le_of_lt hk) hbefore, stepAt_zero, hstep]

/-- As long as statements come to an end, each step yields. -/
theorem yields_of_take {k : Nat} {v : Value} {m' : Machine}
    (h : inOrder root fuel (program.body.take k) .null m = .done v m') (j : Nat) (hj : j < k)
    (hlength : j < program.body.length) : Execution.Yields fuel root program m j := by
  obtain ⟨u, before, hbefore, hrest⟩ := inOrder_take h j
  rw [List.take_take, Nat.min_eq_left (Nat.le_of_lt hj)] at hbefore
  have hhead : (program.body.take k).drop j = program.body[j] :: (program.body.take k).drop (j + 1) := by
    rw [List.drop_eq_getElem_cons (by rw [List.length_take]; omega), List.getElem_take]
  rw [hhead] at hrest
  obtain ⟨flow, after, hexecute, -⟩ := bind_done hrest
  exact yields_of_done (List.getElem?_eq_getElem hlength) hbefore hexecute

end Steps

section Runs

theorem admitted_nil (limit : Option Nat) (steps : Nat) : Execution.admitted limit steps [] = [] := by
  cases limit with
  | none => rfl
  | some k => exact List.take_nil

theorem admitted_reached {limit : Option Nat} {steps : Nat} (h : Execution.limitReached limit steps = true)
    (stmts : List Stmt) : Execution.admitted limit steps stmts = [] := by
  cases limit with
  | none => cases h
  | some k =>
    have hle : k ≤ steps := of_decide_eq_true h
    dsimp only [Execution.admitted]
    rw [Nat.sub_eq_zero_of_le hle, List.take_zero]

theorem admitted_cons {limit : Option Nat} {steps : Nat} (h : Execution.limitReached limit steps = false)
    (stmt : Stmt) (stmts : List Stmt) :
    Execution.admitted limit steps (stmt :: stmts) = stmt :: Execution.admitted limit (steps + 1) stmts := by
  cases limit with
  | none => rfl
  | some k =>
    have hlt : steps < k := Nat.lt_of_not_le (of_decide_eq_false h)
    obtain ⟨r, rfl⟩ := Nat.exists_eq_add_of_lt hlt
    dsimp only [Execution.admitted]
    rw [show steps + r + 1 - steps = r + 1 by omega, show steps + r + 1 - (steps + 1) = r by omega,
      List.take_succ_cons]

theorem isFinished_at {program : Program} {before stmts : List Stmt} (hbody : program.body = before ++ stmts)
    (v : Value) :
    (⟨program, root, ⟨before.length, v⟩⟩ : Execution).isFinished = stmts.isEmpty := by
  unfold Execution.isFinished Progress.isFinished
  dsimp only
  rw [hbody, List.length_append]
  cases stmts with
  | nil => exact decide_eq_true (Nat.le_refl _)
  | cons s ss =>
    refine decide_eq_false ?_
    rw [List.length_cons]
    omega

/-- A run within a limit on steps is the admitted statements in their order. Its value is null if there are
others. -/
theorem runWithin_eq {program : Program} (before : List Stmt) {stmts : List Stmt}
    (hbody : program.body = before ++ stmts) (limit : Option Nat) (steps : Nat) (v : Value) (m : Machine) :
    ((⟨program, root, ⟨before.length, v⟩⟩ : Execution).runWithin fuel limit (stmts.length + 1) steps m).2 =
      (inOrder root fuel (Execution.admitted limit steps stmts) v >>= fun w =>
        pure (if (Execution.admitted limit steps stmts).length < stmts.length then .null else w)) m := by
  induction stmts generalizing before steps v m with
  | nil =>
    unfold Execution.runWithin
    rw [isFinished_at hbody, List.isEmpty_nil, Bool.not_true, Bool.and_false, if_neg Bool.false_ne_true,
      Runs.step_none (body_end hbody), admitted_nil]
    rfl
  | cons stmt stmts ih =>
    unfold Execution.runWithin
    rw [isFinished_at hbody, List.isEmpty_cons, Bool.not_false, Bool.and_true]
    cases hlimit : Execution.limitReached limit steps with
    | true =>
      rw [if_pos rfl, admitted_reached hlimit]
      rfl
    | false =>
      rw [if_neg Bool.false_ne_true, Runs.step_some (body_at hbody), admitted_cons hlimit]
      dsimp only [inOrder]
      rw [bind_assoc, bind_eq]
      cases execute root fuel stmt m with
      | done flow m' =>
        have hnext := ih (before ++ [stmt]) (body_next hbody) (steps + 1) flow.value m'
        rw [List.length_append] at hnext
        simp only [List.length_cons, Nat.add_lt_add_iff_right]
        exact hnext
      | fault e m' => rfl
      | starved => rfl

/-- A run to the end is the statements in their order. -/
theorem finish_eq (program : Program) (m : Machine) :
    ((Execution.start program root).finish fuel m).2 = inOrder root fuel program.body .null m := by
  refine (runWithin_eq [] rfl none 0 .null m).trans ?_
  simp only [Execution.admitted, Nat.lt_irrefl, if_false, bind_pure]

/-- What comes before statements matters only if there are none. -/
theorem inOrder_last (stmts : List Stmt) (v : Value) :
    inOrder root fuel stmts v =
      inOrder root fuel stmts .null >>= fun w => pure (if stmts.isEmpty then v else w) := by
  cases stmts with
  | nil => rfl
  | cons stmt stmts => exact (bind_pure _).symm

end Runs

/-- Stepping takes a run apart into its statements. If none of them faults, each step executes the next
statement and yields, and all later steps give the value of the last one and change nothing. If one faults,
its step gives the fault and moves to the end, and all later steps give null and change nothing. A run to the
end is the statements in their order, so that two programs in one run like one after the other, with the value
of the second unless it is empty. -/
theorem stepping_takes_runs_apart (fuel root : Nat) (m : Machine) :
    (∀ (program : Program) (v : Value) (m' : Machine), inOrder root fuel program.body .null m = .done v m' →
      (∀ k, k < program.body.length → Execution.Yields fuel root program m k) ∧
      ∀ k, program.body.length ≤ k → (Execution.start program root).stepAt fuel k m =
        some (⟨program, root, ⟨program.body.length, v⟩⟩, .done (.finished v) m')) ∧
    (∀ (program : Program) (k : Nat) (stmt : Stmt) (v : Value) (before m' : Machine) (e : Fault),
      program.body[k]? = some stmt → inOrder root fuel (program.body.take k) .null m = .done v before →
      execute root fuel stmt before = .fault e m' →
      (∀ j, j < k → Execution.Yields fuel root program m j) ∧
      (Execution.start program root).stepAt fuel k m =
        some (⟨program, root, ⟨program.body.length, .null⟩⟩, .fault e m') ∧
      ∀ j, k < j → (Execution.start program root).stepAt fuel j m =
        some (⟨program, root, ⟨program.body.length, .null⟩⟩, .done (.finished .null) m')) ∧
    (∀ program : Program,
      ((Execution.start program root).finish fuel m).2 = inOrder root fuel program.body .null m) ∧
    ∀ p q : Program, ((Execution.start (p.append q) root).finish fuel m).2 = Action.run (do
      let v ← fun m => ((Execution.start p root).finish fuel m).2
      let w ← fun m => ((Execution.start q root).finish fuel m).2
      return if q.body.isEmpty then v else w) m := by
  refine ⟨fun program v m' hend => ?_, fun program k stmt v before m' e hstmt hbefore hfault => ?_,
    fun program => finish_eq program m, fun p q => ?_⟩
  · have hall : inOrder root fuel (program.body.take program.body.length) .null m = .done v m' := by
      rwa [List.take_length]
    refine ⟨fun k hk => yields_of_take hall k hk hk, fun k hk => ?_⟩
    obtain ⟨j, rfl⟩ := Nat.exists_eq_add_of_le hk
    rw [stepAt_from (Nat.le_refl _) hall]
    exact stepAt_finished (List.getElem?_eq_none (Nat.le_refl _)) j
  · have hk : k < program.body.length := (List.getElem?_eq_some_iff.mp hstmt).1
    have hstep : (⟨program, root, ⟨k, v⟩⟩ : Execution).step fuel before =
        (⟨program, root, ⟨program.body.length, .null⟩⟩, .fault e m') := by
      rw [Runs.step_some (e := ⟨program, root, ⟨k, v⟩⟩) hstmt, hfault]
    have hfrom (j : Nat) := stepAt_from (j := j) (Nat.le_of_lt hk) hbefore
    refine ⟨fun j hj => yields_of_take hbefore j hj (Nat.lt_trans hj hk), ?_, fun j hj => ?_⟩
    · exact (hfrom 0).trans ((stepAt_zero _ _).trans (congrArg some hstep))
    · obtain ⟨i, rfl⟩ := Nat.exists_eq_add_of_lt hj
      rw [Nat.add_assoc, hfrom, stepAt_fault hstep]
      exact stepAt_finished (List.getElem?_eq_none (Nat.le_refl _)) i
  · simp only [finish_eq]
    dsimp only [Program.append, Action.run]
    rw [inOrder_append]
    exact congrArg (fun next => (inOrder root fuel p.body .null >>= next) m)
      (funext fun v => inOrder_last q.body v)

/-- A machine with one empty frame. -/
def oneFrame : Machine where
  store := (Store.empty.addFrame none).2
  output := .empty
  schedule := .idle
  random := .ofSeed 0
  depth := 0
  limit := defaultCallLimit

/-- A program whose second statement faults. -/
def faultsSecond : Program where
  body := [.varDecl "a" false (.text "b"), .expr (.identifier "c"), .expr (.assign "a" (.text "d"))]

theorem stepping_takes_runs_apart_faultsSecond : ∃ m',
    Execution.Yields 3 0 faultsSecond oneFrame 0 ∧
    (Execution.start faultsSecond 0).stepAt 3 1 oneFrame =
      some (⟨faultsSecond, 0, ⟨3, .null⟩⟩, .fault (.undeclared "c") m') ∧
    (Execution.start faultsSecond 0).stepAt 3 2 oneFrame =
      some (⟨faultsSecond, 0, ⟨3, .null⟩⟩, .done (.finished .null) m') := by
  obtain ⟨hbefore, hfault, hafter⟩ :=
    (stepping_takes_runs_apart 3 0 oneFrame).2.1 faultsSecond 1 _ _ _ _ _ rfl rfl rfl
  exact ⟨_, hbefore 0 (by decide), hfault, hafter 2 (by decide)⟩

end Proofs.Stepping

end Scriptlet
