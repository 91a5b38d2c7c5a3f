import Scriptlet.Proofs.CallDepth
import Scriptlet.Proofs.Installation
import Scriptlet.Proofs.StoredCode

namespace Scriptlet

mutual

/-- How many tasks deep the evaluator goes below an expression, calls aside. -/
def Expr.levels : Expr → Nat
  | .number _ | .text _ | .identifier _ => 0
  | .array es => 1 + Expr.levelsOfList es
  | .object ps => 1 + Property.levelsOfList ps
  | .assign _ value => 1 + value.levels
  | .call callee arguments => 1 + max callee.levels (Expr.levelsOfList arguments)
  | .member object key _ none => 1 + max object.levels (1 + key.levels)
  | .member object key _ (some value) => 1 + max (max object.levels (1 + key.levels)) value.levels
  | .boolean left _ right => 1 + max left.levels right.levels
  | .binary left _ right => 1 + max left.levels right.levels
  | .logical left _ _ right => 1 + max left.levels right.levels
  | .not operand => 1 + operand.levels

/-- The levels below a list of expressions, one for each of them. -/
def Expr.levelsOfList : List Expr → Nat
  | [] => 0
  | e :: es => 1 + max e.levels (Expr.levelsOfList es)

/-- The levels below the value of an entry; a bare key has none. -/
def Property.levels : Property → Nat
  | .shorthand _ => 0
  | .valued _ value => value.levels

/-- The levels below a list of entries, one for each of them. -/
def Property.levelsOfList : List Property → Nat
  | [] => 0
  | p :: ps => 1 + max p.levels (Property.levelsOfList ps)

end

mutual

/-- The levels below a statement. Those of a function are below its declaration; a loop has them anew in every
turn. -/
def Stmt.levels : Stmt → Nat
  | .structDecl .. => 0
  | .fnDecl _ _ body => Stmt.levelsOfList body
  | .ret value => 1 + value.levels
  | .ifThen test body => 1 + max test.levels (Stmt.levelsOfList body)
  | .whileDo test body => 1 + max test.levels (Stmt.levelsOfList body)
  | .varDecl _ _ value => 1 + value.levels
  | .expr value => 1 + value.levels

/-- The levels below a list of statements, one for each of them. -/
def Stmt.levelsOfList : List Stmt → Nat
  | [] => 0
  | s :: ss => 1 + max s.levels (Stmt.levelsOfList ss)

end

mutual

/-- Whether no loop occurs in a statement, function bodies included. -/
def Stmt.loopFree : Stmt → Bool
  | .whileDo .. => false
  | .fnDecl _ _ body => Stmt.loopFreeList body
  | .ifThen _ consequent => Stmt.loopFreeList consequent
  | .structDecl .. | .ret _ | .varDecl .. | .expr _ => true

/-- Whether no loop occurs in some statements. -/
def Stmt.loopFreeList : List Stmt → Bool
  | [] => true
  | s :: ss => s.loopFree && Stmt.loopFreeList ss

end

namespace Program

/-- The levels below the body of a program. -/
def levels (p : Program) : Nat :=
  Stmt.levelsOfList p.body

/-- Whether no loop occurs in a program. -/
def loopFree (p : Program) : Bool :=
  Stmt.loopFreeList p.body

end Program

namespace Task

/-- Whether no loop occurs in the code of a task. -/
def loopFree : Task → Bool
  | .execute _ stmt => stmt.loopFree
  | .executeBlock _ stmts | .executeAll _ stmts | .executeBody _ stmts => Stmt.loopFreeList stmts
  | .loop .. => false
  | .eval .. | .evalAll .. | .evalProperties .. | .evalKey .. | .call .. => true

/-- The levels below a task. A call has none: those of the function are not its own. -/
def levels : Task → Nat
  | .eval _ e => e.levels
  | .evalAll _ es => Expr.levelsOfList es
  | .evalProperties _ ps => Property.levelsOfList ps
  | .evalKey _ e _ => 1 + e.levels
  | .execute _ stmt => stmt.levels
  | .executeBlock _ stmts | .executeAll _ stmts | .executeBody _ stmts => Stmt.levelsOfList stmts
  | .loop _ test body => max test.levels (Stmt.levelsOfList body)
  | .call .. => 0

/-- A task without loops and with at most `n` levels below it. -/
def Fits (n : Nat) (t : Task) : Prop :=
  t.loopFree = true ∧ t.levels ≤ n

end Task

/-- With every bound from `n` on, an action comes to the same end, on machine `m'`. -/
def Action.EndsWithin {α : Type} (n : Nat) (x : Nat → Action α) (m m' : Machine) : Prop :=
  ∃ o, o.machine? = some m' ∧ ∀ fuel, n ≤ fuel → x fuel m = o

/-- What can become of a machine after a run: values are called, with the count of calls that is left or with
another one, and the clock moves. -/
inductive Machine.Later (m : Machine) : Machine → Prop where
  | refl : m.Later m
  | call {m' m'' : Machine} (fuel : Nat) (f : Value) (arguments : List Value) (h : m.Later m')
      (hcall : (Machine.call fuel f arguments m').machine? = some m'') : m.Later m''
  | recount {m' : Machine} (depth limit : Nat) (h : m.Later m') : m.Later (m'.recount depth limit)
  | schedule {m' : Machine} (schedule : Schedule) (h : m.Later m') : m.Later { m' with schedule }

namespace Proofs.Termination
open Machine Plans PlainActions OwnActions Parts StoredCode

/-- The parts of a task without loops have fewer levels below them, and no loops either. -/
theorem part_lower {size : Nat} {t t' : Task} (h : t.Part size t') (hfree : t.loopFree = true) :
    t'.loopFree = true ∧ t'.levels < t.levels := by
  cases h with
  | @target frame object key computed assignment =>
    cases assignment <;> grind [Task.loopFree, Task.levels, Expr.levels]
  | @key frame object key computed assignment =>
    cases assignment <;> grind [Task.loopFree, Task.levels, Expr.levels]
  | _ =>
    grind [Task.loopFree, Stmt.loopFree, Stmt.loopFreeList, Task.levels, Expr.levels, Expr.levelsOfList,
      Property.levels, Property.levelsOfList, Stmt.levels, Stmt.levelsOfList]

theorem fits_inherited (n : Nat) : Task.Inherited (Task.Fits n) where
  parts ht h := by
    obtain ⟨hfree, hlevels⟩ := part_lower h ht.1
    exact ⟨hfree, Nat.le_trans (Nat.le_of_lt hlevels) ht.2⟩
  body h inner := h

/-- Where a bound does not suffice for a task, it does not suffice for one that it comes to. -/
theorem invokes_starved {n : Nat} {t : Task} {m : Machine} (h : (t.run (n + 1) m).ending = .starved) :
    ∃ t' m', t.Invokes n m t' m' ∧ (t'.run n m').ending = .starved := by
  rw [Tasks.run_succ] at h
  exact invokes_of_ending Ending.noConfusion (fun _ => Ending.noConfusion)
    (fun f vs => avoids_of_proper (proper_enterFunction f vs) rfl)
    (acts_mono (fun h => own_avoids h rfl fun _ _ _ => Ending.noConfusion) (own_plan t)) h

/-- Tasks that a task comes to, counted in levels and in calls that are left. -/
theorem invokes_lower {n size : Nat} {t t' : Task} {m m' : Machine} (ht : t.Fits size) (ht' : t'.Fits size)
    (h : t.Invokes n m t' m') :
    t'.levels + (m'.limit - m'.depth) * (size + 1) < t.levels + (m.limit - m.depth) * (size + 1) := by
  obtain ⟨hlimit, ⟨hpart, hdepth⟩ | ⟨_, hroom, hdepth⟩⟩ := invokes_parts h
  · rw [hlimit, hdepth]
    exact Nat.add_lt_add_right (part_lower hpart ht.1).2 _
  · -- one call fewer is left, which outweighs the levels of any body
    have hleft : m.limit - m.depth = m'.limit - m'.depth + 1 := by omega
    have hbody := ht'.2
    rw [hleft, Nat.add_mul (m'.limit - m'.depth) 1 (size + 1)]
    omega

/-- A bound above the levels of a task and of all calls that are left suffices for it. -/
theorem run_ends {n size : Nat} {t : Task} {m : Machine} (ht : t.Fits size)
    (hm : m.store.Holds (Task.Fits size))
    (hn : t.levels + (m.limit - m.depth) * (size + 1) < n) : (t.run n m).ending ≠ .starved := by
  induction n generalizing t m with
  | zero => omega
  | succ n ih =>
    intro hend
    obtain ⟨t', m', hinvokes, hend'⟩ := invokes_starved hend
    obtain ⟨ht', hm'⟩ := invokes_holds (fits_inherited size) ht hm hinvokes
    have hlower := invokes_lower ht ht' hinvokes
    exact ih ht' hm' (by omega) hend'

theorem leaves_machine {α : Type} {P : Store → Prop} {o : Outcome α} {m : Machine} (ho : o.Leaves P)
    (h : o.machine? = some m) : P m.store := by
  cases o with
  | done a m' =>
    cases h
    exact ho
  | fault e m' =>
    cases h
    exact ho
  | starved => cases h

theorem exists_machine {α : Type} {o : Outcome α} (h : o.ending ≠ .starved) : ∃ m, o.machine? = some m := by
  cases o with
  | done a m => exact ⟨m, rfl⟩
  | fault e m => exact ⟨m, rfl⟩
  | starved => exact (h rfl).elim

theorem runs_machine {α : Type} {o : Outcome α} {m m' : Machine} (ho : o.RunFrom m)
    (h : o.machine? = some m') : m.Runs m' := by
  cases o with
  | done a m' =>
    cases h
    exact ho
  | fault e m' =>
    cases h
    exact ho
  | starved => cases h

/-- A task without loops ends, and leaves nothing but such code behind. -/
theorem task_ends {size : Nat} {t : Task} {m : Machine} (ht : t.Fits size)
    (hm : m.store.Holds (Task.Fits size)) :
    ∃ m', Action.EndsWithin ((m.limit + 1) * (size + 1)) (fun fuel => t.run fuel) m m' ∧
      m'.store.Holds (Task.Fits size) ∧ m'.limit = m.limit := by
  have hbound : t.levels + (m.limit - m.depth) * (size + 1) < (m.limit + 1) * (size + 1) := by
    have hlevels := ht.2
    have hcalls := Nat.mul_le_mul_right (size + 1) (Nat.sub_le m.limit m.depth)
    rw [Nat.add_mul m.limit 1]
    omega
  have hends := run_ends ht hm hbound
  obtain ⟨m', hm'⟩ := exists_machine hends
  refine ⟨m', ⟨_, hm', fun fuel hfuel => ?_⟩, ?_, ?_⟩
  · exact run_eq_of_le hfuel t fun hstarved => hends (by rw [hstarved]; rfl)
  · exact leaves_machine (runs_keep (fits_inherited size) _ t m ht hm) hm'
  · exact (runs_depth (runs_machine (runs_run _ t m) hm')).2

theorem fits_of_mem {stmts : List Stmt} (h : Stmt.loopFreeList stmts = true) {stmt : Stmt}
    (hmem : stmt ∈ stmts) (frame : Nat) : (Task.execute frame stmt).Fits (Stmt.levelsOfList stmts) := by
  induction stmts with
  | nil => cases hmem
  | cons s ss ih =>
    obtain ⟨hs, hss⟩ := Bool.and_eq_true_iff.mp h
    rcases List.mem_cons.mp hmem with rfl | hrest
    · exact ⟨hs, Nat.le_trans (Nat.le_max_left _ _) (Nat.le_add_left _ 1)⟩
    · obtain ⟨hfree, hlevels⟩ := ih hss hrest
      exact ⟨hfree, Nat.le_trans hlevels (Nat.le_trans (Nat.le_max_right _ _) (Nat.le_add_left _ 1))⟩

/-- A run without loops ends. The induction is on the statements that are left. -/
theorem runWithin_ends {e : Execution} {n size : Nat} (hfree : e.program.loopFree = true)
    (hsize : e.program.levels = size) (hposition : e.progress.position ≤ e.program.body.length)
    (hn : e.program.body.length < e.progress.position + n) (steps : Nat) {m : Machine}
    (hm : m.store.Holds (Task.Fits size)) :
    ∃ m', Action.EndsWithin ((m.limit + 1) * (size + 1))
    (fun fuel m => (e.runWithin fuel none n steps m).2) m m' ∧
      m'.store.Holds (Task.Fits size) := by
  induction n generalizing e steps m with
  | zero => omega
  | succ n ih =>
    simp only [Action.EndsWithin, Execution.runWithin, Execution.limitReached, Bool.false_and,
      Bool.false_eq_true, if_false]
    cases hstmt : e.program.body[e.progress.position]? with
    | none =>
      simp only [Runs.step_none hstmt]
      exact ⟨m, ⟨_, rfl, fun _ _ => rfl⟩, hm⟩
    | some stmt =>
      obtain ⟨hlt, hget⟩ := List.getElem?_eq_some_iff.mp hstmt
      have hfits : (Task.execute e.root stmt).Fits size :=
        hsize ▸ fits_of_mem hfree (hget ▸ List.getElem_mem hlt) e.root
      obtain ⟨m₁, ⟨o, ho, hends⟩, hm₁, hlimit⟩ := task_ends hfits hm
      cases o with
      | starved => cases ho
      | fault c m' =>
        cases ho
        refine ⟨m₁, ⟨.fault c m₁, rfl, fun fuel hfuel => ?_⟩, hm₁⟩
        have hend : Machine.execute e.root fuel stmt m = .fault c m₁ := hends fuel hfuel
        simp only [Runs.step_some hstmt, hend]
      | done flow m' =>
        cases ho
        obtain ⟨m₂, ⟨o₂, ho₂, hends₂⟩, hm₂⟩ :=
          ih (e := { e with progress := ⟨e.progress.position + 1, flow.value⟩ }) hfree hsize hlt
            (by simp only; omega) (steps + 1) hm₁
        refine ⟨m₂, ⟨o₂, ho₂, fun fuel hfuel => ?_⟩, hm₂⟩
        have hend : Machine.execute e.root fuel stmt m = .done flow m₁ := hends fuel hfuel
        simp only [Runs.step_some hstmt, hend]
        exact hends₂ fuel (by rw [hlimit]; exact hfuel)

theorem later_holds {size : Nat} {m m' : Machine} (hm : m.store.Holds (Task.Fits size)) (h : m.Later m') :
    m'.store.Holds (Task.Fits size) := by
  induction h with
  | refl => exact hm
  | call fuel f vs _ hcall ih =>
    have hfits : (Task.call f vs).Fits size := ⟨rfl, Nat.zero_le size⟩
    exact leaves_machine (runs_keep (fits_inherited size) fuel (.call f vs) _ hfits ih) hcall
  | recount depth limit _ ih => exact ih
  | schedule schedule _ ih => exact ih

/-- A program without loops ends, whatever it calls and however often calls may be nested. So does every call
of any value on what the run and earlier calls have left behind. The bound is on how deep the evaluator
goes. -/
theorem loopFree_ends (h : Host) (program : Program) (hfree : program.loopFree = true) :
    ∃ installed, Toolbox.standard.install Host.root h.machine = .done () installed ∧
    ∃ ended, Action.EndsWithin ((h.settings.maxCallDepth + 1) * (program.levels + 1))
        (fun fuel m => ((Execution.start program Host.root).finish fuel m).2) installed ended ∧
      ∀ later, ended.Later later → ∀ f arguments, ∃ m',
        Action.EndsWithin ((later.limit + 1) * (program.levels + 1))
          (fun fuel => Machine.call fuel f arguments) later m' := by
  obtain ⟨installed, hinstall, hfunctions, _, hlimit⟩ := Installation.host_installs h
  have hm : installed.store.Holds (Task.Fits program.levels) := by
    intro ref f hf
    rw [hfunctions] at hf
    cases hf
  obtain ⟨ended, hends, hended⟩ :=
    runWithin_ends (e := .start program Host.root) (n := program.body.length + 1)
    hfree rfl (Nat.zero_le _) (by simp [Execution.start, Progress.start]) 0 hm
  refine ⟨installed, hinstall, ended, hlimit ▸ hends, fun later hlater f vs => ?_⟩
  have hfits : (Task.call f vs).Fits program.levels := ⟨rfl, Nat.zero_le _⟩
  obtain ⟨m', hcall, _⟩ := task_ends hfits (later_holds hended hlater)
  exact ⟨m', hcall⟩

/-- A function that calls its argument with itself, and is called with itself. -/
def selfApplication : Program where
  body :=
    [.fnDecl "f" ["g"] [.ret (.call (.identifier "g") [.identifier "g"])],
      .expr (.call (.identifier "f") [.identifier "f"])]

theorem loopFree_ends_selfApplication : selfApplication.loopFree = true ∧
    ∃ installed, Toolbox.standard.install Host.root (Host.new .default).machine = .done () installed ∧
    ∃ ended, Action.EndsWithin (101 * 6)
        (fun fuel m => ((Execution.start selfApplication Host.root).finish fuel m).2) installed ended ∧
      ∀ later, ended.Later later → ∀ f arguments, ∃ m',
        Action.EndsWithin ((later.limit + 1) * 6) (fun fuel => Machine.call fuel f arguments) later m' :=
  ⟨rfl, loopFree_ends (Host.new .default) selfApplication rfl⟩

end Proofs.Termination

end Scriptlet
