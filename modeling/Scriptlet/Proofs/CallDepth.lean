import Scriptlet.Proofs.Parts

namespace Scriptlet

/-- Outcomes with the given count of calls, whether there is a value or a fault. -/
def Outcome.DepthIs {α : Type} (depth : Nat) : Outcome α → Prop
  | .done _ m => m.depth = depth
  | .fault _ m => m.depth = depth
  | .starved => True

/-- A machine with another count and limit of calls. -/
def Machine.recount (m : Machine) (depth limit : Nat) : Machine :=
  { m with depth := depth, limit := limit }

/-- An outcome on a machine with another count and limit of calls. -/
def Outcome.recount {α : Type} (depth limit : Nat) : Outcome α → Outcome α
  | .done a m => .done a (m.recount depth limit)
  | .fault e m => .fault e (m.recount depth limit)
  | .starved => .starved

/-- The first `n` steps that `next` makes, each with how it ended and what it led to. A fault does not keep
the driver from going on; a step without an end does. -/
def Step.trail {σ : Type} (next : σ → Machine → σ × Outcome Step) :
    Nat → σ → Machine → List (σ × Outcome Step)
  | 0, _, _ => []
  | n + 1, s, m =>
    match next s m with
    | (s', .done step m') => (s', .done step m') :: trail next n s' m'
    | (s', .fault e m') => (s', .fault e m') :: trail next n s' m'
    | (s', .starved) => [(s', .starved)]

namespace Proofs.CallDepth
open Machine Plans Parts

variable {α : Type}

/-- While a task is done, the count stays below the limit, or where it already was. -/
theorem reaches_depth {S : Task → Prop} {n : Nat} {t t' : Task} {m m' : Machine}
    (h : Task.Reaches S n t m t' m') : m'.limit = m.limit ∧ m'.depth ≤ max m.depth m.limit := by
  induction h with
  | refl n t m => exact ⟨rfl, Nat.le_max_left _ _⟩
  | step h _ _ ih =>
    obtain ⟨hend, hrest⟩ := ih
    obtain ⟨hlimit, ⟨_, hdepth⟩ | ⟨_, hroom, hdepth⟩⟩ := invokes_parts h
    · exact ⟨hend.trans hlimit, by omega⟩
    · exact ⟨hend.trans hlimit, by omega⟩

theorem depthIs_of_runFrom {m : Machine} {o : Outcome α} (h : o.RunFrom m) : o.DepthIs m.depth := by
  cases o with
  | done a m' => exact (runs_depth h).1
  | fault e m' => exact (runs_depth h).1
  | starved => trivial

theorem recount_self {m : Machine} {depth limit : Nat} (hdepth : m.depth = depth) (hlimit : m.limit = limit) :
    m.recount depth limit = m := by
  subst hdepth hlimit
  rfl

/-- After a step that began with a new count, the machine is as a new count finds it. -/
theorem recount_of_runs {m m' : Machine} {depth limit : Nat} (h : (m.recount depth limit).Runs m')
    (d l : Nat) : (m'.recount d l).recount depth limit = m' :=
  recount_self (runs_depth h).1 (runs_depth h).2

theorem advanceAfresh_eq (fuel : Nat) (program : Program) (root : Nat) (p : Progress) (m : Machine) :
    p.advanceAfresh fuel program root m =
      (p.advance fuel program root (m.recount 0 defaultCallLimit)).map id
        (Outcome.recount m.depth m.limit) := by
  unfold Progress.advanceAfresh Machine.recount
  cases p.advance fuel program root { m with depth := 0, limit := defaultCallLimit } with
  | mk p' o => cases o <;> rfl

theorem step_eq (fuel : Nat) (e : Execution) (m : Machine) :
    e.step fuel m = (e.progress.advance fuel e.program e.root m).map ({ e with progress := · }) id :=
  rfl

/-- A count that is kept is back to nothing after every step, as a new one would be. -/
theorem trail_afresh (fuel n : Nat) (e : Execution) (m : Machine) :
    Step.trail (Progress.advanceAfresh fuel e.program e.root) n e.progress m =
      (Step.trail (Execution.step fuel) n e (m.recount 0 defaultCallLimit)).map
        (Prod.map Execution.progress (Outcome.recount m.depth m.limit)) := by
  induction n generalizing e m with
  | zero => rfl
  | succ n ih =>
    have hruns := Runs.runFrom_step fuel e (m.recount 0 defaultCallLimit)
    simp only [Step.trail, advanceAfresh_eq, step_eq] at hruns ⊢
    cases hend : e.progress.advance fuel e.program e.root (m.recount 0 defaultCallLimit) with
    | mk p o =>
      rw [hend] at hruns
      cases o with
      | done s m' =>
        have hnext := ih { e with progress := p } (m'.recount m.depth m.limit)
        rw [recount_of_runs hruns] at hnext
        exact congrArg _ hnext
      | fault c m' =>
        have hnext := ih { e with progress := p } (m'.recount m.depth m.limit)
        rw [recount_of_runs hruns] at hnext
        exact congrArg _ hnext
      | starved => rfl

/-- The count of calls is exact. After any task it is what it was before, and no task that is begun on the
way finds it above the limit. Driving a program with one count that is kept and with a new one for every
step then gives the same results, positions and machines, also after faults. -/
theorem call_count_exact (fuel : Nat) (m : Machine) :
    (∀ t : Task, (t.run fuel m).DepthIs m.depth) ∧
    (∀ (t t' : Task) (m' : Machine), Task.Reaches (fun _ => True) fuel t m t' m' →
      m'.depth ≤ max m.depth m.limit) ∧
    ∀ (program : Program) (root n : Nat),
      Step.trail (Progress.advanceAfresh fuel program root) n .start m =
        (Step.trail (Execution.step fuel) n (.start program root) (m.recount 0 defaultCallLimit)).map
          (Prod.map Execution.progress (Outcome.recount m.depth m.limit)) := by
  refine ⟨fun t => ?_, fun t t' m' h => ?_, fun program root n => ?_⟩
  · exact depthIs_of_runFrom (runs_run fuel t m)
  · exact (reaches_depth h).2
  · exact trail_afresh fuel n (.start program root) m

/-- A machine with room for one call, and a function that calls itself. -/
def roomForOne : Machine where
  store := { Store.empty with
    frames := #[⟨none, [("f", ⟨.function 0, true⟩)]⟩]
    functions := #[⟨"f", [], [.ret (.call (.identifier "f") [])], 0⟩] }
  output := .empty
  schedule := .idle
  random := .ofSeed 0
  depth := 0
  limit := 1

theorem call_count_exact_roomForOne : ∃ m', m'.depth = 1 ∧
    Task.Reaches (fun _ => True) 4 (.call (.function 0) []) roomForOne (.call (.function 0) []) m' ∧
    m'.depth ≤ max roomForOne.depth roomForOne.limit := by
  have hreach : Task.Reaches (fun _ => True) 4 (.call (.function 0) []) roomForOne
      (.call (.function 0) []) _ :=
    .step (.body rfl (by decide) rfl) trivial <|
      .step (.here ..) trivial <|
        .step (.after rfl (.after rfl (.here ..))) trivial (.refl ..)
  exact ⟨_, rfl, hreach, (call_count_exact 4 roomForOne).2.1 _ _ _ hreach⟩

end Proofs.CallDepth

end Scriptlet
