import Scriptlet.Proofs.Tasks

namespace Scriptlet

/-- How an action ended, without its value and its machine. -/
inductive Ending where
  | done
  | fault (cause : Fault)
  | starved

def Outcome.ending {α : Type} : Outcome α → Ending
  | .done .. => .done
  | .fault e _ => .fault e
  | .starved => .starved

/-- The machine that an outcome leaves behind, whether there is a value or a fault. -/
def Outcome.machine? {α : Type} : Outcome α → Option Machine
  | .done _ m => some m
  | .fault _ m => some m
  | .starved => none

/-- Outcomes that leave such a store behind, whether there is a value or a fault. -/
def Outcome.Leaves {α : Type} (P : Store → Prop) : Outcome α → Prop
  | .done _ m => P m.store
  | .fault _ m => P m.store
  | .starved => True

theorem Outcome.Leaves.mono {α : Type} {P Q : Store → Prop} (h : ∀ s, P s → Q s) {o : Outcome α}
    (ho : o.Leaves P) : o.Leaves Q := by
  cases o with
  | done a m => exact h m.store ho
  | fault e m => exact h m.store ho
  | starved => trivial

theorem Outcome.Leaves.of_done {α : Type} {P : Store → Prop} {o : Outcome α} {a : α} {m : Machine}
    (ho : o.Leaves P) (h : o = .done a m) : P m.store := by
  rw [h] at ho
  exact ho

namespace Action

/-- An action that never ends in one way. -/
def Avoids {α : Type} (g : Ending) (x : Action α) : Prop :=
  ∀ m, (x m).ending ≠ g

/-- An action that leaves a store related to the one it found. -/
def Keeps {α : Type} (R : Store → Store → Prop) (x : Action α) : Prop :=
  ∀ m, (x m).Leaves (R m.store)

/-- An action that does what another one does, where it ends at all. -/
def Below {α : Type} (x y : Action α) : Prop :=
  ∀ m, x m = .starved ∨ y m = x m

end Action

namespace Plan

variable {α : Type}

/-- Every action of the plan's own satisfies `P`, whatever values come up. -/
def Acts (P : {β : Type} → Action β → Prop) : Plan α → Prop
  | done _ => True
  | act x next => P x ∧ ∀ a, (next a).Acts P
  | task _ next => ∀ a, (next a).Acts P
  | function _ _ next => ∀ v, (next v).Acts P

/-- A plan that begins on one machine comes to a task on another. The body of a called function is the
only task that a plan does not name. -/
inductive Invokes (run : (t : Task) → Action t.Result) : Plan α → Machine → Task → Machine → Prop where
  | act {β : Type} {x : Action β} {next : β → Plan α} {m m₁ m' : Machine} {a : β} {t : Task}
      (hx : x m = .done a m₁) (h : (next a).Invokes run m₁ t m') : (act x next).Invokes run m t m'
  | here (t : Task) (next : t.Result → Plan α) (m : Machine) : (task t next).Invokes run m t m
  | after {s t : Task} {next : s.Result → Plan α} {m m₁ m' : Machine} {a : s.Result}
      (hs : run s m = .done a m₁) (h : (next a).Invokes run m₁ t m') : (task s next).Invokes run m t m'
  | body {ref frame : Nat} {vs : List Value} {next : Value → Plan α} {m m' : Machine} {f : Function}
      (hf : m.store.functions[ref]? = some f) (hroom : m.depth < m.limit)
      (henter : Machine.enterFunction f vs { m with depth := m.depth + 1 } = .done frame m') :
      (function ref vs next).Invokes run m (.executeBody frame f.body) m'
  | afterCall {ref : Nat} {vs : List Value} {next : Value → Plan α} {m m₁ m' : Machine} {v : Value}
      {t : Task} (hcall : Machine.callFunction (fun frame stmts => run (.executeBody frame stmts)) ref vs m =
        .done v m₁) (h : (next v).Invokes run m₁ t m') : (function ref vs next).Invokes run m t m'

end Plan

/-- Whether a task is to run a function, or the rest of one. -/
def Task.isBody : Task → Bool
  | .executeBody .. => true
  | _ => false

/-- A task with a bound of `n + 1` comes to another one, for which the bound is `n`. -/
def Task.Invokes (n : Nat) (t : Task) (m : Machine) (t' : Task) (m' : Machine) : Prop :=
  t.plan.Invokes (Task.run n) m t' m'

/-- While a task is done within a bound, another one begins; in between are only tasks in `S`. -/
inductive Task.Reaches (S : Task → Prop) : Nat → Task → Machine → Task → Machine → Prop where
  | refl (n : Nat) (t : Task) (m : Machine) : Reaches S n t m t m
  | step {n : Nat} {t t' t'' : Task} {m m' m'' : Machine} (h : t.Invokes n m t' m') (hS : S t')
      (hrest : Reaches S n t' m' t'' m'') : Reaches S (n + 1) t m t'' m''

namespace Proofs.Plans
open Machine Tasks

variable {α β : Type} {run : (t : Task) → Action t.Result}

theorem run_zero (t : Task) : t.run 0 = Action.starve := by
  cases t <;> rfl

theorem bind_eq (x : Action α) (f : α → Action β) (m : Machine) : (x >>= f) m =
    match x m with
    | .done a m' => f a m'
    | .fault e m' => .fault e m'
    | .starved => .starved :=
  rfl

theorem allocate_bind (f : Store → α × Store) (g : α → Action β) (m : Machine) :
    (Action.allocate f >>= g) m = g (f m.store).1 { m with store := (f m.store).2 } :=
  rfl

theorem bind_done {x : Action α} {f : α → Action β} {m m' : Machine} {b : β} (h : (x >>= f) m = .done b m') :
    ∃ a m₁, x m = .done a m₁ ∧ f a m₁ = .done b m' := by
  rw [bind_eq] at h
  cases hx : x m with
  | done a m₁ =>
    rw [hx] at h
    exact ⟨a, m₁, rfl, h⟩
  | fault e m₁ =>
    rw [hx] at h
    cases h
  | starved =>
    rw [hx] at h
    cases h

theorem callFunction_eq (body : Nat → List Stmt → Action Value) (ref : Nat) (vs : List Value) (m : Machine) :
    callFunction body ref vs m =
      match m.store.functions[ref]? with
      | none => .done .null m
      | some f =>
        if m.limit ≤ m.depth then .fault (.callDepthExceeded m.limit) m
        else endCall (enterFunction f vs >>= fun frame => body frame f.body)
          { m with depth := m.depth + 1 } := by
  unfold callFunction
  rw [bind_eq]
  dsimp only [Action.look]
  cases m.store.functions[ref]? with
  | none => rfl
  | some f =>
    dsimp only
    rw [bind_eq, Runs.beginCall_eq]
    by_cases hfull : m.limit ≤ m.depth
    · rw [if_pos hfull, if_pos hfull]
    · rw [if_neg hfull, if_neg hfull]

theorem ending_bind {x : Action α} {f : α → Action β} {m : Machine} {g : Ending}
    (h : ((x >>= f) m).ending = g) :
    (x m).ending = g ∨ ∃ a m', x m = .done a m' ∧ (f a m').ending = g := by
  rw [bind_eq] at h
  cases hx : x m with
  | done a m' =>
    rw [hx] at h
    exact .inr ⟨a, m', rfl, h⟩
  | fault e m' =>
    rw [hx] at h
    exact .inl h
  | starved =>
    rw [hx] at h
    exact .inl h

theorem ending_endCall (x : Action α) (m : Machine) : (endCall x m).ending = (x m).ending := by
  unfold endCall
  cases x m <;> rfl

/-- A call of a function ends like its body, where neither the limit nor the parameters end it. -/
theorem ending_callFunction {body : Nat → List Stmt → Action Value} {ref : Nat} {vs : List Value}
    {m : Machine} {g : Ending} (hg : g ≠ .done) (hlimit : ∀ l, g ≠ .fault (.callDepthExceeded l))
    (henter : ∀ f vs, (enterFunction f vs).Avoids g) (h : (callFunction body ref vs m).ending = g) :
    ∃ f frame m', m.store.functions[ref]? = some f ∧ m.depth < m.limit ∧
      enterFunction f vs { m with depth := m.depth + 1 } = .done frame m' ∧
      (body frame f.body m').ending = g := by
  rw [callFunction_eq] at h
  cases hf : m.store.functions[ref]? with
  | none =>
    rw [hf] at h
    exact (hg h.symm).elim
  | some f =>
    rw [hf] at h
    dsimp only at h
    by_cases hfull : m.limit ≤ m.depth
    · rw [if_pos hfull] at h
      exact (hlimit _ h.symm).elim
    · rw [if_neg hfull, ending_endCall] at h
      rcases ending_bind h with hentry | ⟨frame, m', hentry, hbody⟩
      · exact (henter f vs _ hentry).elim
      · exact ⟨f, frame, m', rfl, Nat.lt_of_not_le hfull, hentry, hbody⟩

/-- A plan ends badly only where one of its own actions does, or a task that it comes to. -/
theorem invokes_of_ending {g : Ending} (hg : g ≠ .done) (hlimit : ∀ l, g ≠ .fault (.callDepthExceeded l))
    (henter : ∀ f vs, (enterFunction f vs).Avoids g) {p : Plan α} (hacts : p.Acts (·.Avoids g)) {m : Machine}
    (h : (p.run run m).ending = g) : ∃ t m', p.Invokes run m t m' ∧ (run t m').ending = g := by
  induction p generalizing m with
  | done a => exact (hg h.symm).elim
  | act x next ih =>
    rcases ending_bind h with hx | ⟨a, m₁, hx, hnext⟩
    · exact (hacts.1 m hx).elim
    · obtain ⟨t, m', hinvokes, hend⟩ := ih a (hacts.2 a) hnext
      exact ⟨t, m', .act hx hinvokes, hend⟩
  | task s next ih =>
    rcases ending_bind h with hs | ⟨a, m₁, hs, hnext⟩
    · exact ⟨s, m, .here s next m, hs⟩
    · obtain ⟨t, m', hinvokes, hend⟩ := ih a (hacts a) hnext
      exact ⟨t, m', .after hs hinvokes, hend⟩
  | function ref vs next ih =>
    rcases ending_bind h with hcall | ⟨v, m₁, hcall, hnext⟩
    · obtain ⟨f, frame, m', hf, hroom, hentry, hbody⟩ := ending_callFunction hg hlimit henter hcall
      exact ⟨_, m', .body hf hroom hentry, hbody⟩
    · obtain ⟨t, m', hinvokes, hend⟩ := ih v (hacts v) hnext
      exact ⟨t, m', .afterCall hcall hinvokes, hend⟩

theorem acts_mono {P Q : {β : Type} → Action β → Prop} (hPQ : ∀ {β : Type} {x : Action β}, P x → Q x)
    {p : Plan α} (h : p.Acts P) : p.Acts Q := by
  induction p with
  | done a => trivial
  | act x next ih => exact ⟨hPQ h.1, fun a => ih a (h.2 a)⟩
  | task t next ih => exact fun a => ih a (h a)
  | function ref vs next ih => exact fun v => ih v (h v)

section Keeps

variable {R : Store → Store → Prop}

theorem leaves_bind (htrans : ∀ s t u, R s t → R t u → R s u) {x : Action α} {f : α → Action β}
    {m : Machine} (hx : (x m).Leaves (R m.store))
    (hf : ∀ a m', x m = .done a m' → (f a m').Leaves (R m'.store)) : ((x >>= f) m).Leaves (R m.store) := by
  rw [bind_eq]
  cases hm : x m with
  | done a m' =>
    rw [hm] at hx
    have hnext := hf a m' hm
    dsimp only
    cases hend : f a m' with
    | done b m'' =>
      rw [hend] at hnext
      exact htrans _ _ _ hx hnext
    | fault e m'' =>
      rw [hend] at hnext
      exact htrans _ _ _ hx hnext
    | starved => trivial
  | fault e m' =>
    rw [hm] at hx
    exact hx
  | starved => trivial

theorem leaves_endCall {P : Store → Prop} {x : Action α} {m : Machine} (h : (x m).Leaves P) :
    (endCall x m).Leaves P := by
  unfold endCall
  cases hm : x m with
  | done a m' =>
    rw [hm] at h
    exact h
  | fault e m' =>
    rw [hm] at h
    exact h
  | starved => trivial

theorem leaves_callFunction (hrefl : ∀ s, R s s) (htrans : ∀ s t u, R s t → R t u → R s u)
    (henter : ∀ f vs, (enterFunction f vs).Keeps R) {body : Nat → List Stmt → Action Value} {ref : Nat}
    {vs : List Value} {m : Machine}
    (hbody : ∀ f frame m', m.store.functions[ref]? = some f → m.depth < m.limit →
      enterFunction f vs { m with depth := m.depth + 1 } = .done frame m' →
      (body frame f.body m').Leaves (R m'.store)) :
    (callFunction body ref vs m).Leaves (R m.store) := by
  rw [callFunction_eq]
  cases hf : m.store.functions[ref]? with
  | none => exact hrefl m.store
  | some f =>
    dsimp only
    by_cases hfull : m.limit ≤ m.depth
    · rw [if_pos hfull]
      exact hrefl m.store
    · rw [if_neg hfull]
      have hroom := Nat.lt_of_not_le hfull
      exact leaves_endCall (leaves_bind htrans (henter f vs { m with depth := m.depth + 1 })
        fun frame m' hentry => hbody f frame m' hf hroom hentry)

theorem keeps_bind (htrans : ∀ s t u, R s t → R t u → R s u) {x : Action α} {f : α → Action β}
    (hx : x.Keeps R) (hf : ∀ a, (f a).Keeps R) : (x >>= f).Keeps R := by
  intro m
  exact leaves_bind htrans (hx m) fun a m' _ => hf a m'

theorem keeps_update {f : Store → Except Fault Edit} (hrefl : ∀ s, R s s)
    (h : ∀ s e, f s = .ok e → R s (s.apply e)) : (Action.update f).Keeps R := by
  intro m
  unfold Action.update
  split
  · rename_i e he
    exact h _ e he
  · exact hrefl _

/-- A plan keeps what its own actions and all tasks that it comes to keep. -/
theorem leaves_run (hrefl : ∀ s, R s s) (htrans : ∀ s t u, R s t → R t u → R s u)
    (henter : ∀ f vs, (enterFunction f vs).Keeps R) {p : Plan α} (hacts : p.Acts (·.Keeps R)) {m : Machine}
    (htasks : ∀ t m', p.Invokes run m t m' → (run t m').Leaves (R m'.store)) :
    (p.run run m).Leaves (R m.store) := by
  induction p generalizing m with
  | done a => exact hrefl m.store
  | act x next ih =>
    refine leaves_bind htrans (hacts.1 m) fun a m₁ hx => ih a (hacts.2 a) fun t m' h => ?_
    exact htasks t m' (.act hx h)
  | task s next ih =>
    refine leaves_bind htrans (htasks s m (.here s next m)) fun a m₁ hs => ih a (hacts a) fun t m' h => ?_
    exact htasks t m' (.after hs h)
  | function ref vs next ih =>
    refine leaves_bind htrans (leaves_callFunction hrefl htrans henter fun f frame m' hf hroom hentry => ?_)
      fun v m₁ hcall => ih v (hacts v) fun t m' h => ?_
    · exact htasks _ m' (.body hf hroom hentry)
    · exact htasks t m' (.afterCall hcall h)

end Keeps

section Below

theorem below_refl (x : Action α) : x.Below x :=
  fun _ => .inr rfl

theorem below_bind {x x' : Action α} {f f' : α → Action β} (hx : x.Below x') (hf : ∀ a, (f a).Below (f' a)) :
    (x >>= f).Below (x' >>= f') := by
  intro m
  rw [bind_eq, bind_eq]
  rcases hx m with hm | hm
  · rw [hm]
    exact .inl rfl
  · rw [hm]
    cases x m with
    | done a m' => exact hf a m'
    | fault e m' => exact .inr rfl
    | starved => exact .inl rfl

theorem below_endCall {x x' : Action α} (hx : x.Below x') : (endCall x).Below (endCall x') := by
  intro m
  unfold endCall
  rcases hx m with hm | hm
  · rw [hm]
    exact .inl rfl
  · rw [hm]
    exact .inr rfl

theorem below_callFunction {body body' : Nat → List Stmt → Action Value}
    (h : ∀ frame stmts, (body frame stmts).Below (body' frame stmts)) (ref : Nat) (vs : List Value) :
    (callFunction body ref vs).Below (callFunction body' ref vs) := by
  refine below_bind (below_refl _) fun found => ?_
  cases found with
  | none => exact below_refl _
  | some f =>
    exact below_bind (below_refl _) fun _ =>
      below_endCall (below_bind (below_refl _) fun frame => h frame f.body)

/-- A plan is carried out alike by any two ways to do tasks of which one goes further than the other. -/
theorem below_plan {run' : (t : Task) → Action t.Result} (h : ∀ t, (run t).Below (run' t)) (p : Plan α) :
    (p.run run).Below (p.run run') := by
  induction p with
  | done a => exact below_refl _
  | act x next ih => exact below_bind (below_refl x) ih
  | task t next ih => exact below_bind (h t) ih
  | function ref vs next ih => exact below_bind (below_callFunction (fun frame stmts => h _) ref vs) ih

theorem run_below_succ (n : Nat) (t : Task) : (t.run n).Below (t.run (n + 1)) := by
  induction n generalizing t with
  | zero =>
    intro m
    rw [run_zero]
    exact .inl rfl
  | succ n ih =>
    rw [run_succ n, run_succ (n + 1)]
    exact below_plan ih t.plan

/-- A greater bound never changes how a task ended. -/
theorem run_eq_of_le {n n' : Nat} (hn : n ≤ n') (t : Task) {m : Machine} (h : t.run n m ≠ .starved) :
    t.run n' m = t.run n m := by
  induction hn with
  | refl => rfl
  | step _ ih =>
    rcases run_below_succ _ t m with hm | hm
    · rw [ih] at hm
      exact (h hm).elim
    · rw [hm, ih]

end Below

end Proofs.Plans

end Scriptlet
