import Scriptlet.Proofs.Installation
import Scriptlet.Proofs.SoundActions
import Scriptlet.Proofs.Stages

namespace Scriptlet

namespace Task

/-- The values that a task is given. -/
def values : Task → List Value
  | .call f vs => f :: vs
  | _ => []

/-- The values that a task gives. -/
def told : (t : Task) → t.Result → List Value
  | .eval .., v | .evalKey .., v | .call .., v | .executeBody .., v => [v]
  | .evalAll .., vs => vs
  | .evalProperties .., entries => entries.map Prod.snd
  | .execute .., flow | .executeBlock .., flow => [flow.value]
  | .executeAll .., _ | .loop .., _ => []

end Task

/-- A plan that hands on known values only, and those that its own actions and its tasks tell it. -/
inductive Plan.Tells {α : Type} (told : α → List Value) : List Value → Plan α → Prop where
  | done {known : List Value} {a : α} (h : ∀ s : Store, s.Knows known → s.Knows (told a)) :
      Tells told known (.done a)
  | act {known : List Value} {β : Type} {x : Action β} {next : β → Plan α} (between : β → List Value)
      (hx : x.Tells known between) (hnext : ∀ a, Tells told (between a ++ known) (next a)) :
      Tells told known (.act x next)
  | task {known : List Value} {t : Task} {next : t.Result → Plan α}
      (ht : ∀ s : Store, s.Knows known → s.Knows t.values)
      (hnext : ∀ a, Tells told (t.told a ++ known) (next a)) : Tells told known (.task t next)
  | function {known : List Value} {ref : Nat} {vs : List Value} {next : Value → Plan α}
      (hvs : ∀ s : Store, s.Knows known → s.Knows vs) (hnext : ∀ v, Tells told ([v] ++ known) (next v)) :
      Tells told known (.function ref vs next)

/-- A task that is started on a sound machine, with values that see themselves. -/
def Start.Sound (s : Start) : Prop :=
  s.machine.Sound ∧ s.machine.store.Knows s.task.values

/-- A stage that begins on a sound machine and starts such tasks only. -/
def Stage.Sound (g : Stage) : Prop :=
  g.machine.Sound ∧ ∀ s ∈ g.starts, s.Sound

/-- The machines that a run of a program passes: those on which stages begin, those on which tasks begin and
end, and those on which a function that is declared has its name and nothing is enclosed yet. -/
inductive Host.Passes (fuel : Nat) (h : Host) (program : Program) : Machine → Prop where
  | stage {g : Stage} (hg : g ∈ h.stages fuel program) : Passes fuel h program g.machine
  | begun {t : Task} {m : Machine} (ht : h.Reaches fuel program t m) : Passes fuel h program m
  | ended {t : Task} {m m' : Machine} (ht : h.Reaches fuel program t m) (n : Nat)
      (hend : (t.run n m).machine? = some m') : Passes fuel h program m'
  | named {frame : Nat} {name : String} {parameters : List String} {body : List Stmt} {m m' : Machine}
      (ht : h.Reaches fuel program (.execute frame (.fnDecl name parameters body)) m)
      (hend : Machine.nameFunction frame name parameters body m = .done () m') : Passes fuel h program m'

namespace Proofs.SelfReference
open Machine Plans Parts Contents SoundActions

variable {α β : Type} {known : List Value}

theorem tells_mono {told : α → List Value} {known known' : List Value} {x : Action α}
    (hx : x.Tells known told) (h : ∀ s : Store, s.Knows known' → s.Knows known) : x.Tells known' told :=
  fun m hm hknown => hx m hm (h m.store hknown)

theorem tells_callFunction {body : Nat → List Stmt → Action Value}
    (hbody : ∀ frame stmts, (body frame stmts).Tells [] fun v => [v]) (ref : Nat) {vs : List Value}
    (h : ∀ s : Store, s.Knows known → s.Knows vs) : (callFunction body ref vs).Tells known fun v => [v] := by
  intro m hm hknown
  rw [callFunction_eq]
  cases m.store.functions[ref]? with
  | none => exact ⟨hm, by simp [Value.SeesItself]⟩
  | some f =>
    dsimp only
    by_cases hfull : m.limit ≤ m.depth
    · rw [if_pos hfull]
      exact hm
    · rw [if_neg hfull]
      have hcalled := tells_then (runs_enterFunction f vs) (tells_enterFunction f fun _ => vouched_of_mem)
        fun frame => tells_mono (hbody frame f.body) fun _ _ => knows_nil
      have hend := hcalled { m with depth := m.depth + 1 } hm (h m.store hknown)
      unfold endCall
      cases hcall : (enterFunction f vs >>= fun frame => body frame f.body)
        { m with depth := m.depth + 1 } with
      | done v m' =>
        rw [hcall] at hend
        exact hend
      | fault e m' =>
        rw [hcall] at hend
        exact hend
      | starved => trivial

section Plans

variable {told : α → List Value} {run : (t : Task) → Action t.Result}

/-- A plan that hands on known values keeps machines sound if the tasks that it names do. -/
theorem tells_plan (hruns : ∀ t, (run t).Runs) (hrun : ∀ t, (run t).Tells t.values t.told) {p : Plan α}
    (hacts : p.Acts Action.Runs) (h : p.Tells told known) : (p.run run).Tells known told := by
  induction h with
  | done h => exact tells_pure h
  | act between hx _ ih => exact tells_bind hacts.1 hx fun a => ih a (hacts.2 a)
  | task ht _ ih => exact tells_bind (hruns _) (tells_mono (hrun _) ht) fun a => ih a (hacts a)
  | function hvs _ ih =>
    exact tells_bind (runs_callFunction (fun _ _ => hruns _) _ _)
      (tells_callFunction (fun frame stmts => hrun (.executeBody frame stmts)) _ hvs) fun v => ih v (hacts v)

theorem tells_planIte {p : Prop} [Decidable p] {x y : Plan α} (hx : x.Tells told known)
    (hy : y.Tells told known) :
    (if p then x else y).Tells told known := by
  split
  · exact hx
  · exact hy

theorem tells_eval (frame : Nat) (e : Expr) : (Task.eval frame e).plan.Tells (Task.eval frame e).told [] := by
  cases e with
  | number x => exact .done fun _ _ => by simp [Task.told, Value.SeesItself]
  | text s => exact .done fun _ _ => by simp [Task.told, Value.SeesItself]
  | array es =>
    refine .task (fun _ _ => knows_nil) fun vs => .act (fun v => [v]) (tells_addArray fun v hv => ?_)
      fun v => ?_
    · exact vouched_of_mem (by simpa [Task.told] using hv)
    · exact .done fun _ => by simp +contextual [Task.told]
  | object ps =>
    refine .task (fun _ _ => knows_nil) fun entries =>
      .act (fun v => [v]) (tells_addObject fun key v hv => ?_) fun v => ?_
    · exact vouched_of_mem (by simpa [Task.told] using mem_ofEntries hv)
    · exact .done fun _ => by simp +contextual [Task.told]
  | identifier name =>
    refine .act (fun v => [v]) (tells_read fun s v hv w hw => ?_) fun v =>
      .done fun _ => by simp +contextual [Task.told]
    cases List.mem_singleton.mp hw
    exact .inl (contains_lookup hv)
  | assign name e =>
    refine .task (fun _ _ => knows_nil) fun v => .act (fun _ => []) (tells_update ?_ fun s e he w hw => ?_)
      fun _ => .done ?_
    · exact fun _ _ => Runs.admits_assign
    · cases (assign_value he).symm.trans hw
      exact vouched_of_mem (by simp [Task.told])
    · simp +contextual [Task.told]
  | call callee es =>
    refine .task (fun _ _ => knows_nil) fun f => .task (fun _ _ => knows_nil) fun vs => .task ?_ fun v =>
      .done ?_
    · simp +contextual [Task.told, Task.values]
    · simp +contextual [Task.told]
  | member object key computed assignment =>
    cases assignment with
    | none =>
      refine .task (fun _ _ => knows_nil) fun target => .task (fun _ _ => knows_nil) fun k =>
        .act (fun v => [v]) (tells_read fun s v hv w hw => ?_) fun v => .done ?_
      · cases List.mem_singleton.mp hw
        exact (contains_getMember hv).imp_right vouched_of_kind
      · simp +contextual [Task.told]
    | some e =>
      refine .task (fun _ _ => knows_nil) fun target => .task (fun _ _ => knows_nil) fun k =>
        .task (fun _ _ => knows_nil) fun v => .act (fun _ => []) (tells_update ?_ fun s e he w hw => ?_)
          fun _ => .done ?_
      · exact fun _ _ => Runs.admits_setMember
      · cases (setMember_value he).symm.trans hw
        exact vouched_of_mem (by simp [Task.told])
      · simp +contextual [Task.told]
  | boolean left op right =>
    cases op <;> exact .task (fun _ _ => knows_nil) fun l => .task (fun _ _ => knows_nil) fun r =>
      .done fun _ _ => by
      simp [Task.told, Value.SeesItself]
  | binary left op right =>
    refine .task (fun _ _ => knows_nil) fun l => .task (fun _ _ => knows_nil) fun r =>
      .act (fun v => [v]) (tells_read fun s v hv w hw => ?_) fun v => .done ?_
    · cases List.mem_singleton.mp hw
      exact .inr (vouched_of_kind (binary_kind hv))
    · simp +contextual [Task.told]
  | logical left op equals right =>
    exact .task (fun _ _ => knows_nil) fun l => .task (fun _ _ => knows_nil) fun r => .done fun _ _ => by
      simp [Task.told, Value.SeesItself]
  | not e =>
    exact .task (fun _ _ => knows_nil) fun v => .done fun _ _ => by simp [Task.told, Value.SeesItself]

theorem tells_evalProperties (frame : Nat) (ps : List Property) :
    (Task.evalProperties frame ps).plan.Tells (Task.evalProperties frame ps).told [] := by
  cases ps with
  | nil => exact .done fun _ _ => knows_nil
  | cons p ps =>
    cases p with
    | shorthand key =>
      refine .act (fun v => [v]) (tells_read fun s v hv w hw => ?_) fun v =>
        .task (fun _ _ => knows_nil) fun es => .done ?_
      · cases List.mem_singleton.mp hw
        exact .inl (contains_lookup hv)
      · simp +contextual [Task.told]
    | valued key e =>
      refine .task (fun _ _ => knows_nil) fun v => .task (fun _ _ => knows_nil) fun es => .done ?_
      simp +contextual [Task.told]

theorem tells_evalKey (frame : Nat) (e : Expr) (computed : Bool) :
    (Task.evalKey frame e computed).plan.Tells (Task.evalKey frame e computed).told [] := by
  cases computed with
  | true => exact .task (fun _ _ => knows_nil) fun v => .done fun _ => by simp +contextual [Task.told]
  | false =>
    cases e with
    | identifier name => exact .done fun _ _ => by simp [Task.told, Value.SeesItself]
    | _ => exact .act (fun v => [v]) (tells_fail _) fun v => .done fun _ => by simp +contextual [Task.told]

theorem tells_execute (frame : Nat) (stmt : Stmt) :
    (Task.execute frame stmt).plan.Tells (Task.execute frame stmt).told [] := by
  have hnull {known : List Value} (s : Store) (_ : s.Knows known) : s.Knows [Flow.value (.normal .null)] := by
    simp [Flow.value, Value.SeesItself]
  cases stmt with
  | expr e =>
    exact .task (fun _ _ => knows_nil) fun v => .done fun _ => by simp +contextual [Task.told, Flow.value]
  | varDecl name constant e =>
    refine .task (fun _ _ => knows_nil) fun v => .act (fun _ => []) (tells_declare frame name constant ?_)
      fun _ => .done hnull
    exact vouched_of_mem (by simp [Task.told])
  | structDecl name fields =>
    exact .act (fun _ => []) (tells_declareStruct frame name fields) fun _ => .done hnull
  | fnDecl name parameters body =>
    exact .act (fun _ => []) (tells_declareFunction frame name parameters body) fun _ => .done hnull
  | ret e =>
    refine .act (fun _ => []) tells_guardReturn fun _ => .task (fun _ _ => knows_nil) fun v => .done ?_
    simp +contextual [Task.told, Flow.value]
  | ifThen test body =>
    refine .task (fun _ _ => knows_nil) fun t =>
      tells_planIte (.act (fun _ => []) (tells_enter frame) fun block => ?_) ?_
    · exact .task (fun _ _ => knows_nil) fun flow => .done fun _ => by simp +contextual [Task.told]
    · exact .done hnull
  | whileDo test body => exact .task (fun _ _ => knows_nil) fun _ => .done hnull

theorem tells_call (f : Value) (vs : List Value) :
    (Task.call f vs).plan.Tells (Task.call f vs).told (f :: vs) := by
  have hgiven {v : Value} (hv : v ∈ vs) {between : List Value} : v.Vouched (between ++ f :: vs) :=
    vouched_of_mem (by simp [hv])
  cases f with
  | function ref =>
    refine .function ?_ fun v => .done fun _ => ?_
    · simp +contextual
    · simp +contextual [Task.told]
  | native ref =>
    refine .act _ (tells_natives ref) fun found => ?_
    cases found with
    | none => exact .done fun _ _ => by simp [Task.told, Value.SeesItself]
    | some native =>
      refine .act (fun v => [v]) (tells_nativeCall (fun v hv => hgiven hv) fun v hv => ?_) fun v =>
        .done fun _ => ?_
      · exact vouched_of_mem (List.mem_append_left _ hv)
      · simp +contextual [Task.told]
  | structType ref =>
    refine .act (fun o => o.entries.map Prod.snd) (tells_read fun s o ho v hv => ?_) fun o =>
      .act (fun v => [v]) (tells_addObject fun key v hv => ?_) fun v => .done fun _ => ?_
    · obtain ⟨⟨key, w⟩, hw, rfl⟩ := List.mem_map.mp hv
      rcases mem_bindFields ho hw with ⟨k, hk⟩ | hmem
      · cases hk
      · exact .inr (vouched_of_mem (List.mem_cons_of_mem _ hmem))
    · exact vouched_of_mem (List.mem_append_left _ (List.mem_map_of_mem hv))
    · simp +contextual [Task.told]
  | _ =>
    exact .act (fun _ => []) (tells_look fun _ _ => knows_nil) fun shown =>
      .act (fun v => [v]) (tells_fail _) fun v => .done fun _ => by simp +contextual [Task.told]

theorem tells_executeBody (frame : Nat) (stmts : List Stmt) :
    (Task.executeBody frame stmts).plan.Tells (Task.executeBody frame stmts).told [] := by
  have hrest {known : List Value} : (Plan.task (.executeBody frame stmts.tail) Plan.done).Tells
      (fun v => [v]) known :=
    .task (fun _ _ => knows_nil) fun v => .done fun _ => by simp +contextual [Task.told]
  cases stmts with
  | nil => exact .done fun _ _ => by simp [Task.told, Value.SeesItself]
  | cons stmt stmts =>
    cases stmt with
    | ret e => exact .task (fun _ _ => knows_nil) fun v => .done fun _ => by simp +contextual [Task.told]
    | ifThen test body =>
      refine .task (fun _ _ => knows_nil) fun flow => ?_
      cases flow with
      | normal v => exact hrest
      | returned v => exact tells_planIte (.done fun _ => by simp +contextual [Task.told, Flow.value]) hrest
    | _ => exact .task (fun _ _ => knows_nil) fun _ => hrest

/-- Every task hands on values that it was given or told, and makes no function but by a declaration. -/
theorem tells_task (t : Task) : t.plan.Tells t.told t.values := by
  cases t with
  | eval frame e => exact tells_eval frame e
  | evalAll frame es =>
    cases es with
    | nil => exact .done fun _ _ => knows_nil
    | cons e es =>
      exact .task (fun _ _ => knows_nil) fun v => .task (fun _ _ => knows_nil) fun vs => .done fun _ => by
        simp +contextual [Task.told]
  | evalProperties frame ps => exact tells_evalProperties frame ps
  | evalKey frame e computed => exact tells_evalKey frame e computed
  | execute frame stmt => exact tells_execute frame stmt
  | executeBlock frame stmts =>
    cases stmts with
    | nil => exact .done fun _ _ => by simp [Task.told, Flow.value, Value.SeesItself]
    | cons stmt stmts =>
      refine .task (fun _ _ => knows_nil) fun flow => tells_planIte (.done fun _ => ?_) ?_
      · simp +contextual [Task.told]
      · exact .task (fun _ _ => knows_nil) fun flow => .done fun _ => by simp +contextual [Task.told]
  | executeAll frame stmts =>
    cases stmts with
    | nil => exact .done fun _ _ => knows_nil
    | cons stmt stmts =>
      exact .task (fun _ _ => knows_nil) fun _ => .task (fun _ _ => knows_nil) fun _ => .done fun _ _ =>
        knows_nil
  | loop frame test body =>
    refine .task (fun _ _ => knows_nil) fun t =>
      tells_planIte (.act (fun _ => []) (tells_enter frame) fun turn => ?_) ?_
    · exact .task (fun _ _ => knows_nil) fun _ => .task (fun _ _ => knows_nil) fun _ => .done fun _ _ =>
        knows_nil
    · exact .done fun _ _ => knows_nil
  | call f vs => exact tells_call f vs
  | executeBody frame stmts => exact tells_executeBody frame stmts

end Plans

section Runs

/-- So does the evaluator. The induction is on the bound. -/
theorem tells_run (n : Nat) (t : Task) : (t.run n).Tells t.values t.told := by
  induction n generalizing t with
  | zero =>
    rw [run_zero]
    exact fun _ _ _ => trivial
  | succ n ih =>
    rw [Tasks.run_succ]
    exact tells_plan (runs_run n) ih (acts_runs t) (tells_task t)

theorem known_after {told : β → List Value} {x : Action β} (hruns : x.Runs) (hx : x.Tells known told)
    {m m' : Machine} {a : β} (hend : x m = .done a m') (hm : m.Sound) (hknown : m.store.Knows known) :
    m'.Sound ∧ m'.store.Knows (told a ++ known) := by
  have hsound := hx m hm hknown
  have hrun := hruns m
  rw [hend] at hsound hrun
  exact ⟨hsound.1, knows_append.mpr ⟨hsound.2, knows_grows (StoreGrowth.runs_grows hrun) hknown⟩⟩

/-- A plan comes to its tasks on sound machines, and gives them values that see themselves. -/
theorem invokes_sound {n : Nat} {told : α → List Value} {p : Plan α} (hacts : p.Acts Action.Runs)
    (htells : p.Tells told known) {m m' : Machine} {t : Task} (h : p.Invokes (Task.run n) m t m')
    (hm : m.Sound) (hknown : m.store.Knows known) : m'.Sound ∧ m'.store.Knows t.values := by
  induction h generalizing known with
  | act hx _ ih =>
    cases htells with
    | act between hown hnext =>
      obtain ⟨hm₁, hknown₁⟩ := known_after hacts.1 hown hx hm hknown
      exact ih (hacts.2 _) (hnext _) hm₁ hknown₁
  | here t next m =>
    cases htells with
    | task ht _ => exact ⟨hm, ht m.store hknown⟩
  | after hs _ ih =>
    cases htells with
    | task ht hnext =>
      obtain ⟨hm₁, hknown₁⟩ := known_after (runs_run n _) (tells_mono (tells_run n _) ht) hs hm hknown
      exact ih (hacts _) (hnext _) hm₁ hknown₁
  | @body _ _ vs _ m _ f _ _ hentry =>
    cases htells with
    | function hvs _ =>
      have henter : (enterFunction f vs).Tells vs fun _ => [] := tells_enterFunction f fun _ => vouched_of_mem
      have hsound := henter { m with depth := m.depth + 1 } hm (hvs m.store hknown)
      rw [hentry] at hsound
      exact ⟨hsound.1, knows_nil⟩
  | @afterCall ref _ _ _ _ _ _ _ hcall _ ih =>
    cases htells with
    | function hvs hnext =>
      have hbody := tells_callFunction (fun frame stmts => tells_run n (.executeBody frame stmts)) ref hvs
      obtain ⟨hm₁, hknown₁⟩ :=
        known_after (runs_callFunction (fun _ _ => runs_run n _) _ _) hbody hcall hm hknown
      exact ih (hacts _) (hnext _) hm₁ hknown₁

theorem reaches_sound {S : Task → Prop} {n : Nat} {t t' : Task} {m m' : Machine}
    (h : Task.Reaches S n t m t' m')
    (hm : m.Sound) (hknown : m.store.Knows t.values) : m'.Sound ∧ m'.store.Knows t'.values := by
  induction h with
  | refl n t m => exact ⟨hm, hknown⟩
  | step h _ _ ih =>
    obtain ⟨hm₁, hknown₁⟩ := invokes_sound (acts_runs _) (tells_task _) h hm hknown
    exact ih hm₁ hknown₁

end Runs

section Hosts

variable {fuel : Nat}

theorem sound_start (h : Host) : h.machine.Sound := by
  rintro v (hstored | hwaiting)
  · cases contains_addFrame hstored with
    | binding hf hv => simp [Store.empty] at hf
    | element ha hv => simp [Store.empty] at ha
    | entry ho hv => simp [Store.empty] at ho
    | given hn hv => simp [Store.empty] at hn
  · rcases hwaiting with hframe | ⟨i, hi, _⟩
    · cases hframe
    · cases hi

theorem tells_installConstants (frame : Nat) {constants : List (String × Value)}
    (h : ∀ c ∈ constants, c.2.kind ≠ .function) :
    (Toolbox.installConstants frame constants).Tells known fun _ => [] := by
  induction constants with
  | nil => exact tells_pure fun _ _ => knows_nil
  | cons c cs ih =>
    have hconstant : c.2.Vouched known := vouched_of_kind (h c List.mem_cons_self)
    refine tells_then (Runs.runs_declare _ _ _ _) (tells_declare frame c.1 true hconstant) fun _ => ?_
    exact ih fun d hd => h d (List.mem_cons_of_mem _ hd)

theorem tells_addNative {n : Native} (h : ∀ v, n.behaviour ≠ .constantly v) :
    (Action.allocate fun s => s.addNative n).Tells known fun v => [v] := by
  refine tells_allocate (fun s => .native s _) (fun s v hv => ?_)
    fun _ _ => by simp [Store.addNative, Value.SeesItself]
  exact (contains_addNative hv).imp_right fun hgiven => (h v hgiven).elim

theorem tells_installTools (frame : Nat) {tools : List Tool}
    (h : ∀ t ∈ tools, ∀ v, t.behaviour ≠ .constantly v) :
    (Toolbox.installTools frame tools).Tells known fun _ => [] := by
  induction tools generalizing known with
  | nil => exact tells_pure fun _ _ => knows_nil
  | cons t ts ih =>
    have hnew (v : Value) : t.native.behaviour ≠ .constantly v := h t List.mem_cons_self v
    refine tells_bind (Runs.runs_allocate fun s => .native s _) (tells_addNative hnew) fun v => ?_
    have hvouched : v.Vouched ([v] ++ known) := vouched_of_mem List.mem_cons_self
    refine tells_then (Runs.runs_declare _ _ _ _) (tells_declare frame t.name true hvouched) fun _ => ?_
    exact ih fun u hu => h u (List.mem_cons_of_mem _ hu)

/-- The standard tools and constants bring no function with them. -/
theorem tells_standard : (Toolbox.standard.install Host.root).Tells [] fun _ => [] := by
  refine tells_then (Runs.runs_installConstants _ _) (tells_installConstants Host.root ?_) fun _ => ?_
  · simp [Toolbox.standard, Value.kind]
  · exact tells_installTools Host.root (by simp [Toolbox.standard])

/-- Tasks that are started one after another with values that see themselves keep machines sound. -/
theorem chain_sound {o : Outcome α} {ss : List Start} {m : Machine} (h : Start.Chain fuel m ss o)
    (hvalues : ∀ s ∈ ss, ∀ v ∈ s.task.values, v ∈ known) (hm : m.Sound) (hknown : m.store.Knows known) :
    (∀ s ∈ ss, s.Sound) ∧ o.Sound fun _ => [] := by
  induction h with
  | nil a m => exact ⟨List.forall_mem_nil _, hm, knows_nil⟩
  | spent m => exact ⟨List.forall_mem_nil _, trivial⟩
  | @next t m m' a ss o ht _ ih =>
    obtain ⟨hgiven, hlater⟩ := List.forall_mem_cons.mp hvalues
    have hfirst (s : Store) (hs : s.Knows known) : s.Knows t.values := fun v hv => hs v (hgiven v hv)
    obtain ⟨hm', hknown'⟩ := known_after (runs_run fuel t) (tells_mono (tells_run fuel t) hfirst) ht hm hknown
    obtain ⟨hrest, hend⟩ := ih hlater hm' (knows_append.mp hknown').2
    exact ⟨List.forall_mem_cons.mpr ⟨⟨hm, hfirst m.store hknown⟩, hrest⟩, hend⟩
  | @fault t m m' e ht =>
    have hfirst : m.store.Knows t.values := fun v hv => hknown v (hvalues _ List.mem_cons_self v hv)
    have hend := tells_run fuel t m hm hfirst
    rw [ht] at hend
    exact ⟨List.forall_mem_singleton.mpr ⟨hm, hfirst⟩, hend⟩
  | @starved t m ht =>
    have hfirst : m.store.Knows t.values := fun v hv => hknown v (hvalues _ List.mem_cons_self v hv)
    exact ⟨List.forall_mem_singleton.mpr ⟨hm, hfirst⟩, trivial⟩

theorem starts_sound (fuel : Nat) (limit : Option Nat) (n steps : Nat) (e : Execution) {m : Machine}
    (hm : m.Sound) :
    (∀ s ∈ e.starts fuel limit n steps m, s.Sound) ∧
      (e.runWithin fuel limit n steps m).2.Sound fun _ => [] := by
  refine chain_sound (Stages.chain_starts fuel limit n steps e m) (fun s hs v hv => ?_) hm knows_nil
  obtain ⟨stmt, htask⟩ := Stages.starts_task hs
  rw [htask] at hv
  cases hv

theorem callStarts_sound (fuel : Nat) {fs : List Value} {m : Machine} (hm : m.Sound)
    (hfs : m.store.Knows fs) :
    (∀ s ∈ Host.callStarts fuel fs m, s.Sound) ∧ (Host.callAll fuel fs m).Sound fun _ => [] := by
  refine chain_sound (Stages.chain_callStarts fuel fs m) (fun s hs v hv => ?_) hm hfs
  obtain ⟨f, hf, htask⟩ := Stages.callStarts_task hs
  rw [htask] at hv
  cases List.mem_singleton.mp hv
  exact hf

/-- The clock takes callbacks off the schedule and adds none. -/
theorem sound_advance {frameMs : Float} {m : Machine} (hm : m.Sound) {due : List Value} {schedule : Schedule}
    (h : m.schedule.advance? fuel frameMs = some (due, schedule)) :
    ({ m with schedule } : Machine).Sound ∧ m.store.Knows due := by
  constructor
  · rintro v (hstored | hwaiting)
    · exact hm v (.inl hstored)
    · exact hm v (.inr (contains_advance h (.inr hwaiting)))
  · intro v hv
    exact hm v (.inr (contains_advance h (.inl hv)))

theorem frameStages_sound (frameMs : Float) (n : Nat) {m : Machine} (hm : m.Sound) :
    ∀ g ∈ Host.frameStages fuel frameMs n m, g.Sound := by
  induction n generalizing m with
  | zero => exact List.forall_mem_nil _
  | succ n ih =>
    unfold Host.frameStages
    split
    · exact List.forall_mem_nil _
    · split
      · exact List.forall_mem_nil _
      · rename_i due schedule hadvance
        obtain ⟨hmoved, hdue⟩ := sound_advance hm hadvance
        obtain ⟨hstarts, hend⟩ := callStarts_sound fuel hmoved hdue
        refine List.forall_mem_cons.mpr ⟨⟨hmoved, hstarts⟩, ?_⟩
        split
        · rename_i m' hcalled
          rw [hcalled] at hend
          exact ih hend.1
        · exact List.forall_mem_nil _

theorem stages_sound (h : Host) (program : Program) : ∀ g ∈ h.stages fuel program, g.Sound := by
  obtain ⟨installed, hinstall, _⟩ := Installation.host_installs h
  obtain ⟨hinstalled, _⟩ :=
    known_after (Runs.runs_install _ _) tells_standard hinstall (sound_start h) knows_nil
  obtain ⟨hstarts, hend⟩ := starts_sound fuel h.settings.maxSteps (program.body.length + 1) 0
    (Execution.start program Host.root) hinstalled
  unfold Host.stages Host.frames
  rw [List.forall_mem_cons, Stages.bodyStage_eq hinstall, Stages.runBody_eq hinstall]
  refine ⟨⟨hinstalled, hstarts⟩, ?_⟩
  split
  · rename_i v m hrun
    rw [hrun] at hend
    exact frameStages_sound _ _ hend.1
  · exact List.forall_mem_nil _

theorem reached_sound {h : Host} {program : Program} {t : Task} {m : Machine}
    (ht : h.Reaches fuel program t m) :
    m.Sound ∧ m.store.Knows t.values := by
  obtain ⟨g, hg, s, hs, hreaches⟩ := ht
  obtain ⟨hm, hvalues⟩ := (stages_sound h program g hg).2 s hs
  exact reaches_sound hreaches hm hvalues

theorem machine_sound {told : α → List Value} {o : Outcome α} {m : Machine} (ho : o.Sound told)
    (h : o.machine? = some m) : m.Sound := by
  cases o with
  | done a m' =>
    cases h
    exact ho.1
  | fault e m' =>
    cases h
    exact ho
  | starved => cases h

theorem passes_sound {h : Host} {program : Program} {m : Machine} (hm : h.Passes fuel program m) :
    m.Sound := by
  cases hm with
  | stage hg => exact (stages_sound h program _ hg).1
  | begun ht => exact (reached_sound ht).1
  | ended ht n hend =>
    obtain ⟨hm, hvalues⟩ := reached_sound ht
    exact machine_sound (tells_run n _ _ hm hvalues) hend
  | @named frame name parameters body _ _ ht hend =>
    obtain ⟨hm, hvalues⟩ := reached_sound ht
    have hsound := tells_nameFunction frame name parameters body _ hm hvalues
    rw [hend] at hsound
    exact hsound.1

theorem lookup_local {s : Store} {frame : Nat} {name : String} {b : Binding}
    (h : s.bindingIn? frame name = some b) :
    s.lookup frame name = .ok b.value := by
  obtain ⟨f, hf, _⟩ := Option.bind_eq_some_iff.mp h
  obtain ⟨hframe, _⟩ := Array.getElem?_eq_some_iff.mp hf
  have hdeclares : s.declaresIn frame name = true := Option.isSome_iff_exists.mpr ⟨b, h⟩
  have hchain : ∃ outer, s.chain frame = frame :: outer := by
    obtain ⟨n, hn⟩ := Nat.exists_eq_add_of_lt hframe
    unfold Store.chain
    rw [hn]
    unfold Store.outward
    rw [hf]
    exact ⟨_, rfl⟩
  obtain ⟨outer, hchain⟩ := hchain
  have hresolve : s.resolve? frame name = some frame := by
    simp [Store.resolve?, hchain, hdeclares]
  simp [Store.lookup, hresolve, h]

/-- A function always sees itself. On every machine that a run passes, and wherever the function is stored or
waits, the frame in which it was declared has a constant of its name with this function; looked up there, its
name is found and means this function. -/
theorem function_sees_itself (fuel : Nat) (h : Host) (program : Program) (m : Machine)
    (hm : h.Passes fuel program m) (ref : Nat) (hheld : m.Contains (.function ref)) :
    ∃ f, m.store.functions[ref]? = some f ∧
      m.store.bindingIn? f.closure f.name = some ⟨.function ref, true⟩ ∧
      m.store.lookup f.closure f.name = .ok (.function ref) := by
  obtain ⟨f, hf, hb⟩ := passes_sound hm (.function ref) hheld
  exact ⟨f, hf, hb, lookup_local hb⟩

/-- A function that is declared and then waits for the first frame. -/
def waiting : Program where
  body :=
    [.fnDecl "f" [] [],
      .expr (.call (.identifier "nextFrame") [.identifier "f"])]

/-- Whether a function waits for the next frame. -/
def waitsFor (ref : Nat) (m : Machine) : Bool :=
  m.schedule.frames.any fun
    | .function r => r == ref
    | _ => false

theorem mem_of_waitsFor {ref : Nat} {m : Machine} (h : waitsFor ref m = true) :
    .function ref ∈ m.schedule.frames := by
  obtain ⟨v, hv, hfunction⟩ := List.any_eq_true.mp h
  cases v with
  | function r =>
    cases beq_iff_eq.mp hfunction
    exact hv
  | _ => cases hfunction

theorem function_sees_itself_waiting :
    ∃ m, (Host.new .default).Passes 10 waiting m ∧ .function 0 ∈ m.schedule.frames ∧
    ∃ f, m.store.functions[0]? = some f ∧ m.store.bindingIn? f.closure f.name = some ⟨.function 0, true⟩ ∧
      m.store.lookup f.closure f.name = .ok (.function 0) := by
  have hwaits : ((Host.new .default).bodyStage 10 waiting).starts.any (fun s =>
      (s.outcome 10).machine?.any (waitsFor 0)) = true := by decide +kernel
  obtain ⟨s, hs, hends⟩ := List.any_eq_true.mp hwaits
  obtain ⟨m, hend, hframes⟩ := (Option.any_eq_true _ _).mp hends
  have hqueued := mem_of_waitsFor hframes
  have hpasses : (Host.new .default).Passes 10 waiting m :=
    .ended ⟨_, List.mem_cons_self, s, hs, .refl ..⟩ 10 hend
  exact ⟨m, hpasses, hqueued, function_sees_itself 10 (Host.new .default) waiting m hpasses 0
    (.inr (.inl hqueued))⟩

end Hosts

end Proofs.SelfReference

end Scriptlet
