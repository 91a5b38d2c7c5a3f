import Scriptlet.Proofs.Parts

namespace Scriptlet

/-- How far two machines that run in step may differ: in what only a call reads, the bodies of functions and
the limit of calls, and in what was printed before, which nothing reads. After an excused fault of the first
run nothing is asked of the second. -/
structure Leeway where
  /-- What the second machine has for the body of a function. -/
  body : List Stmt → List Stmt
  output : Output → Output → Prop
  limit : Nat → Nat → Prop
  excused : Fault → Prop
  write : ∀ {o o'} text, output o o' → output (o.write text) (o'.write text)
  clear : ∀ {o o'}, output o o' → output o.clear o'.clear
  limit_le : ∀ {l l'}, limit l l' → l ≤ l'
  limit_eq : ∀ {l l'}, limit l l' → l' = l ∨ excused (.callDepthExceeded l)

namespace Leeway

/-- The second machine is as the first. -/
def same : Leeway where
  body := id
  output := Eq
  limit := Eq
  excused _ := False
  write text h := congrArg (·.write text) h
  clear h := congrArg Output.clear h
  limit_le h := Nat.le_of_eq h
  limit_eq h := .inl h.symm

/-- Machines in step, with `d` calls under way on both. -/
structure Machines (L : Leeway) (d : Nat) (m m' : Machine) : Prop where
  store : m'.store = m.store.mapBodies L.body
  output : L.output m.output m'.output
  schedule : m'.schedule = m.schedule
  random : m'.random = m.random
  depth : m.depth = d
  depth' : m'.depth = d
  limit : L.limit m.limit m'.limit

/-- Outcomes in step: values that `V` relates or the same fault, on machines in step. -/
inductive Ends (L : Leeway) (d : Nat) {α β : Type} (V : α → β → Prop) : Outcome α → Outcome β → Prop where
  | done {a : α} {b : β} {m m' : Machine} (hV : V a b) (hm : L.Machines d m m') :
      Ends L d V (.done a m) (.done b m')
  | fault (e : Fault) {m m' : Machine} (hm : L.Machines d m m') : Ends L d V (.fault e m) (.fault e m')
  | excused {e : Fault} (he : L.excused e) (m : Machine) (o : Outcome β) : Ends L d V (.fault e m) o
  | starved : Ends L d V .starved .starved

/-- On machines in step, the second action ends in step with the first. -/
def Follows (L : Leeway) (d : Nat) {α β : Type} (V : α → β → Prop) (x : Action α) (y : Action β) : Prop :=
  ∀ m m', L.Machines d m m' → L.Ends d V (x m) (y m')

end Leeway

/-- Which tasks go together while a number of calls is under way, and which of their results do. -/
def Task.Pairing : Type :=
  Nat → (t t' : Task) → (t.Result → t'.Result → Prop) → Prop

/-- Every task goes together with itself alone. -/
inductive Task.Itself : Task.Pairing where
  | refl (d : Nat) (t : Task) : Itself d t t Eq

/-- The steps of two plans go together. The first may have a step more if it does nothing. -/
inductive Plan.Matches (L : Leeway) (T : Task.Pairing) (d : Nat) {α β : Type} (W : α → β → Prop) :
    Plan α → Plan β → Prop where
  | done {a : α} {b : β} (h : W a b) : Matches L T d W (.done a) (.done b)
  | act {γ δ : Type} {x : Action γ} {y : Action δ} {p : γ → Plan α} {q : δ → Plan β} (V : γ → δ → Prop)
      (h : L.Follows d V x y) (hnext : ∀ a b, V a b → Matches L T d W (p a) (q b)) :
      Matches L T d W (.act x p) (.act y q)
  | task {t t' : Task} {p : t.Result → Plan α} {q : t'.Result → Plan β} (V : t.Result → t'.Result → Prop)
      (h : T d t t' V) (hnext : ∀ a b, V a b → Matches L T d W (p a) (q b)) :
      Matches L T d W (.task t p) (.task t' q)
  | function (ref : Nat) (vs : List Value) {p : Value → Plan α} {q : Value → Plan β}
      (hnext : ∀ v, Matches L T d W (p v) (q v)) : Matches L T d W (.function ref vs p) (.function ref vs q)
  | skip {γ : Type} {x : Action γ} {p : γ → Plan α} {q : Plan β} (a : γ)
      (h : ∀ m, m.depth = d → x m = .done a m)
      (hnext : Matches L T d W (p a) q) : Matches L T d W (.act x p) q

namespace Proofs.Lockstep
open Machine Plans OwnActions Parts Bodies

variable {L : Leeway} {d : Nat} {α β γ δ : Type}

section Actions

variable {V : α → β → Prop} {W : γ → δ → Prop}

theorem ends_bind {x : Action α} {y : Action β} {f : α → Action γ} {g : β → Action δ} {m m' : Machine}
    (hx : L.Ends d V (x m) (y m')) (hf : ∀ a b, V a b → L.Follows d W (f a) (g b)) :
    L.Ends d W ((x >>= f) m) ((y >>= g) m') := by
  rw [bind_eq, bind_eq]
  generalize x m = o at hx
  generalize y m' = o' at hx
  cases hx with
  | done hV hm => exact hf _ _ hV _ _ hm
  | fault e hm => exact .fault e hm
  | excused he m _ => exact .excused he m _
  | starved => exact .starved

theorem follows_bind {x : Action α} {y : Action β} {f : α → Action γ} {g : β → Action δ}
    (hx : L.Follows d V x y)
    (hf : ∀ a b, V a b → L.Follows d W (f a) (g b)) : L.Follows d W (x >>= f) (y >>= g) :=
  fun m m' hm => ends_bind (hx m m' hm) hf

/-- One action after another, where both runs have the same value in between. -/
theorem follows_then {x y : Action α} {f : α → Action γ} {g : α → Action δ} (hx : L.Follows d Eq x y)
    (hf : ∀ a, L.Follows d W (f a) (g a)) : L.Follows d W (x >>= f) (y >>= g) :=
  follows_bind hx fun a _ hab => hab ▸ hf a

theorem follows_pure {a : α} {b : β} (h : V a b) : L.Follows d V (pure a) (pure b) :=
  fun _ _ hm => .done h hm

theorem follows_fail (e : Fault) : L.Follows d V (Action.fail e) (Action.fail e) :=
  fun _ _ hm => .fault e hm

theorem follows_starve : L.Follows d V Action.starve Action.starve :=
  fun _ _ _ => .starved

theorem follows_ite {p : Prop} [Decidable p] {x x' : Action α} {y y' : Action β} (hx : L.Follows d V x y)
    (hy : L.Follows d V x' y') : L.Follows d V (if p then x else x') (if p then y else y') := by
  split
  · exact hx
  · exact hy

end Actions

theorem follows_look {f : Machine → α} (h : ∀ m m', L.Machines d m m' → f m = f m') :
    L.Follows d Eq (Action.look f) (Action.look f) :=
  fun m m' hm => .done (h m m' hm) hm

theorem follows_modify {f : Machine → Machine} (h : ∀ m m', L.Machines d m m' → L.Machines d (f m) (f m')) :
    L.Follows d Eq (Action.modify f) (Action.modify f) :=
  fun m m' hm => .done rfl (h m m' hm)

theorem follows_read {f : Store → Except Fault α} (h : Store.Blind f) :
    L.Follows d Eq (Action.read f) (Action.read f) := by
  intro m m' hm
  have hsame : f m'.store = f m.store := by rw [hm.store, h]
  unfold Action.read
  rw [hsame]
  cases f m.store with
  | ok a => exact .done rfl hm
  | error e => exact .fault e hm

theorem follows_update {f : Store → Except Fault Edit} (h : Store.Blind f) :
    L.Follows d Eq (Action.update f) (Action.update f) := by
  intro m m' hm
  have hsame : f m'.store = f m.store := by rw [hm.store, h]
  unfold Action.update
  rw [hsame]
  cases f m.store with
  | ok e =>
    refine .done rfl { hm with store := ?_ }
    exact (congrArg (·.apply e) hm.store).trans (apply_mapBodies L.body m.store e)
  | error e => exact .fault e hm

theorem follows_allocate {f f' : Store → α × Store}
    (h : ∀ s, f' (s.mapBodies L.body) = ((f s).1, (f s).2.mapBodies L.body)) :
    L.Follows d Eq (Action.allocate f) (Action.allocate f') := by
  intro m m' hm
  have hsame := (congrArg f' hm.store).trans (h m.store)
  exact .done (congrArg Prod.fst hsame).symm { hm with store := congrArg Prod.snd hsame }

theorem follows_declare (frame : Nat) (name : String) (value : Value) (constant : Bool) :
    L.Follows d Eq (declare frame name value constant) (declare frame name value constant) :=
  follows_update fun _ _ => rfl

theorem follows_declareStruct (frame : Nat) (name : String) (fields : List Field) :
    L.Follows d Eq (declareStruct frame name fields) (declareStruct frame name fields) :=
  follows_then (follows_allocate fun _ => rfl) fun v => follows_declare frame name v true

/-- A declared function goes together with one that has the other body. -/
theorem follows_declareFunction (frame : Nat) (name : String) (parameters : List String) (body : List Stmt) :
    L.Follows d Eq (declareFunction frame name parameters body)
      (declareFunction frame name parameters (L.body body)) := by
  refine follows_then (follows_allocate fun s => ?_) fun v => ?_
  · exact addFunction_mapBodies L.body s ⟨name, parameters, body, frame⟩
  · exact follows_then (follows_declare frame name v true) fun _ => follows_update fun _ _ => rfl

theorem follows_enter (frame : Nat) : L.Follows d Eq (enter frame) (enter frame) :=
  follows_allocate fun _ => rfl

theorem follows_bindParameters (frame : Nat) (names : List String) (vs : List Value) :
    L.Follows d Eq (bindParameters frame names vs) (bindParameters frame names vs) := by
  induction names generalizing vs with
  | nil => exact follows_pure rfl
  | cons p ps ih => exact follows_then (follows_declare frame p _ false) fun _ => ih vs.tail

theorem follows_enterFunction (f : Function) (vs : List Value) :
    L.Follows d Eq (enterFunction f vs) (enterFunction f vs) :=
  follows_then (follows_enter f.closure) fun frame =>
    follows_then (follows_bindParameters frame f.parameters vs) fun _ => follows_pure rfl

theorem follows_guardReturn : L.Follows d Eq guardReturn guardReturn :=
  follows_then (follows_look fun _ _ hm => hm.depth.trans hm.depth'.symm) fun _ =>
    follows_ite (follows_fail _) (follows_pure rfl)

section Natives

theorem follows_callback (name : String) (vs : List Value) :
    L.Follows d Eq (Behaviour.callback name vs) (Behaviour.callback name vs) := by
  cases vs with
  | nil => exact follows_fail _
  | cons v vs => exact follows_ite (follows_pure rfl) (follows_fail _)

theorem follows_printAll (vs : List Value) :
    L.Follows d Eq (Behaviour.printAll vs) (Behaviour.printAll vs) := by
  induction vs with
  | nil => exact follows_pure rfl
  | cons v vs ih =>
    refine follows_then (follows_modify fun m m' hm => { hm with output := ?_ }) fun _ => ih
    have hshown : m'.store.display v = m.store.display v := by
      rw [hm.store]
      exact blind_display v L.body m.store
    change L.output (m.output.write _) (m'.output.write (m'.store.display v))
    rw [hshown]
    exact L.write _ hm.output

theorem follows_schedule (f : Schedule → Schedule) :
    L.Follows d Eq (Action.modify fun m => { m with schedule := f m.schedule })
      (Action.modify fun m => { m with schedule := f m.schedule }) :=
  follows_modify fun _ _ hm => { hm with schedule := congrArg f hm.schedule }

theorem follows_perform (name : String) (vs : List Value) (behaviour : Behaviour) :
    L.Follows d Eq (behaviour.perform name vs) (behaviour.perform name vs) := by
  cases behaviour with
  | print => exact follows_then (follows_printAll vs) fun _ => follows_pure rfl
  | clear =>
    exact follows_then (follows_modify fun _ _ hm => { hm with output := L.clear hm.output }) fun _ =>
      follows_pure rfl
  | sqrt =>
    cases vs with
    | nil => exact follows_fail _
    | cons v vs => exact follows_pure rfl
  | rand =>
    intro m m' hm
    have hnext := congrArg Random.next hm.random
    exact .done (congrArg (fun r => Value.number r.1) hnext.symm)
      { hm with random := congrArg Prod.snd hnext }
  | addElement =>
    dsimp only [Behaviour.perform]
    split
    · exact follows_then (follows_update fun _ _ => rfl) fun _ => follows_pure rfl
    · exact follows_pure rfl
  | time =>
    exact follows_then (follows_look fun _ _ hm => congrArg Schedule.now hm.schedule.symm) fun _ =>
      follows_pure rfl
  | interval =>
    exact follows_then (follows_callback name vs) fun f =>
      follows_then (follows_schedule fun s => s.addInterval f _) fun _ => follows_pure rfl
  | nextFrame =>
    exact follows_then (follows_callback name vs) fun f =>
      follows_then (follows_schedule fun s => s.requestFrame f) fun _ => follows_pure rfl
  | collect =>
    dsimp only [Behaviour.perform]
    exact follows_allocate fun _ => rfl
  | constantly v => exact follows_pure rfl

theorem follows_nativeCall (native : Native) (vs : List Value) :
    L.Follows d Eq (native.call vs) (native.call vs) := by
  unfold Native.call
  split
  · exact follows_ite (follows_fail _) (follows_perform _ _ _)
  · exact follows_perform _ _ _

end Natives

/-- What a task does by itself is done alike, unless it declares a function with another body. -/
theorem own_follows {t : Task} {x : Action α} (h : t.Own x)
    (hbody : ∀ frame name parameters body, t = .execute frame (.fnDecl name parameters body) →
      L.body body = body) : L.Follows d Eq x x := by
  cases h with
  | look _ f hblind => exact follows_look fun m m' hm => by rw [hm.store, hblind]
  | read _ hf hblind => exact follows_read hblind
  | update _ hok hf hblind => exact follows_update hblind
  | addArray _ values => exact follows_allocate fun _ => rfl
  | addObject _ object => exact follows_allocate fun _ => rfl
  | enter _ frame => exact follows_enter frame
  | native _ native arguments => exact follows_nativeCall native arguments
  | refuse _ he => exact follows_fail _
  | declare frame name value constant e => exact follows_declare frame name value constant
  | declareStruct frame name fields => exact follows_declareStruct frame name fields
  | declareFunction frame name parameters body =>
    have hfollows := follows_declareFunction (L := L) (d := d) frame name parameters body
    rw [hbody frame name parameters body rfl] at hfollows
    exact hfollows
  | guardReturn frame e => exact follows_guardReturn
  | refuseKey frame he => exact follows_fail _

section Plans

variable {T : Task.Pairing} {W : α → β → Prop} {run run' : (t : Task) → Action t.Result}

theorem follows_endCall {x : Action α} {y : Action β} {m m' : Machine} (h : L.Ends (d + 1) W (x m) (y m')) :
    L.Ends d W (endCall x m) (endCall y m') := by
  unfold endCall
  generalize x m = o at h
  generalize y m' = o' at h
  have hback {m m' : Machine} (hm : L.Machines (d + 1) m m') :
      L.Machines d { m with depth := m.depth - 1 } { m' with depth := m'.depth - 1 } :=
    { hm with depth := by simp [hm.depth], depth' := by simp [hm.depth'] }
  cases h with
  | done hW hm => exact .done hW (hback hm)
  | fault e hm => exact .fault e (hback hm)
  | excused he m _ => exact .excused he _ _
  | starved => exact .starved

/-- Calls of one function go together if its two bodies do. Where the first is refused for the limit, the
second is too, or that is excused. -/
theorem follows_callFunction {body body' : Nat → List Stmt → Action Value}
    (h : ∀ frame stmts, L.Follows (d + 1) Eq (body frame stmts) (body' frame (L.body stmts))) (ref : Nat)
    (vs : List Value) : L.Follows d Eq (callFunction body ref vs) (callFunction body' ref vs) := by
  intro m m' hm
  have hfound : m'.store.functions[ref]? = m.store.functions[ref]?.map (Function.mapBody L.body) := by
    rw [hm.store, functions_mapBodies]
  rw [callFunction_eq, callFunction_eq, hfound]
  cases m.store.functions[ref]? with
  | none => exact .done rfl hm
  | some f =>
    dsimp only [Option.map_some]
    have hroom := L.limit_le hm.limit
    by_cases hfull : m.limit ≤ m.depth
    · rw [if_pos hfull]
      rcases L.limit_eq hm.limit with hlimit | hexcused
      · have hfull' : m'.limit ≤ m'.depth := by
          rw [hlimit, hm.depth', ← hm.depth]
          exact hfull
        rw [if_pos hfull', hlimit]
        exact .fault _ hm
      · exact .excused hexcused m _
    · have hopen : ¬m'.limit ≤ m'.depth := by
        rw [hm.depth', ← hm.depth]
        omega
      rw [if_neg hfull, if_neg hopen]
      have hinside : L.Machines (d + 1) { m with depth := m.depth + 1 } { m' with depth := m'.depth + 1 } :=
        { hm with depth := congrArg (· + 1) hm.depth, depth' := congrArg (· + 1) hm.depth' }
      have hcalled := follows_then (follows_enterFunction f vs) fun frame => h frame f.body
      exact follows_endCall (hcalled _ _ hinside)

/-- Plans that match are carried out in step. -/
theorem follows_plan (hbody : ∀ d frame stmts, T (d + 1) (.executeBody frame stmts)
      (.executeBody frame (L.body stmts)) Eq)
    (hrun : ∀ d t t' V, T d t t' V → L.Follows d V (run t) (run' t'))
    {p : Plan α} {q : Plan β} (h : p.Matches L T d W q) : L.Follows d W (p.run run) (q.run run') := by
  induction h with
  | done hW => exact follows_pure hW
  | act V hx _ ih => exact follows_bind hx ih
  | task V ht _ ih => exact follows_bind (hrun _ _ _ _ ht) ih
  | function ref vs _ ih =>
    exact follows_then
      (follows_callFunction (fun frame stmts => hrun _ _ _ _ (hbody _ frame stmts)) ref vs) ih
  | @skip _ x p q a hx _ ih =>
    intro m m' hm
    change L.Ends d W ((x >>= fun a => (p a).run run) m) _
    rw [bind_eq, hx m hm.depth]
    exact ih m m' hm

/-- Tasks whose plans match are done in step. The induction is on the bound. -/
theorem follows_run (hbody : ∀ d frame stmts, T (d + 1) (.executeBody frame stmts)
      (.executeBody frame (L.body stmts)) Eq)
    (hplan : ∀ d t t' V, T d t t' V → t.plan.Matches L T d V t'.plan) (n d : Nat) (t t' : Task)
    (V : t.Result → t'.Result → Prop) (h : T d t t' V) : L.Follows d V (t.run n) (t'.run n) := by
  induction n generalizing d t t' V with
  | zero =>
    rw [run_zero, run_zero]
    exact follows_starve
  | succ n ih =>
    rw [Tasks.run_succ, Tasks.run_succ]
    exact follows_plan hbody ih (hplan d t t' V h)

/-- A plan matches itself if its own actions are done alike and its tasks go together with themselves. -/
theorem matches_self {p : Plan α} (hacts : p.Acts fun x => L.Follows d Eq x x)
    (htasks : p.Tasks 0 fun t => T d t t Eq) : p.Matches L T d Eq p := by
  induction p with
  | done a => exact .done rfl
  | act x next ih =>
    -- the tasks behind an action are known only for the values that it gives
    refine .act (fun a b => a = b ∧ ∃ m m', x m = .done a m') (fun m m' hm => ?_) ?_
    · have hends := hacts.1 m m' hm
      generalize hx : x m = o at hends
      generalize x m' = o' at hends
      cases hends with
      | done hV hm' => exact .done ⟨hV, m, _, hx⟩ hm'
      | fault e hm' => exact .fault e hm'
      | excused he m _ => exact .excused he m _
      | starved => exact .starved
    · rintro a _ ⟨rfl, m, m', hx⟩
      exact ih a (hacts.2 a) (htasks m a m' (Nat.zero_le _) hx)
  | task t next ih =>
    refine .task Eq htasks.1 ?_
    rintro a _ rfl
    exact ih a (hacts a) (htasks.2 a)
  | function ref vs next ih => exact .function ref vs fun v => ih v (hacts v) (htasks v)

end Plans

section Itself

/-- Where the bodies of functions are the same, what a task does by itself is done alike. -/
theorem acts_itself (hbody : L.body = id) (d : Nat) (t : Task) : t.plan.Acts fun x => L.Follows d Eq x x :=
  acts_mono (fun hown => own_follows hown fun _ _ _ body _ => congrFun hbody body) (own_plan t)

theorem plan_itself (hbody : L.body = id) (d : Nat) (t : Task) : t.plan.Matches L Task.Itself d Eq t.plan :=
  matches_self (acts_itself hbody d t) (tasks_mono (Nat.le_refl 0) (fun t _ => .refl d t) (plan_parts 0 t))

/-- Where the bodies of functions are the same, every task is done in step with itself. -/
theorem run_itself (hbody : L.body = id) (n d : Nat) (t : Task) : L.Follows d Eq (t.run n) (t.run n) := by
  refine follows_run (T := Task.Itself) (fun d frame stmts => ?_) ?_ n d t t Eq (.refl d t)
  · rw [hbody]
    exact .refl (d + 1) (.executeBody frame stmts)
  · intro d t t' V h
    cases h
    exact plan_itself hbody d t

end Itself

end Proofs.Lockstep

end Scriptlet
