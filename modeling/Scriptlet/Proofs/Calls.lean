import Scriptlet.Proofs.OwnActions

namespace Scriptlet

/-- A call: of what, with what, and on which machine. -/
structure Call where
  callee : Value
  arguments : List Value
  machine : Machine

/-- A list made of how something ended, which is empty if it did not end as usual. -/
def Outcome.toList {α β : Type} (f : α → Machine → List β) : Outcome α → List β
  | .done a m => f a m
  | .fault _ _ | .starved => []

/-- The calls inside of a call of a user function, where `inner` lists those of its body. -/
def Machine.bodyCalls (inner : Task → Machine → List Call) (ref : Nat) (arguments : List Value)
    (m : Machine) :
    List Call :=
  match m.store.functions[ref]? with
  | none => []
  | some f =>
    if m.limit ≤ m.depth then []
    else (enterFunction f arguments { m with depth := m.depth + 1 }).toList fun frame m' =>
      inner (.executeBody frame f.body) m'

/-- The calls that are made while a plan is carried out, where `inner` lists those of its tasks. -/
def Plan.calls {α : Type} (run : (t : Task) → Action t.Result) (inner : Task → Machine → List Call) :
    Plan α → Machine → List Call
  | .done _, _ => []
  | .act x next, m => (x m).toList fun a m' => (next a).calls run inner m'
  | .task t next, m => inner t m ++ (run t m).toList fun a m' => (next a).calls run inner m'
  | .function ref arguments next, m =>
    Machine.bodyCalls inner ref arguments m ++
      (Machine.callFunction (fun frame stmts => run (.executeBody frame stmts)) ref arguments m).toList
        fun v m' =>
        (next v).calls run inner m'

namespace Task

/-- The call that a task is, if it is one. -/
def asCall (m : Machine) : Task → List Call
  | .call f arguments => [⟨f, arguments, m⟩]
  | _ => []

/-- The calls that are made while a task is done within a bound, the task itself first. -/
def calls : Nat → Task → Machine → List Call
  | 0, _, _ => []
  | n + 1, t, m => t.asCall m ++ t.plan.calls (Task.run n) (calls n) m

/-- Whether a task is a call of a native. -/
def isNativeCall : Task → Bool
  | .call (.native _) _ => true
  | _ => false

end Task

/-- Whether a native is given enough arguments. -/
def Native.accepts (n : Native) (arguments : List Value) : Bool :=
  n.arity.getD 0 ≤ arguments.length

/-- The native that is called, if there is one. -/
def Call.native? (c : Call) : Option Native :=
  match c.callee with
  | .native ref => c.machine.store.natives[ref]?
  | _ => none

/-- What calls make of a machine. Its store and its count of calls may change at any time; all else changes
only where a native is called, by what that native does. -/
inductive Machine.Through : Machine → List Call → Machine → Prop where
  | quiet (m : Machine) (store : Store) (depth : Nat) : Through m [] { m with store := store, depth := depth }
  | trans {a b c : Machine} {cs ds : List Call} (hab : Through a cs b) (hbc : Through b ds c) :
      Through a (cs ++ ds) c
  | idle {c : Call} (h : c.native? = none) (m : Machine) : Through m [c] m
  | native {c : Call} {n : Native} {m : Machine} (h : c.native? = some n)
      (hend : (n.call c.arguments c.machine).machine? = some m) : Through c.machine [c] m

/-- Outcomes on a machine that the given calls lead to, whether there is a value or a fault. -/
def Outcome.Through {α : Type} (m : Machine) (calls : List Call) (o : Outcome α) : Prop :=
  ∀ m', o.machine? = some m' → m.Through calls m'

/-- An action that changes nothing but the store. -/
def Action.OnlyStore {α : Type} (x : Action α) : Prop :=
  ∀ m m', (x m).machine? = some m' → ∃ s, m' = { m with store := s }

/-- The callback that a native puts on the schedule for the next frame, if it is `nextFrame` and takes its
arguments. -/
def Native.request? (n : Native) (arguments : List Value) : Option Value :=
  match n.behaviour with
  | .nextFrame =>
    if arguments.length < n.arity.getD 0 then none else arguments.head?.filter Value.isSchedulable
  | _ => none

/-- The callback that a call puts on the schedule for the next frame. -/
def Call.request? (c : Call) : Option Value :=
  match c.callee with
  | .native ref => c.machine.store.natives[ref]?.bind fun n => n.request? c.arguments
  | _ => none

/-- The callbacks that some calls request for the next frame, in the order of the calls. -/
def Call.requests (calls : List Call) : List Value :=
  calls.filterMap Call.request?

/-- A schedule that goes on and has gained callbacks for the next frame. -/
structure Schedule.Gains (s : Schedule) (callbacks : List Value) (t : Schedule) : Prop where
  running : t.stopped = false
  frames : t.frames = s.frames ++ callbacks

/-- Outcomes with such a schedule, whether there is a value or a fault. -/
def Outcome.Gains {α : Type} (s : Schedule) (callbacks : List Value) : Outcome α → Prop
  | .done _ m => s.Gains callbacks m.schedule
  | .fault _ m => s.Gains callbacks m.schedule
  | .starved => True

namespace Proofs.Calls
open Machine Plans OwnActions

variable {α β : Type}

section Keeps

theorem onlyStore_same {x : Action α} (h : ∀ m m', (x m).machine? = some m' → m' = m) : x.OnlyStore :=
  fun m m' hend => ⟨m.store, h m m' hend⟩

theorem onlyStore_bind {x : Action α} {f : α → Action β} (hx : x.OnlyStore) (hf : ∀ a, (f a).OnlyStore) :
    (x >>= f).OnlyStore := by
  intro m m' hend
  have hkept := hx m
  rw [bind_eq] at hend
  cases hxm : x m with
  | done a m₁ =>
    rw [hxm] at hend hkept
    obtain ⟨s, rfl⟩ := hkept m₁ rfl
    exact hf a { m with store := s } m' hend
  | fault e m₁ =>
    rw [hxm] at hend hkept
    exact hkept m' hend
  | starved =>
    rw [hxm] at hend
    cases hend

theorem onlyStore_pure (a : α) : (pure a : Action α).OnlyStore :=
  onlyStore_same fun _ _ hend => (Option.some.inj hend).symm

theorem onlyStore_fail (e : Fault) : (Action.fail e : Action α).OnlyStore :=
  onlyStore_same fun _ _ hend => (Option.some.inj hend).symm

theorem onlyStore_look (f : Machine → α) : (Action.look f).OnlyStore :=
  onlyStore_same fun _ _ hend => (Option.some.inj hend).symm

theorem onlyStore_read (f : Store → Except Fault α) : (Action.read f).OnlyStore := by
  refine onlyStore_same fun m m' hend => ?_
  unfold Action.read at hend
  split at hend
  · cases hend
    rfl
  · cases hend
    rfl

theorem onlyStore_update (f : Store → Except Fault Edit) : (Action.update f).OnlyStore := by
  intro m m' hend
  unfold Action.update at hend
  split at hend
  · cases hend
    exact ⟨_, rfl⟩
  · cases hend
    exact ⟨_, rfl⟩

theorem onlyStore_allocate (f : Store → α × Store) : (Action.allocate f).OnlyStore := by
  intro m m' hend
  cases hend
  exact ⟨_, rfl⟩

theorem onlyStore_bindParameters (frame : Nat) (names : List String) (vs : List Value) :
    (bindParameters frame names vs).OnlyStore := by
  induction names generalizing vs with
  | nil => exact onlyStore_pure ()
  | cons p ps ih => exact onlyStore_bind (onlyStore_update _) fun _ => ih vs.tail

theorem onlyStore_enterFunction (f : Function) (vs : List Value) : (enterFunction f vs).OnlyStore :=
  onlyStore_bind (onlyStore_allocate _) fun frame =>
    onlyStore_bind (onlyStore_bindParameters frame f.parameters vs) fun _ => onlyStore_pure frame

theorem onlyStore_guardReturn : guardReturn.OnlyStore := by
  refine onlyStore_same fun m m' hend => ?_
  rw [guardReturn_eq] at hend
  split at hend
  · cases hend
    rfl
  · cases hend
    rfl

/-- Of what tasks do by themselves, only the call of a native changes more than the store. -/
theorem own_onlyStore {t : Task} (ht : t.isNativeCall = false) {x : Action α} (h : t.Own x) :
    x.OnlyStore := by
  cases h with
  | look _ f => exact onlyStore_look _
  | read _ hf => exact onlyStore_read _
  | update _ hok hf => exact onlyStore_update _
  | addArray _ values => exact onlyStore_allocate _
  | addObject _ object => exact onlyStore_allocate _
  | enter _ frame => exact onlyStore_allocate _
  | native ref native arguments => cases ht
  | refuse _ he => exact onlyStore_fail _
  | declare frame name value constant e => exact onlyStore_update _
  | declareStruct frame name fields => exact onlyStore_bind (onlyStore_allocate _) fun _ => onlyStore_update _
  | declareFunction frame name parameters body =>
    exact onlyStore_bind (onlyStore_allocate _) fun _ => onlyStore_bind (onlyStore_update _) fun _ =>
      onlyStore_update _
  | guardReturn frame e => exact onlyStore_guardReturn
  | refuseKey frame he => exact onlyStore_fail _

theorem onlyStore_installConstants (frame : Nat) (constants : List (String × Value)) :
    (Toolbox.installConstants frame constants).OnlyStore := by
  induction constants with
  | nil => exact onlyStore_pure ()
  | cons c cs ih => exact onlyStore_bind (onlyStore_update _) fun _ => ih

theorem onlyStore_installTools (frame : Nat) (tools : List Tool) :
    (Toolbox.installTools frame tools).OnlyStore := by
  induction tools with
  | nil => exact onlyStore_pure ()
  | cons t ts ih =>
    exact onlyStore_bind (onlyStore_allocate _) fun _ => onlyStore_bind (onlyStore_update _) fun _ => ih

theorem onlyStore_install (box : Toolbox) (frame : Nat) : (box.install frame).OnlyStore :=
  onlyStore_bind (onlyStore_installConstants frame _) fun _ => onlyStore_installTools frame _

end Keeps

section Runs

variable {m : Machine} {cs : List Call}

theorem through_refl (m : Machine) : m.Through [] m :=
  .quiet m m.store m.depth

theorem through_onlyStore {x : Action α} (hx : x.OnlyStore) (m : Machine) : (x m).Through m [] := by
  intro m' hend
  obtain ⟨s, rfl⟩ := hx m m' hend
  exact .quiet m s m.depth

/-- The calls of an action and then those of what follows it. -/
theorem through_bind {x : Action α} {f : α → Action β} {calls : α → Machine → List Call}
    (hx : (x m).Through m cs) (hf : ∀ a m', x m = .done a m' → (f a m').Through m' (calls a m')) :
    ((x >>= f) m).Through m (cs ++ (x m).toList calls) := by
  intro m' hend
  rw [bind_eq] at hend
  cases hxm : x m with
  | done a m₁ =>
    rw [hxm] at hend hx
    exact .trans (hx m₁ rfl) (hf a m₁ hxm m' hend)
  | fault e m₁ =>
    rw [hxm] at hend hx
    exact .trans (hx m' hend) (through_refl m')
  | starved =>
    rw [hxm] at hend
    cases hend

/-- A call that is counted while its body runs. -/
theorem through_endCall {x : Action α} {d : Nat}
    (h : (x { m with depth := d }).Through { m with depth := d } cs) :
    (endCall x { m with depth := d }).Through m cs := by
  intro m' hend
  have hback {m₁ : Machine} (h₁ : Machine.Through { m with depth := d } cs m₁) :
      m.Through cs { m₁ with depth := m₁.depth - 1 } := by
    have hinside := Machine.Through.trans (.quiet m m.store d) (.trans h₁ (.quiet m₁ m₁.store (m₁.depth - 1)))
    rwa [List.append_nil] at hinside
  unfold endCall at hend
  cases hx : x { m with depth := d } with
  | done a m₁ =>
    rw [hx] at h hend
    cases hend
    exact hback (h m₁ rfl)
  | fault e m₁ =>
    rw [hx] at h hend
    cases hend
    exact hback (h m₁ rfl)
  | starved =>
    rw [hx] at hend
    cases hend

variable {run : (t : Task) → Action t.Result} {inner : Task → Machine → List Call}

theorem through_callFunction (hinner : ∀ t m, (run t m).Through m (inner t m)) (ref : Nat) (vs : List Value)
    (m : Machine) :
    (callFunction (fun frame stmts => run (.executeBody frame stmts)) ref vs m).Through m
      (bodyCalls inner ref vs m) := by
  rw [callFunction_eq]
  unfold bodyCalls
  cases hf : m.store.functions[ref]? with
  | none => exact through_onlyStore (onlyStore_pure _) m
  | some f =>
    dsimp only
    by_cases hfull : m.limit ≤ m.depth
    · rw [if_pos hfull, if_pos hfull]
      exact through_onlyStore (onlyStore_fail (α := Value) _) m
    · rw [if_neg hfull, if_neg hfull]
      have hentry := through_onlyStore (onlyStore_enterFunction f vs) { m with depth := m.depth + 1 }
      exact through_endCall (through_bind hentry fun frame m' _ => hinner _ m')

/-- A plan makes the calls of its tasks and of the functions that it calls, if its own actions change only the
store. -/
theorem through_plan (hinner : ∀ t m, (run t m).Through m (inner t m)) {p : Plan α}
    (hacts : p.Acts Action.OnlyStore) (m : Machine) : (p.run run m).Through m (p.calls run inner m) := by
  induction p generalizing m with
  | done a => exact through_onlyStore (onlyStore_pure a) m
  | act x next ih => exact through_bind (through_onlyStore hacts.1 m) fun a m' _ => ih a (hacts.2 a) m'
  | task t next ih => exact through_bind (hinner t m) fun a m' _ => ih a (hacts a) m'
  | function ref vs next ih =>
    exact through_bind (through_callFunction hinner ref vs m) fun v m' _ => ih v (hacts v) m'

/-- A native calls nothing, so that the call of it is all there is. -/
theorem calls_native (n ref : Nat) (vs : List Value) (m : Machine) :
    (Task.call (.native ref) vs).calls (n + 1) m = [⟨.native ref, vs, m⟩] := by
  have hnone : (Task.call (.native ref) vs).plan.calls (Task.run n) (Task.calls n) m = [] := by
    dsimp only [Task.plan, Plan.calls, Action.look, Outcome.toList]
    cases m.store.natives[ref]? with
    | none => rfl
    | some native =>
      change (native.call vs m).toList (fun _ _ => ([] : List Call)) = []
      cases native.call vs m <;> rfl
  unfold Task.calls Task.asCall
  rw [hnone]
  rfl

theorem through_native (n ref : Nat) (vs : List Value) (m : Machine) :
    (call (n + 1) (.native ref) vs m).Through m [⟨.native ref, vs, m⟩] := by
  intro m' hend
  unfold call at hend
  rw [bind_eq] at hend
  dsimp only [Action.look] at hend
  cases hfound : m.store.natives[ref]? with
  | none =>
    rw [hfound] at hend
    cases hend
    exact .idle (c := ⟨.native ref, vs, m⟩) hfound m
  | some native =>
    rw [hfound] at hend
    exact .native (c := ⟨.native ref, vs, m⟩) hfound hend

theorem native_of_isNativeCall {t : Task} (h : t.isNativeCall = true) :
    ∃ ref vs, t = .call (.native ref) vs := by
  unfold Task.isNativeCall at h
  split at h
  · exact ⟨_, _, rfl⟩
  · cases h

theorem through_other {t : Task} (ht : t.isNativeCall = false) (m : Machine) : m.Through (t.asCall m) m := by
  cases t with
  | call f vs =>
    cases f with
    | native ref => cases ht
    | _ => exact .idle rfl m
  | _ => exact through_refl m

/-- A task leads where its calls lead. The induction is on the bound. -/
theorem through_run (n : Nat) (t : Task) (m : Machine) : (t.run n m).Through m (t.calls n m) := by
  induction n generalizing t m with
  | zero =>
    rw [run_zero]
    exact nofun
  | succ n ih =>
    by_cases ht : t.isNativeCall = true
    · obtain ⟨ref, vs, rfl⟩ := native_of_isNativeCall ht
      rw [calls_native]
      exact through_native n ref vs m
    · have hother := Bool.eq_false_iff.mpr ht
      have hacts := acts_mono (fun hx => own_onlyStore hother hx) (own_plan t)
      rw [Tasks.run_succ]
      exact fun m' hend => .trans (through_other hother m) (through_plan ih hacts m m' hend)

end Runs

section Schedules

variable {s t u : Schedule} {rs rs' : List Value}

theorem gains_refl (h : s.stopped = false) : s.Gains [] s :=
  ⟨h, (List.append_nil _).symm⟩

theorem gains_trans (hst : s.Gains rs t) (htu : t.Gains rs' u) : s.Gains (rs ++ rs') u := by
  refine ⟨htu.running, ?_⟩
  rw [htu.frames, hst.frames, List.append_assoc]

theorem gains_of_machine {o : Outcome α} (h : ∀ m, o.machine? = some m → s.Gains rs m.schedule) :
    o.Gains s rs := by
  cases o with
  | done a m => exact h m rfl
  | fault e m => exact h m rfl
  | starved => trivial

theorem gains_of_onlyStore {x : Action α} (hx : x.OnlyStore) {m : Machine} (h : m.schedule.stopped = false) :
    (x m).Gains m.schedule [] := by
  refine gains_of_machine fun m' hend => ?_
  obtain ⟨s, rfl⟩ := hx m m' hend
  exact gains_refl h

end Schedules

section Natives

/-- All values are written as the store shows them; nothing that is written changes the store. -/
theorem printAll_eq (vs : List Value) (m : Machine) :
    Behaviour.printAll vs m =
      .done () { m with output := (vs.map m.store.display).foldl Output.write m.output } := by
  induction vs generalizing m with
  | nil => rfl
  | cons v vs ih => exact ih { m with output := m.output.write (m.store.display v) }

/-- What adding an element does, where the first argument is an array, is done to the store alone. -/
theorem onlyStore_addElement (name : String) (vs : List Value) :
    (Behaviour.addElement.perform name vs).OnlyStore := by
  dsimp only [Behaviour.perform]
  split
  · exact onlyStore_bind (onlyStore_update _) fun _ => onlyStore_pure _
  · exact onlyStore_pure _

theorem addInterval_gains {s : Schedule} (h : s.stopped = false) (callback : Value) (period : Float) :
    s.Gains [] (s.addInterval callback period) := by
  unfold Schedule.addInterval
  rw [if_neg (Bool.eq_false_iff.mp h)]
  exact ⟨h, (List.append_nil _).symm⟩

theorem requestFrame_gains {s : Schedule} (h : s.stopped = false) (callback : Value) :
    s.Gains [callback] (s.requestFrame callback) := by
  unfold Schedule.requestFrame
  rw [if_neg (Bool.eq_false_iff.mp h)]
  exact ⟨h, rfl⟩

/-- Natives that put a callback on the schedule do so if their first argument can be scheduled. -/
theorem register_gains {register : Schedule → Value → Schedule} {gained : Value → List Value}
    (hregister : ∀ (s : Schedule) v, s.stopped = false → s.Gains (gained v) (register s v)) (name : String)
    (vs : List Value) {m : Machine} (h : m.schedule.stopped = false) :
    ((Behaviour.callback name vs >>= fun f =>
      Action.modify (fun m => { m with schedule := register m.schedule f }) >>= fun _ =>
        pure Value.null) m).Gains m.schedule
        ((vs.head?.filter Value.isSchedulable).toList.flatMap gained) := by
  cases vs with
  | nil => exact gains_refl h
  | cons v vs =>
    rw [bind_eq]
    dsimp only [Behaviour.callback, List.head?_cons, Option.filter_some]
    by_cases hv : v.isSchedulable = true
    · rw [if_pos hv, if_pos hv, Option.toList_some, List.flatMap_singleton]
      exact hregister m.schedule v h
    · rw [if_neg hv, if_neg hv]
      exact gains_refl h

/-- A native adds to the schedule what it requests. -/
theorem perform_gains (n : Native) (vs : List Value) {m : Machine} (h : m.schedule.stopped = false)
    (henough : ¬vs.length < n.arity.getD 0) :
    (n.behaviour.perform n.name vs m).Gains m.schedule (n.request? vs).toList := by
  obtain ⟨name, arity, behaviour⟩ := n
  cases behaviour with
  | print =>
    dsimp only [Behaviour.perform]
    rw [bind_eq, printAll_eq]
    exact gains_refl h
  | clear => exact gains_refl h
  | sqrt => cases vs <;> exact gains_refl h
  | rand => exact gains_refl h
  | addElement => exact gains_of_onlyStore (onlyStore_addElement name vs) h
  | time => exact gains_refl h
  | interval =>
    have hgains (period : Float) := register_gains (fun s v hs => addInterval_gains hs v period) name vs h
    rw [List.flatMap_eq_nil_iff.mpr fun _ _ => rfl] at hgains
    exact hgains _
  | nextFrame =>
    have hgains := register_gains (fun s v hs => requestFrame_gains hs v) name vs h
    rw [List.flatMap_singleton'] at hgains
    unfold Native.request?
    rw [if_neg henough]
    exact hgains
  | collect => exact gains_refl h
  | constantly v => exact gains_refl h

theorem nativeCall_eq (n : Native) (vs : List Value) (m : Machine) : n.call vs m =
    if n.accepts vs then n.behaviour.perform n.name vs m
    else .fault (.native n.name (.tooFewArguments (n.arity.getD 0) vs.length)) m := by
  obtain ⟨name, arity, behaviour⟩ := n
  cases arity with
  | none => rfl
  | some k =>
    by_cases hfew : vs.length < k
    · have hrefuses : Native.accepts ⟨name, some k, behaviour⟩ vs = false :=
        decide_eq_false (Nat.not_le_of_lt hfew)
      rw [hrefuses]
      exact congrFun (if_pos hfew) m
    · have haccepts : Native.accepts ⟨name, some k, behaviour⟩ vs = true :=
        decide_eq_true (Nat.le_of_not_lt hfew)
      rw [haccepts]
      exact congrFun (if_neg hfew) m

theorem nativeCall_gains (n : Native) (vs : List Value) {m : Machine} (h : m.schedule.stopped = false) :
    (n.call vs m).Gains m.schedule (n.request? vs).toList := by
  rw [nativeCall_eq]
  by_cases haccepts : n.accepts vs = true
  · rw [if_pos haccepts]
    exact perform_gains n vs h (Nat.not_lt_of_le (of_decide_eq_true haccepts))
  · have hfew : vs.length < n.arity.getD 0 := Nat.lt_of_not_le fun hle => haccepts (decide_eq_true hle)
    have hnothing : n.request? vs = none := by
      obtain ⟨name, arity, behaviour⟩ := n
      cases behaviour with
      | nextFrame => exact if_pos hfew
      | _ => rfl
    rw [if_neg haccepts, hnothing]
    exact gains_refl h

end Natives

section Requests

theorem request_eq (c : Call) : c.request? = c.native?.bind fun n => n.request? c.arguments := by
  obtain ⟨f, vs, m⟩ := c
  cases f <;> rfl

theorem requests_singleton (c : Call) : Call.requests [c] = c.request?.toList := by
  unfold Call.requests
  cases hc : c.request? with
  | none =>
    rw [List.filterMap_cons_none hc]
    rfl
  | some v =>
    rw [List.filterMap_cons_some hc]
    rfl

/-- Calls lead to a schedule that has gained what they request. -/
theorem gains_through {m m' : Machine} {cs : List Call} (h : m.Through cs m')
    (hlive : m.schedule.stopped = false) :
    m.schedule.Gains (Call.requests cs) m'.schedule := by
  induction h with
  | quiet m store depth => exact gains_refl hlive
  | trans _ _ ihab ihbc =>
    rw [Call.requests, List.filterMap_append]
    exact gains_trans (ihab hlive) (ihbc (ihab hlive).running)
  | idle hc m =>
    rw [requests_singleton, request_eq, hc]
    exact gains_refl hlive
  | @native c n m hc hend =>
    rw [requests_singleton, request_eq, hc]
    have hgains := nativeCall_gains n c.arguments hlive
    cases hcall : n.call c.arguments c.machine with
    | done v m₁ =>
      rw [hcall] at hend hgains
      cases hend
      exact hgains
    | fault e m₁ =>
      rw [hcall] at hend hgains
      cases hend
      exact hgains
    | starved =>
      rw [hcall] at hend
      cases hend

/-- While a task is done, the next frame gains the callbacks that were requested, in the order of the
calls. -/
theorem gains_run (n : Nat) (t : Task) {m : Machine} (h : m.schedule.stopped = false) :
    (t.run n m).Gains m.schedule (Call.requests (t.calls n m)) :=
  gains_of_machine fun m' hend => gains_through (through_run n t m m' hend) h

end Requests

end Proofs.Calls

end Scriptlet
