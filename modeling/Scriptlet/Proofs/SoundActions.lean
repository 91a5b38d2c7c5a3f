import Scriptlet.Proofs.Contents
import Scriptlet.Proofs.Parts

namespace Scriptlet

/-- If the value is a function, the frame in which it was declared has a constant of its name with this
function. -/
def Value.SeesItself (s : Store) : Value → Prop
  | .function ref => ∃ f, s.functions[ref]? = some f ∧
      s.bindingIn? f.closure f.name = some ⟨.function ref, true⟩
  | _ => True

/-- All of some values see themselves. -/
def Store.Knows (s : Store) (vs : List Value) : Prop :=
  ∀ v ∈ vs, v.SeesItself s

/-- A value that sees itself wherever the known values do. -/
def Value.Vouched (known : List Value) (v : Value) : Prop :=
  ∀ s : Store, s.Knows known → v.SeesItself s

/-- Everything that the machine holds sees itself. -/
def Machine.Sound (m : Machine) : Prop :=
  ∀ v, m.Contains v → v.SeesItself m.store

/-- Outcomes on a sound machine with values that see themselves. -/
def Outcome.Sound {α : Type} (told : α → List Value) : Outcome α → Prop
  | .done a m => m.Sound ∧ m.store.Knows (told a)
  | .fault _ m => m.Sound
  | .starved => True

/-- On a sound machine, and if the known values see themselves, the action leaves a sound machine and gives
values that see themselves. -/
def Action.Tells {α : Type} (known : List Value) (told : α → List Value) (x : Action α) : Prop :=
  ∀ m, m.Sound → m.store.Knows known → (x m).Sound told

/-- The first part of the declaration of a function: it has its name, and nothing is enclosed yet. -/
def Machine.nameFunction (frame : Nat) (name : String) (parameters : List String) (body : List Stmt) :
    Action Unit := do
  let v ← Action.allocate fun s => s.addFunction ⟨name, parameters, body, frame⟩
  declare frame name v true

/-- The value that a native always gives, if it is of this kind. -/
def Native.given (n : Native) : List Value :=
  match n.behaviour with
  | .constantly v => [v]
  | _ => []

namespace Proofs.SoundActions
open Machine Plans OwnActions Parts Contents

variable {α β : Type} {known : List Value}

section Values

variable {s t : Store} {v : Value} {vs ws : List Value}

theorem sees_of_kind (h : v.kind ≠ .function) : v.SeesItself s := by
  cases v with
  | function ref => exact (h rfl).elim
  | _ => trivial

theorem bindingIn_grows (h : s.Grows t) {frame : Nat} {name : String} {v : Value}
    (hb : s.bindingIn? frame name = some ⟨v, true⟩) : t.bindingIn? frame name = some ⟨v, true⟩ := by
  obtain ⟨f, hf, hb⟩ := Option.bind_eq_some_iff.mp hb
  obtain ⟨g, hg, hkeeps⟩ := h.frames frame f hf
  obtain ⟨⟨w, constant⟩, hw, hconstant, hvalue⟩ := hkeeps.bindings name _ hb
  cases hconstant
  cases hvalue rfl
  exact Option.bind_eq_some_iff.mpr ⟨g, hg, hw⟩

/-- Constants and functions stay, so what sees itself goes on to do so. -/
theorem sees_grows (h : s.Grows t) (hv : v.SeesItself s) : v.SeesItself t := by
  cases v with
  | function ref =>
    obtain ⟨f, hf, hb⟩ := hv
    obtain ⟨g, hg, rfl⟩ := h.functions ref f hf
    exact ⟨f, hg, bindingIn_grows h hb⟩
  | _ => trivial

theorem knows_grows (h : s.Grows t) (hvs : s.Knows vs) : t.Knows vs :=
  fun v hv => sees_grows h (hvs v hv)

theorem vouched_of_mem (h : v ∈ vs) : v.Vouched vs :=
  fun _ hvs => hvs v h

theorem vouched_of_kind (h : v.kind ≠ .function) : v.Vouched vs :=
  fun _ _ => sees_of_kind h

@[simp] theorem knows_nil : s.Knows [] :=
  fun v hv => by cases hv

@[simp] theorem knows_cons : s.Knows (v :: vs) ↔ v.SeesItself s ∧ s.Knows vs :=
  List.forall_mem_cons

@[simp] theorem knows_append : s.Knows (vs ++ ws) ↔ s.Knows vs ∧ s.Knows ws :=
  List.forall_mem_append

end Values

section Actions

variable {told : α → List Value} {between : β → List Value}

theorem tells_bind {x : Action β} {f : β → Action α} (hruns : x.Runs) (hx : x.Tells known between)
    (hf : ∀ a, (f a).Tells (between a ++ known) told) : (x >>= f).Tells known told := by
  intro m hm hknown
  have hend := hx m hm hknown
  have hrun := hruns m
  rw [bind_eq]
  cases hxm : x m with
  | done a m' =>
    rw [hxm] at hend hrun
    obtain ⟨hm', hbetween⟩ := hend
    exact hf a m' hm' (knows_append.mpr ⟨hbetween, knows_grows (StoreGrowth.runs_grows hrun) hknown⟩)
  | fault e m' =>
    rw [hxm] at hend
    exact hend
  | starved => trivial

theorem tells_then {x : Action β} {f : β → Action α} (hruns : x.Runs) (hx : x.Tells known fun _ => [])
    (hf : ∀ a, (f a).Tells known told) : (x >>= f).Tells known told :=
  tells_bind hruns hx hf

theorem tells_pure {a : α} (h : ∀ s : Store, s.Knows known → s.Knows (told a)) :
    Action.Tells known told (pure a : Action α) :=
  fun m hm hknown => ⟨hm, h m.store hknown⟩

theorem tells_fail (e : Fault) : Action.Tells known told (Action.fail e : Action α) :=
  fun _ hm _ => hm

theorem tells_ite {p : Prop} [Decidable p] {x y : Action α} (hx : x.Tells known told)
    (hy : y.Tells known told) :
    Action.Tells known told (if p then x else y) := by
  split
  · exact hx
  · exact hy

theorem tells_look {f : Machine → α} (h : ∀ m : Machine, m.Sound → m.store.Knows (told (f m))) :
    (Action.look f).Tells known told :=
  fun m hm _ => ⟨hm, h m hm⟩

theorem tells_read {f : Store → Except Fault α}
    (h : ∀ s a, f s = .ok a → ∀ v ∈ told a, s.Contains v ∨ v.Vouched known) :
    (Action.read f).Tells known told := by
  intro m hm hknown
  unfold Action.read
  split
  · rename_i a ha
    refine ⟨hm, fun v hv => ?_⟩
    rcases h m.store a ha v hv with hheld | hvouched
    · exact hm v (.inl hheld)
    · exact hvouched m.store hknown
  · exact hm

/-- A machine stays sound if its store grows and what is new in it sees itself. -/
theorem sound_grows {m : Machine} (hm : m.Sound) {s : Store} (hgrows : m.store.Grows s)
    (h : ∀ v, s.Contains v → m.store.Contains v ∨ v.SeesItself s) :
    ({ m with store := s } : Machine).Sound := by
  rintro v (hstored | hwaiting)
  · rcases h v hstored with hold | hnew
    · exact sees_grows hgrows (hm v (.inl hold))
    · exact hnew
  · exact sees_grows hgrows (hm v (.inr hwaiting))

theorem sound_edit {m : Machine} (hm : m.Sound) {e : Edit} (hadmits : m.store.Admits e)
    (h : ∀ v, e.value? = some v → v.SeesItself m.store) :
    ({ m with store := m.store.apply e } : Machine).Sound := by
  have hgrows := StoreGrowth.apply_grows hadmits
  exact sound_grows hm hgrows fun v hv => (contains_apply hv).imp_right fun hvalue =>
    sees_grows hgrows (h v hvalue)

theorem tells_update {f : Store → Except Fault Edit} (hadmits : ∀ s e, f s = .ok e → s.Admits e)
    (h : ∀ s e, f s = .ok e → ∀ v, e.value? = some v → v.Vouched known) :
    (Action.update f).Tells known fun _ => [] := by
  intro m hm hknown
  unfold Action.update
  split
  · rename_i e he
    exact ⟨sound_edit hm (hadmits _ e he) fun v hv => h _ e he v hv _ hknown, knows_nil⟩
  · exact hm

theorem tells_allocate {f : Store → α × Store} (hchange : ∀ s : Store, s.Change (f s).2)
    (h : ∀ s v, (f s).2.Contains v → s.Contains v ∨ v.Vouched known)
    (htold : ∀ s t : Store, t.Knows (told (f s).1)) :
    (Action.allocate f).Tells known told := by
  intro m hm hknown
  have hgrows := StoreGrowth.change_grows (hchange m.store)
  refine ⟨sound_grows hm hgrows fun v hv => ?_, htold _ _⟩
  exact (h m.store v hv).imp_right fun hvouched => sees_grows hgrows (hvouched m.store hknown)

theorem tells_declare (frame : Nat) (name : String) {value : Value} (constant : Bool)
    (h : value.Vouched known) :
    (declare frame name value constant).Tells known fun _ => [] := by
  refine tells_update (fun _ _ he => (Runs.admits_declare he).2) fun s e he v hv => ?_
  obtain ⟨rfl, _⟩ := Runs.admits_declare he
  cases hv
  exact h

theorem tells_declareStruct (frame : Nat) (name : String) (fields : List Field) :
    (declareStruct frame name fields).Tells known fun _ => [] := by
  have hadd : (Action.allocate fun s => s.addStruct ⟨name, fields⟩).Tells known fun v => [v] :=
    tells_allocate (fun s => .struct s _) (fun _ _ hv => .inl (contains_code hv)) fun _ _ => by
      simp [Store.addStruct, Value.SeesItself]
  refine tells_bind (Runs.runs_allocate fun s => .struct s _) hadd fun v => ?_
  exact tells_declare frame name true (vouched_of_mem List.mem_cons_self)

theorem tells_enter (frame : Nat) : (enter frame).Tells known fun _ => [] :=
  tells_allocate (fun s => .frame s _) (fun _ _ hv => .inl (contains_addFrame hv)) fun _ _ => knows_nil

theorem tells_addArray {values : Array Value} (h : ∀ v ∈ values, v.Vouched known) :
    (Action.allocate fun s => s.addArray values).Tells known fun v => [v] :=
  tells_allocate (fun s => .array s _) (fun _ v hv => (contains_addArray hv).imp_right (h v)) fun _ _ => by
    simp [Store.addArray, Value.SeesItself]

theorem tells_addObject {o : Object} (h : ∀ key v, (key, v) ∈ o.entries → v.Vouched known) :
    (Action.allocate fun s => s.addObject o).Tells known fun v => [v] := by
  refine tells_allocate (fun s => .object s _) (fun s v hv => ?_) fun _ _ => by
    simp [Store.addObject, Value.SeesItself]
  exact (contains_addObject hv).imp_right fun ⟨key, hkey⟩ => h key v hkey

theorem tells_guardReturn : guardReturn.Tells known fun _ => [] := by
  intro m hm _
  rw [guardReturn_eq]
  split
  · exact hm
  · exact ⟨hm, knows_nil⟩

theorem tells_bindParameters (frame : Nat) (names : List String) {vs : List Value}
    (h : ∀ v ∈ vs, v.Vouched known) :
    (bindParameters frame names vs).Tells known fun _ => [] := by
  induction names generalizing vs with
  | nil => exact tells_pure fun _ _ => knows_nil
  | cons p ps ih =>
    have hfirst : (vs.headD .null).Vouched known := by
      cases vs with
      | nil => exact vouched_of_kind Value.Kind.noConfusion
      | cons v vs => exact h v List.mem_cons_self
    refine tells_then (Runs.runs_declare _ _ _ _) (tells_declare frame p false hfirst) fun _ => ?_
    exact ih fun v hv => h v (List.mem_of_mem_tail hv)

theorem tells_enterFunction (f : Function) {vs : List Value} (h : ∀ v ∈ vs, v.Vouched known) :
    (enterFunction f vs).Tells known fun _ => [] := by
  refine tells_then (Runs.runs_enter _) (tells_enter _) fun frame => ?_
  refine tells_then (Runs.runs_bindParameters _ _ _) (tells_bindParameters frame f.parameters h) fun _ => ?_
  exact tells_pure fun _ _ => knows_nil

end Actions

section Declarations

theorem bindingIn_bind_self {s : Store} {frame : Nat} (hframe : frame < s.frames.size) {name : String}
    (hfree : s.declaresIn frame name = false) (b : Binding) :
    (s.apply (.bind frame name b)).bindingIn? frame name = some b := by
  have hdeclares := DeclaredNames.declaresIn_bind s hframe name b name
  rw [beq_self_eq_true, Bool.or_true] at hdeclares
  obtain ⟨b', hb'⟩ := Option.isSome_iff_exists.mp hdeclares
  rw [hb', Runs.bindingIn_bind hfree hb']

theorem nameFunction_eq (frame : Nat) (name : String) (parameters : List String) (body : List Stmt)
    (m : Machine) :
    nameFunction frame name parameters body m =
      declare frame name (.function m.store.functions.size) true
        { m with store := (m.store.addFunction ⟨name, parameters, body, frame⟩).2 } :=
  rfl

theorem declareFunction_eq (frame : Nat) (name : String) (parameters : List String) (body : List Stmt) :
    declareFunction frame name parameters body =
      nameFunction frame name parameters body >>= fun _ =>
        Action.update fun s => s.attachClosure frame name := by
  unfold declareFunction nameFunction
  exact (bind_assoc ..).symm

/-- A new function is in no variable until it has its name, and then it sees itself. -/
theorem tells_nameFunction (frame : Nat) (name : String) (parameters : List String) (body : List Stmt) :
    (nameFunction frame name parameters body).Tells known fun _ => [] := by
  intro m hm _
  let f : Function := ⟨name, parameters, body, frame⟩
  have hadded : ({ m with store := (m.store.addFunction f).2 } : Machine).Sound :=
    sound_grows hm (StoreGrowth.change_grows (.function m.store f)) fun v hv => .inl (contains_code hv)
  rw [nameFunction_eq, DeclaredNames.declare_eq]
  by_cases hdeclared : (m.store.addFunction f).2.declaresIn frame name = true
  · rw [if_pos hdeclared]
    exact hadded
  · rw [if_neg hdeclared]
    have hfree := Bool.eq_false_iff.mpr hdeclared
    have hgrows : (m.store.addFunction f).2.Grows ((m.store.addFunction f).2.apply
        (.bind frame name ⟨.function m.store.functions.size, true⟩)) := StoreGrowth.apply_grows hfree
    refine ⟨sound_grows hadded hgrows fun v hv => ?_, knows_nil⟩
    rcases contains_bind hv with hold | ⟨rfl, hframe⟩
    · exact .inl hold
    · exact .inr ⟨f, Array.getElem?_push_size, bindingIn_bind_self hframe hfree _⟩

theorem tells_declareFunction (frame : Nat) (name : String) (parameters : List String) (body : List Stmt) :
    (declareFunction frame name parameters body).Tells known fun _ => [] := by
  intro m hm hknown
  have hnamed := tells_nameFunction frame name parameters body m hm hknown
  rw [declareFunction_eq, bind_eq]
  rw [nameFunction_eq, DeclaredNames.declare_eq] at hnamed ⊢
  by_cases hdeclared : (m.store.addFunction ⟨name, parameters, body, frame⟩).2.declaresIn frame name = true
  · rw [if_pos hdeclared] at hnamed ⊢
    exact hnamed
  · rw [if_neg hdeclared] at hnamed ⊢
    obtain ⟨hsound, _⟩ := hnamed
    dsimp only [Action.update]
    split
    · rename_i e he
      have hadmits := Runs.admits_attachClosure rfl (Bool.eq_false_iff.mpr hdeclared) he
      obtain ⟨ref, rfl⟩ := DeclaredNames.attachClosure_ok he
      exact ⟨sound_edit hsound hadmits (by simp [Edit.value?]), knows_nil⟩
    · exact hsound

end Declarations

section Natives

variable {vs : List Value}

theorem tells_callback (name : String) (h : ∀ v ∈ vs, v.Vouched known) :
    (Behaviour.callback name vs).Tells known fun v => [v] := by
  cases vs with
  | nil => exact tells_fail _
  | cons v vs =>
    refine tells_ite (tells_pure fun s hs => ?_) (tells_fail _)
    simpa using h v List.mem_cons_self s hs

theorem tells_printAll (vs : List Value) : (Behaviour.printAll vs).Tells known fun _ => [] := by
  induction vs generalizing known with
  | nil => exact tells_pure fun _ _ => knows_nil
  | cons v vs ih =>
    exact tells_then (Runs.runs_modify fun m => .output m _) (fun _ hm _ => ⟨hm, knows_nil⟩)
      fun _ => ih

theorem tells_schedule {f : Schedule → Schedule} {callback : Value} (hcallback : callback.Vouched known)
    (h : ∀ s v, (f s).Contains v → s.Contains v ∨ v = callback) :
    (Action.modify fun m => { m with schedule := f m.schedule }).Tells known fun _ => [] := by
  intro m hm hknown
  refine ⟨?_, knows_nil⟩
  rintro v (hstored | hwaiting)
  · exact hm v (.inl hstored)
  · rcases h _ v hwaiting with hold | rfl
    · exact hm v (.inr hold)
    · exact hcallback m.store hknown

theorem tells_perform (name : String) (h : ∀ v ∈ vs, v.Vouched known) (behaviour : Behaviour)
    (hgiven : ∀ v, behaviour = .constantly v → v.Vouched known) :
    (behaviour.perform name vs).Tells known fun v => [v] := by
  have hnull {known : List Value} : Action.Tells known (fun v => [v]) (pure .null : Action Value) :=
    tells_pure fun _ _ => by simp [Value.SeesItself]
  cases behaviour with
  | print => exact tells_then (Runs.runs_printAll vs) (tells_printAll vs) fun _ => hnull
  | clear =>
    exact tells_then (Runs.runs_modify fun m => .output m _) (fun _ hm _ => ⟨hm, knows_nil⟩)
      fun _ => hnull
  | sqrt =>
    cases vs with
    | nil => exact tells_fail _
    | cons v vs => exact tells_pure fun _ _ => by simp [Value.SeesItself]
  | rand => exact fun m hm _ => ⟨hm, by simp [Value.SeesItself]⟩
  | addElement =>
    dsimp only [Behaviour.perform]
    split
    · rename_i ref vs
      have hfirst : (vs.headD .null).Vouched known := by
        cases vs with
        | nil => exact vouched_of_kind Value.Kind.noConfusion
        | cons v vs => exact h v (by simp)
      refine tells_then (Runs.runs_update fun s e he => ?_)
        (tells_update (fun s e he => ?_) fun s e he v hv => ?_)
        fun _ => hnull
      · cases he
        trivial
      · cases he
        trivial
      · cases he
        cases hv
        exact hfirst
    · exact hnull
  | time =>
    exact tells_then (Runs.runs_look _) (tells_look fun _ _ => knows_nil) fun _ =>
      tells_pure fun _ _ => by simp [Value.SeesItself]
  | interval =>
    refine tells_bind (Runs.runs_callback name vs) (tells_callback name h) fun f => ?_
    have hf : f.Vouched ([f] ++ known) := vouched_of_mem (by simp)
    exact tells_then (Runs.runs_modify fun m => .schedule m _)
      (tells_schedule (f := fun s => s.addInterval f _) hf fun _ _ => contains_addInterval) fun _ => hnull
  | nextFrame =>
    refine tells_bind (Runs.runs_callback name vs) (tells_callback name h) fun f => ?_
    have hf : f.Vouched ([f] ++ known) := vouched_of_mem (by simp)
    exact tells_then (Runs.runs_modify fun m => .schedule m _)
      (tells_schedule (f := fun s => s.requestFrame f) hf fun _ _ => contains_requestFrame) fun _ => hnull
  | collect => exact tells_addArray fun v hv => h v (by simpa using hv)
  | constantly v => exact tells_pure fun s hs => by simpa using hgiven v rfl s hs

theorem tells_nativeCall {native : Native} (h : ∀ v ∈ vs, v.Vouched known)
    (hgiven : ∀ v ∈ native.given, v.Vouched known) : (native.call vs).Tells known fun v => [v] := by
  have hperform := tells_perform native.name h native.behaviour fun v hv =>
    hgiven v (by simp [Native.given, hv])
  unfold Native.call
  split
  · exact tells_ite (tells_fail _) hperform
  · exact hperform

theorem tells_natives (ref : Nat) :
    (Action.look (·.store.natives[ref]?)).Tells known fun found => (found.map Native.given).getD [] := by
  refine tells_look fun m hm => ?_
  cases hn : m.store.natives[ref]? with
  | none => exact knows_nil
  | some native =>
    intro v hv
    have hbehaviour : native.behaviour = .constantly v := by
      change v ∈ native.given at hv
      unfold Native.given at hv
      split at hv
      · rename_i w hw
        rw [hw, List.mem_singleton.mp hv]
      · cases hv
    exact hm v (.inl (.given hn hbehaviour))

end Natives

end Proofs.SoundActions

end Scriptlet
