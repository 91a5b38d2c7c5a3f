import Scriptlet.Proofs.Bodies
import Scriptlet.Proofs.PlainActions

namespace Scriptlet

/-- The name that a statement declares, if it is a declaration. -/
def Stmt.declared? : Stmt → Option String
  | .structDecl name _ | .fnDecl name _ _ | .varDecl name _ _ => some name
  | .ret _ | .ifThen .. | .whileDo .. | .expr _ => none

/-- The actions that a task does by itself. Only declarations declare, only a return asks whether a call is
under way, only a call of a native does what natives do, and only a key that is no name is refused as
irregular. None of them looks at the bodies of functions. -/
inductive Task.Own : Task → {β : Type} → Action β → Prop where
  | look (t : Task) {β : Type} (f : Store → β) (hblind : Store.Blind f) :
      t.Own (Action.look fun m => f m.store)
  | read (t : Task) {β : Type} {f : Store → Except Fault β}
      (hf : ∀ s e, f s = .error e → e.isIrregular = false) (hblind : Store.Blind f) : t.Own (Action.read f)
  | update (t : Task) {f : Store → Except Fault Edit}
      (hok : ∀ s e, f s = .ok e → s.Admits e ∧ e.isWrite = true)
      (hf : ∀ s e, f s = .error e → e.isIrregular = false) (hblind : Store.Blind f) : t.Own (Action.update f)
  | addArray (t : Task) (values : Array Value) : t.Own (Action.allocate fun s => s.addArray values)
  | addObject (t : Task) (object : Object) : t.Own (Action.allocate fun s => s.addObject object)
  | enter (t : Task) (frame : Nat) : t.Own (Machine.enter frame)
  | native (ref : Nat) (native : Native) (arguments : List Value) :
      Own (.call (.native ref) arguments) (native.call arguments)
  | refuse (t : Task) {β : Type} {e : Fault} (he : e.isIrregular = false) : t.Own (Action.fail (α := β) e)
  | declare (frame : Nat) (name : String) (value : Value) (constant : Bool) (e : Expr) :
      Own (.execute frame (.varDecl name constant e)) (Machine.declare frame name value constant)
  | declareStruct (frame : Nat) (name : String) (fields : List Field) :
      Own (.execute frame (.structDecl name fields)) (Machine.declareStruct frame name fields)
  | declareFunction (frame : Nat) (name : String) (parameters : List String) (body : List Stmt) :
      Own (.execute frame (.fnDecl name parameters body))
        (Machine.declareFunction frame name parameters body)
  | guardReturn (frame : Nat) (e : Expr) : Own (.execute frame (.ret e)) Machine.guardReturn
  | refuseKey (frame : Nat) {e : Expr} (he : ∀ name, e ≠ .identifier name) :
      Own (.evalKey frame e false) (Action.fail (α := Value) (.irregular (.memberName e.kindName)))

/-- A task may blame the tree: a return with no call under way, and a key that is neither computed nor a
name. -/
inductive Task.Blames : Task → Machine → Irregularity → Prop where
  | stray (frame : Nat) (e : Expr) {m : Machine} (h : m.depth = 0) :
      Blames (.execute frame (.ret e)) m .strayReturn
  | key (frame : Nat) {e : Expr} (he : ∀ name, e ≠ .identifier name) (m : Machine) :
      Blames (.evalKey frame e false) m (.memberName e.kindName)

namespace Proofs.OwnActions
open Machine Plans PlainActions Bodies

variable {α β : Type}

theorem acts_ite {P : {β : Type} → Action β → Prop} {p : Prop} [Decidable p] {x y : Plan α}
    (hx : x.Acts P) (hy : y.Acts P) : (if p then x else y).Acts P := by
  split
  · exact hx
  · exact hy

theorem own_eval (frame : Nat) (e : Expr) : (Task.eval frame e).plan.Acts (Task.eval frame e).Own := by
  cases e with
  | number x => trivial
  | text s => trivial
  | array es => exact fun vs => ⟨.addArray _ _, fun _ => trivial⟩
  | object ps => exact fun entries => ⟨.addObject _ _, fun _ => trivial⟩
  | identifier name => exact ⟨.read _ (fun _ _ => lookup_regular) (blind_lookup _ _), fun _ => trivial⟩
  | assign name e =>
    exact fun v => ⟨.update _ (fun _ _ h => ⟨Runs.admits_assign h, assign_write h⟩)
      (fun _ _ => assign_regular) (blind_assign _ _ _), fun _ => trivial⟩
  | call callee es => exact fun f vs v => trivial
  | member object key computed assignment =>
    cases assignment with
    | none =>
      exact fun target k => ⟨.read _ (fun _ _ => getMember_regular) (blind_getMember _ _), fun _ => trivial⟩
    | some e =>
      exact fun target k v => ⟨.update _ (fun _ _ h => ⟨Runs.admits_setMember h, setMember_write h⟩)
        (fun _ _ => setMember_regular) (blind_setMember _ _ _), fun _ => trivial⟩
  | boolean left op right => cases op <;> exact fun l r => trivial
  | binary left op right =>
    exact fun l r => ⟨.read _ (fun _ _ => binary_regular) (blind_binary _ _ _), fun _ => trivial⟩
  | logical left op equals right => exact fun l r => trivial
  | not e => exact fun v => trivial

theorem own_evalKey (frame : Nat) (e : Expr) (computed : Bool) :
    (Task.evalKey frame e computed).plan.Acts (Task.evalKey frame e computed).Own := by
  cases computed with
  | true => exact fun v => by cases e <;> trivial
  | false =>
    cases e with
    | identifier name => trivial
    | _ => exact ⟨.refuseKey frame (by simp), fun _ => trivial⟩

theorem own_execute (frame : Nat) (stmt : Stmt) :
    (Task.execute frame stmt).plan.Acts (Task.execute frame stmt).Own := by
  cases stmt with
  | expr e => exact fun v => trivial
  | varDecl name constant e => exact fun v => ⟨.declare frame name v constant e, fun _ => trivial⟩
  | structDecl name fields => exact ⟨.declareStruct frame name fields, fun _ => trivial⟩
  | fnDecl name parameters body => exact ⟨.declareFunction frame name parameters body, fun _ => trivial⟩
  | ret e => exact ⟨.guardReturn frame e, fun _ v => trivial⟩
  | ifThen test consequent =>
    exact fun t => acts_ite ⟨.enter _ frame, fun block flow => trivial⟩ trivial
  | whileDo test body => exact fun _ => trivial

theorem own_call (f : Value) (vs : List Value) : (Task.call f vs).plan.Acts (Task.call f vs).Own := by
  cases f with
  | function ref => exact fun v => trivial
  | native ref =>
    refine ⟨.look _ (fun s => s.natives[ref]?) fun _ _ => rfl, fun found => ?_⟩
    cases found with
    | none => trivial
    | some native => exact ⟨.native ref native vs, fun _ => trivial⟩
  | structType ref =>
    exact ⟨.read _ (fun _ _ => bindFields_regular) (blind_instantiate ref vs), fun object =>
      ⟨.addObject _ object, fun _ => trivial⟩⟩
  | _ =>
    exact ⟨.look _ (fun s => s.display _) (blind_display _), fun shown => ⟨.refuse _ rfl, fun _ => trivial⟩⟩

/-- Apart from other tasks and calls, a task does nothing but its own actions. -/
theorem own_plan (t : Task) : t.plan.Acts t.Own := by
  cases t with
  | eval frame e => exact own_eval frame e
  | evalAll frame es =>
    cases es with
    | nil => trivial
    | cons e es => exact fun v vs => trivial
  | evalProperties frame ps =>
    cases ps with
    | nil => trivial
    | cons p ps =>
      cases p with
      | shorthand key =>
        exact ⟨.read _ (fun _ _ => lookup_regular) (blind_lookup _ _), fun v entries => trivial⟩
      | valued key e => exact fun v entries => trivial
  | evalKey frame e computed => exact own_evalKey frame e computed
  | execute frame stmt => exact own_execute frame stmt
  | executeBlock frame stmts =>
    cases stmts with
    | nil => trivial
    | cons stmt stmts => exact fun flow => acts_ite trivial fun _ => trivial
  | executeAll frame stmts =>
    cases stmts with
    | nil => trivial
    | cons stmt stmts => exact fun _ _ => trivial
  | loop frame test body =>
    exact fun t => acts_ite ⟨.enter _ frame, fun turn _ _ => trivial⟩ trivial
  | call f vs => exact own_call f vs
  | executeBody frame stmts =>
    cases stmts with
    | nil => trivial
    | cons stmt stmts =>
      cases stmt with
      | ret e => exact fun v => trivial
      | ifThen test consequent =>
        intro flow
        cases flow with
        | normal v => exact fun _ => trivial
        | returned v => exact acts_ite trivial fun _ => trivial
      | _ => exact fun _ _ => trivial

theorem own_runs {t : Task} {x : Action α} (h : t.Own x) : x.Runs := by
  cases h with
  | look _ f => exact Runs.runs_look _
  | read _ hf => exact Runs.runs_read _
  | update _ hok hf => exact Runs.runs_update fun s e he => (hok s e he).1
  | addArray _ values => exact Runs.runs_allocate fun s => .array s values
  | addObject _ object => exact Runs.runs_allocate fun s => .object s object
  | enter _ frame => exact Runs.runs_enter frame
  | native _ native arguments => exact Runs.runs_nativeCall native arguments
  | refuse _ he => exact Runs.runs_fail _
  | declare frame name value constant e => exact Runs.runs_declare frame name value constant
  | declareStruct frame name fields => exact Runs.runs_declareStruct frame name fields
  | declareFunction frame name parameters body => exact Runs.runs_declareFunction frame name parameters body
  | guardReturn frame e =>
    exact Runs.runs_bind (Runs.runs_look _) fun _ => Runs.runs_ite (Runs.runs_fail _) (Runs.runs_pure ())
  | refuseKey frame he => exact Runs.runs_fail _

theorem proper_declare (frame : Nat) (name : String) (value : Value) (constant : Bool) :
    (declare frame name value constant).Proper :=
  proper_update fun _ _ => declare_regular

theorem proper_declareStruct (frame : Nat) (name : String) (fields : List Field) :
    (declareStruct frame name fields).Proper :=
  proper_bind (fun _ => rfl) fun v => proper_declare frame name v true

theorem proper_declareFunction (frame : Nat) (name : String) (parameters : List String) (body : List Stmt) :
    (declareFunction frame name parameters body).Proper :=
  proper_bind (fun _ => rfl) fun v => proper_bind (proper_declare frame name v true) fun _ =>
    proper_update fun _ _ => attachClosure_regular

theorem proper_bindParameters (frame : Nat) (names : List String) (vs : List Value) :
    (bindParameters frame names vs).Proper := by
  induction names generalizing vs with
  | nil => exact (plain_pure ()).proper
  | cons p ps ih => exact proper_bind (proper_declare frame p _ false) fun _ => ih vs.tail

theorem proper_enterFunction (f : Function) (vs : List Value) : (enterFunction f vs).Proper :=
  proper_bind (fun _ => rfl) fun frame =>
    proper_bind (proper_bindParameters frame f.parameters vs) fun _ => (plain_pure frame).proper

theorem guardReturn_eq (m : Machine) :
    guardReturn m = if m.depth = 0 then .fault (.irregular .strayReturn) m else .done () m := by
  unfold guardReturn
  rw [bind_eq]
  dsimp only [Action.look]
  split
  · rfl
  · rfl

/-- Own actions come to an end, and only two kinds of them can blame the tree. -/
theorem own_ending {t : Task} {x : Action α} (h : t.Own x) (m : Machine) :
    (x m).ending.isProper = true ∨ ∃ c, (x m).ending = .fault (.irregular c) ∧ t.Blames m c := by
  cases h with
  | look _ f => exact .inl ((plain_look _).proper m)
  | read _ hf => exact .inl ((plain_read hf).proper m)
  | update _ hok hf => exact .inl (proper_update hf m)
  | addArray _ values => exact .inl rfl
  | addObject _ object => exact .inl rfl
  | enter _ frame => exact .inl rfl
  | native _ native arguments => exact .inl ((plain_nativeCall native arguments).proper m)
  | refuse _ he => exact .inl (proper_fail he m)
  | declare frame name value constant e => exact .inl (proper_declare frame name value constant m)
  | declareStruct frame name fields => exact .inl (proper_declareStruct frame name fields m)
  | declareFunction frame name parameters body =>
    exact .inl (proper_declareFunction frame name parameters body m)
  | guardReturn frame e =>
    rw [guardReturn_eq]
    by_cases hdepth : m.depth = 0
    · rw [if_pos hdepth]
      exact .inr ⟨_, rfl, .stray frame e hdepth⟩
    · rw [if_neg hdepth]
      exact .inl rfl
  | refuseKey frame he => exact .inr ⟨_, rfl, .key frame he m⟩

theorem own_avoids {t : Task} {x : Action α} (h : t.Own x) {g : Ending} (hg : g.isProper = false)
    (hblames : ∀ m c, t.Blames m c → g ≠ .fault (.irregular c)) : x.Avoids g := by
  intro m hm
  rcases own_ending h m with hproper | ⟨c, hc, hblame⟩
  · rw [hm, hg] at hproper
    cases hproper
  · exact hblames m c hblame (hm.symm.trans hc)

theorem plain_keeps {R : Store → Store → Prop} (hplain : ∀ s t, s.NothingDeclared t → R s t) {x : Action α}
    (h : x.Keeps Store.NothingDeclared) : x.Keeps R :=
  fun m => (h m).mono (hplain m.store)

theorem guardReturn_keeps : guardReturn.Keeps Store.NothingDeclared := by
  intro m
  rw [guardReturn_eq]
  split
  · exact .refl m.store
  · exact .refl m.store

/-- Apart from declarations, own actions declare nothing, though a block gets a new frame. -/
theorem own_keeps {R : Store → Store → Prop} (hplain : ∀ s t, s.NothingDeclared t → R s t)
    (hframe : ∀ s parent, R s (s.addFrame parent).2) {t : Task} {x : Action α} (h : t.Own x)
    (hvariable : ∀ frame name value constant e, t = .execute frame (.varDecl name constant e) →
      (declare frame name value constant).Keeps R)
    (hstruct : ∀ frame name fields, t = .execute frame (.structDecl name fields) →
      (declareStruct frame name fields).Keeps R)
    (hfunction : ∀ frame name parameters body, t = .execute frame (.fnDecl name parameters body) →
      (declareFunction frame name parameters body).Keeps R) : x.Keeps R := by
  cases h with
  | look _ f => exact plain_keeps hplain (plain_look _).declares
  | read _ hf => exact plain_keeps hplain (plain_read hf).declares
  | update _ hok hf => exact plain_keeps hplain (plain_update (fun s e he => (hok s e he).2) hf).declares
  | addArray _ values => exact fun m => hplain _ _ (.of_eq rfl rfl)
  | addObject _ object => exact fun m => hplain _ _ (.of_eq rfl rfl)
  | enter _ frame => exact fun m => hframe m.store (some frame)
  | native _ native arguments => exact plain_keeps hplain (plain_nativeCall native arguments).declares
  | refuse _ he => exact plain_keeps hplain (plain_fail he).declares
  | declare frame name value constant e => exact hvariable frame name value constant e rfl
  | declareStruct frame name fields => exact hstruct frame name fields rfl
  | declareFunction frame name parameters body => exact hfunction frame name parameters body rfl
  | guardReturn frame e => exact plain_keeps hplain guardReturn_keeps
  | refuseKey frame he => exact fun m => hplain _ _ (.refl m.store)

end Proofs.OwnActions

end Scriptlet
