import Scriptlet.Proofs.Installation
import Scriptlet.Proofs.Scopes
import Scriptlet.Proofs.Stages

namespace Scriptlet

/-- All frames and all functions lie inside of the root frame, which has the standard constants. -/
structure Store.Rooted (s : Store) : Prop where
  ordered : Proofs.Scopes.Ordered s
  outermost : ∀ (i : Nat) f, s.frames[i]? = some f → f.parent = none → i = Host.root
  closures : ∀ (ref : Nat) f, s.functions[ref]? = some f → f.closure < s.frames.size
  constants : ∀ c ∈ Toolbox.standard.constants, s.bindingIn? Host.root c.1 = some ⟨c.2, true⟩

/-- All of some frames are there. -/
def Store.HasFrames (s : Store) (frames : List Nat) : Prop :=
  ∀ i ∈ frames, i < s.frames.size

/-- Outcomes with everything inside of the root frame, and with frames that are there. -/
def Outcome.Rooted {α : Type} (told : α → List Nat) : Outcome α → Prop
  | .done a m => m.store.Rooted ∧ m.store.HasFrames (told a)
  | .fault _ m => m.store.Rooted
  | .starved => True

/-- If everything lies inside of the root frame and the known frames are there, it is so after the action, and
the frames that it tells are there. -/
def Action.Roots {α : Type} (known : List Nat) (told : α → List Nat) (x : Action α) : Prop :=
  ∀ m, m.store.Rooted → m.store.HasFrames known → (x m).Rooted told

/-- The frame in which a task looks names up; a call has none yet. -/
def Task.frames : Task → List Nat
  | .eval frame _ | .evalAll frame _ | .evalProperties frame _ | .evalKey frame _ _ => [frame]
  | .execute frame _ | .executeBlock frame _ | .executeAll frame _ | .executeBody frame _ => [frame]
  | .loop frame _ _ => [frame]
  | .call .. => []

/-- A plan whose tasks look names up in known frames only, and in those that its own actions tell it. -/
inductive Plan.Within {α : Type} : List Nat → Plan α → Prop where
  | done {known : List Nat} (a : α) : Within known (.done a)
  | act {known : List Nat} {β : Type} {x : Action β} {next : β → Plan α} (between : β → List Nat)
      (hx : x.Roots known between) (hnext : ∀ a, Within (between a ++ known) (next a)) :
      Within known (.act x next)
  | task {known : List Nat} {t : Task} {next : t.Result → Plan α} (ht : ∀ i ∈ t.frames, i ∈ known)
      (hnext : ∀ a, Within known (next a)) : Within known (.task t next)
  | function {known : List Nat} {ref : Nat} {vs : List Value} {next : Value → Plan α}
      (hnext : ∀ v, Within known (next v)) : Within known (.function ref vs next)

namespace Proofs.RootFrame
open Machine Plans OwnActions PlainActions Parts Scopes

variable {α β : Type} {known : List Nat}

section Stores

variable {s t : Store}

/-- What lies inside of the root frame stays there; it is enough to look at what is new. -/
theorem rooted_grows (hs : s.Rooted) (h : s.Grows t)
    (hframes : ∀ i f, s.frames.size ≤ i → t.frames[i]? = some f → ∃ p, f.parent = some p ∧ p < i)
    (hfunctions : ∀ (ref : Nat) f, t.functions[ref]? = some f → f.closure < t.frames.size) : t.Rooted := by
  have hold (i : Nat) (g : Frame) (hg : t.frames[i]? = some g) (hi : i < s.frames.size) :
      ∃ f, s.frames[i]? = some f ∧ g.parent = f.parent := by
    have hf : s.frames[i]? = some s.frames[i] := Array.getElem?_eq_getElem hi
    obtain ⟨g', hg', hkeeps⟩ := h.frames i _ hf
    cases hg.symm.trans hg'
    exact ⟨_, hf, hkeeps.parent⟩
  refine ⟨fun i g p hg hp => ?_, fun i g hg hnone => ?_, hfunctions, fun c hc => ?_⟩
  · by_cases hi : i < s.frames.size
    · obtain ⟨f, hf, hparent⟩ := hold i g hg hi
      exact hs.ordered i f p hf (hparent.symm.trans hp)
    · obtain ⟨q, hq, hlt⟩ := hframes i g (Nat.le_of_not_lt hi) hg
      cases hp.symm.trans hq
      exact hlt
  · by_cases hi : i < s.frames.size
    · obtain ⟨f, hf, hparent⟩ := hold i g hg hi
      exact hs.outermost i f hf (hparent.symm.trans hnone)
    · obtain ⟨q, hq, _⟩ := hframes i g (Nat.le_of_not_lt hi) hg
      cases hnone.symm.trans hq
  · exact SoundActions.bindingIn_grows h (hs.constants c hc)

theorem rooted_sameSize (hs : s.Rooted) (h : s.Grows t) (hsize : t.frames.size = s.frames.size)
    (hfunctions : ∀ (ref : Nat) f, t.functions[ref]? = some f → f.closure < s.frames.size) : t.Rooted := by
  refine rooted_grows hs h (fun i f hi hf => ?_) ?_
  · rw [Array.getElem?_eq_none (hsize ▸ hi)] at hf
    cases hf
  · rwa [hsize]

theorem rooted_nothingDeclared (hs : s.Rooted) (hgrows : s.Grows t) (h : s.NothingDeclared t) : t.Rooted := by
  refine rooted_sameSize hs hgrows h.size fun ref f hf => ?_
  rw [h.functions] at hf
  exact hs.closures ref f hf

theorem rooted_addFrame (hs : s.Rooted) {frame : Nat} (hframe : frame < s.frames.size) :
    (s.addFrame (some frame)).2.Rooted := by
  refine rooted_grows hs (StoreGrowth.change_grows (.frame s _)) (fun i f hi hf => ?_) fun ref f hf => ?_
  · change (s.frames.push ⟨some frame, []⟩)[i]? = some f at hf
    rw [Array.getElem?_push] at hf
    split at hf
    · cases hf
      exact ⟨frame, rfl, Nat.lt_of_lt_of_le hframe hi⟩
    · rw [Array.getElem?_eq_none hi] at hf
      cases hf
  · have hclosure := hs.closures ref f hf
    simp only [Store.addFrame, Array.size_push]
    omega

theorem rooted_addFunction (hs : s.Rooted) {f : Function} (hf : f.closure < s.frames.size) :
    (s.addFunction f).2.Rooted := by
  refine rooted_sameSize hs (StoreGrowth.change_grows (.function s f)) rfl fun ref g hg => ?_
  change (s.functions.push f)[ref]? = some g at hg
  rw [Array.getElem?_push] at hg
  split at hg
  · cases hg
    exact hf
  · exact hs.closures ref g hg

theorem rooted_enclose (hs : s.Rooted) {frame : Nat} (hframe : frame < s.frames.size) (function : Nat) :
    (s.apply (.enclose function frame)).Rooted := by
  refine ⟨hs.ordered, hs.outermost, fun ref g hg => ?_, hs.constants⟩
  change (s.functions.modify function fun f => { f with closure := frame })[ref]? = some g at hg
  rw [Array.getElem?_modify] at hg
  split at hg
  · obtain ⟨f, _, rfl⟩ := Option.map_eq_some_iff.mp hg
    exact hframe
  · exact hs.closures ref g hg

/-- An edit makes no frame, and gives no function another closure. -/
theorem rooted_apply (hs : s.Rooted) {e : Edit} (h : s.Admits e) : (s.apply e).Rooted := by
  have hgrows := StoreGrowth.apply_grows h
  refine rooted_sameSize hs hgrows (apply_size s e) fun ref f hf => ?_
  have href : ref < s.functions.size := by
    obtain ⟨href, _⟩ := Array.getElem?_eq_some_iff.mp hf
    cases e <;> simpa [Store.apply] using href
  obtain ⟨g, hg, rfl⟩ := hgrows.functions ref _ (Array.getElem?_eq_getElem href)
  cases hf.symm.trans hg
  exact hs.closures ref _ (Array.getElem?_eq_getElem href)

theorem root_null (hs : s.Rooted) : s.bindingIn? Host.root "null" = some ⟨.null, true⟩ :=
  hs.constants ("null", .null) (by simp [Toolbox.standard])

/-- The root frame is there, since something is declared in it. -/
theorem root_exists (hs : s.Rooted) : Host.root < s.frames.size := by
  obtain ⟨f, hf, _⟩ := Option.bind_eq_some_iff.mp (root_null hs)
  exact (Array.getElem?_eq_some_iff.mp hf).1

/-- The way outward ends in the root frame. -/
theorem path_root (hs : s.Rooted) {frame : Nat} {path : List Nat} (h : s.Path frame path) :
    ∃ inner, path = inner ++ [Host.root] := by
  induction h with
  | outermost hf hparent =>
    cases hs.outermost _ _ hf hparent
    exact ⟨[], rfl⟩
  | @inside i _ _ _ _ _ _ ih =>
    obtain ⟨inner, rfl⟩ := ih
    exact ⟨i :: inner, rfl⟩

theorem hasFrames_closure (hs : s.Rooted) {ref : Nat} {f : Function} (hf : s.functions[ref]? = some f) :
    s.HasFrames [f.closure] := by
  intro i hi
  cases List.mem_singleton.mp hi
  exact hs.closures ref f hf

theorem hasFrames_mono {frames : List Nat} (h : s.HasFrames frames) (hsize : s.frames.size ≤ t.frames.size) :
    t.HasFrames frames :=
  fun i hi => Nat.lt_of_lt_of_le (h i hi) hsize

@[simp] theorem hasFrames_nil : s.HasFrames [] :=
  List.forall_mem_nil _

@[simp] theorem hasFrames_append {frames frames' : List Nat} :
    s.HasFrames (frames ++ frames') ↔ s.HasFrames frames ∧ s.HasFrames frames' :=
  List.forall_mem_append

end Stores

section Actions

variable {told : α → List Nat} {between : β → List Nat}

theorem rooted_after {x : Action α} (hruns : x.Runs) (hx : x.Roots known told) {m m' : Machine}
    {a : α} (hend : x m = .done a m') (hm : m.store.Rooted) (hknown : m.store.HasFrames known) :
    m'.store.Rooted ∧ m'.store.HasFrames (told a ++ known) := by
  have hrooted := hx m hm hknown
  rw [hend] at hrooted
  obtain ⟨_, _, hsize⟩ := done_runs hruns hend
  exact ⟨hrooted.1, hasFrames_append.mpr ⟨hrooted.2, hasFrames_mono hknown hsize⟩⟩

theorem roots_bind {x : Action β} {f : β → Action α} (hruns : x.Runs) (hx : x.Roots known between)
    (hf : ∀ a, (f a).Roots (between a ++ known) told) : (x >>= f).Roots known told := by
  intro m hm hknown
  rw [bind_eq]
  cases hxm : x m with
  | done a m' =>
    obtain ⟨hm', hknown'⟩ := rooted_after hruns hx hxm hm hknown
    exact hf a m' hm' hknown'
  | fault e m' =>
    have hend := hx m hm hknown
    rw [hxm] at hend
    exact hend
  | starved => trivial

theorem roots_mono {known known' : List Nat} {x : Action α} (hx : x.Roots known told)
    (h : ∀ i ∈ known, i ∈ known') :
    x.Roots known' told :=
  fun m hm hknown => hx m hm fun i hi => hknown i (h i hi)

theorem roots_then {x : Action β} {f : β → Action α} (hruns : x.Runs) (hx : x.Roots known fun _ => [])
    (hf : ∀ a, (f a).Roots known told) : (x >>= f).Roots known told :=
  roots_bind hruns hx hf

theorem roots_pure {a : α} (h : ∀ i ∈ told a, i ∈ known) : Action.Roots known told (pure a : Action α) :=
  fun _ hm hknown => ⟨hm, fun i hi => hknown i (h i hi)⟩

theorem roots_fail (e : Fault) : Action.Roots known told (Action.fail e : Action α) :=
  fun _ hm _ => hm

theorem roots_look (f : Machine → α) : (Action.look f).Roots known fun _ => [] :=
  fun _ hm _ => ⟨hm, hasFrames_nil⟩

theorem roots_read (f : Store → Except Fault α) : (Action.read f).Roots known fun _ => [] := by
  intro m hm _
  unfold Action.read
  split
  · exact ⟨hm, hasFrames_nil⟩
  · exact hm

theorem roots_update {f : Store → Except Fault Edit} (h : ∀ s e, f s = .ok e → s.Admits e) :
    (Action.update f).Roots known fun _ => [] := by
  intro m hm _
  unfold Action.update
  split
  · rename_i e he
    exact ⟨rooted_apply hm (h _ e he), hasFrames_nil⟩
  · exact hm

/-- Actions that declare nothing make neither frames nor functions. -/
theorem roots_plain {x : Action α} (hruns : x.Runs) (h : x.Keeps Store.NothingDeclared) :
    x.Roots known fun _ => [] := by
  intro m hm _
  have hrun := hruns m
  have hkept := h m
  cases hxm : x m with
  | done a m' =>
    rw [hxm] at hrun hkept
    exact ⟨rooted_nothingDeclared hm (StoreGrowth.runs_grows hrun) hkept, hasFrames_nil⟩
  | fault e m' =>
    rw [hxm] at hrun hkept
    exact rooted_nothingDeclared hm (StoreGrowth.runs_grows hrun) hkept
  | starved => trivial

theorem roots_allocate {f : Store → α × Store} (hchange : ∀ s : Store, s.Change (f s).2)
    (h : ∀ s : Store, s.NothingDeclared (f s).2) : (Action.allocate f).Roots known fun _ => [] :=
  roots_plain (Runs.runs_allocate hchange) (plain_allocate h).declares

theorem roots_declare (frame : Nat) (name : String) (value : Value) (constant : Bool) :
    (declare frame name value constant).Roots known fun _ => [] :=
  roots_update fun _ _ he => (Runs.admits_declare he).2

theorem roots_declareStruct (frame : Nat) (name : String) (fields : List Field) :
    (declareStruct frame name fields).Roots known fun _ => [] :=
  roots_then (Runs.runs_allocate fun s => .struct s _)
    (roots_allocate (fun s => .struct s _) fun _ => .of_eq rfl rfl)
    fun v => roots_declare frame name v true

theorem roots_guardReturn : guardReturn.Roots known fun _ => [] := by
  intro m hm _
  rw [guardReturn_eq]
  split
  · exact hm
  · exact ⟨hm, hasFrames_nil⟩

/-- A block lies in the frame that it is written in. -/
theorem roots_enter {frame : Nat} (hframe : frame ∈ known) :
    (enter frame).Roots known fun block => [block] := by
  intro m hm hknown
  refine ⟨rooted_addFrame hm (hknown frame hframe), fun i hi => ?_⟩
  cases List.mem_singleton.mp hi
  simp

/-- A function lies in the frame in which it is declared. -/
theorem roots_declareFunction {frame : Nat} (hframe : frame ∈ known) (name : String)
    (parameters : List String)
    (body : List Stmt) : (declareFunction frame name parameters body).Roots known fun _ => [] := by
  have hadd : (Action.allocate fun s => s.addFunction ⟨name, parameters, body, frame⟩).Roots known
      fun _ => [] :=
    fun m hm hknown => ⟨rooted_addFunction hm (hknown frame hframe), hasFrames_nil⟩
  refine roots_then (Runs.runs_allocate fun s => .function s _) hadd fun v => ?_
  refine roots_then (Runs.runs_declare _ _ _ _) (roots_declare frame name v true) fun _ m hm hknown => ?_
  unfold Action.update
  split
  · rename_i e he
    obtain ⟨ref, rfl⟩ := DeclaredNames.attachClosure_ok he
    exact ⟨rooted_enclose hm (hknown frame hframe) ref, hasFrames_nil⟩
  · exact hm

theorem roots_bindParameters (frame : Nat) (names : List String) (vs : List Value) :
    (bindParameters frame names vs).Roots known fun _ => [] := by
  induction names generalizing vs with
  | nil => exact roots_pure (List.forall_mem_nil _)
  | cons p ps ih =>
    exact roots_then (Runs.runs_declare _ _ _ _) (roots_declare frame p _ false) fun _ => ih vs.tail

theorem roots_enterFunction (f : Function) (vs : List Value) :
    (enterFunction f vs).Roots [f.closure] fun frame => [frame] := by
  refine roots_bind (Runs.runs_enter _) (roots_enter List.mem_cons_self) fun frame => ?_
  refine roots_then (Runs.runs_bindParameters _ _ _) (roots_bindParameters frame f.parameters vs) fun _ => ?_
  exact roots_pure fun i hi => List.mem_append_left _ hi

end Actions

section Plans

theorem roots_callFunction {body : Nat → List Stmt → Action Value}
    (hbody : ∀ frame stmts, (body frame stmts).Roots [frame] fun _ => []) (ref : Nat) (vs : List Value) :
    (callFunction body ref vs).Roots known fun _ => [] := by
  intro m hm _
  rw [callFunction_eq]
  cases hf : m.store.functions[ref]? with
  | none => exact ⟨hm, hasFrames_nil⟩
  | some f =>
    dsimp only
    by_cases hfull : m.limit ≤ m.depth
    · rw [if_pos hfull]
      exact hm
    · rw [if_neg hfull]
      have hcalled := roots_bind (runs_enterFunction f vs) (roots_enterFunction f vs)
        fun frame => roots_mono (hbody frame f.body) fun i hi => List.mem_append_left _ hi
      have hend := hcalled { m with depth := m.depth + 1 } hm (hasFrames_closure hm hf)
      unfold endCall
      cases hcall : (enterFunction f vs >>= fun frame => body frame f.body)
        { m with depth := m.depth + 1 } with
      | done v m' =>
        rw [hcall] at hend
        exact hend
      | fault e m' =>
        rw [hcall] at hend
        exact hend
      | starved => trivial

variable {run : (t : Task) → Action t.Result}

theorem roots_plan (hruns : ∀ t, (run t).Runs) (hrun : ∀ t, (run t).Roots t.frames fun _ => []) {p : Plan α}
    (hacts : p.Acts Action.Runs) (h : p.Within known) : (p.run run).Roots known fun _ => [] := by
  induction h with
  | done a => exact roots_pure (List.forall_mem_nil _)
  | act between hx _ ih => exact roots_bind hacts.1 hx fun a => ih a (hacts.2 a)
  | task ht _ ih => exact roots_then (hruns _) (roots_mono (hrun _) ht) fun a => ih a (hacts a)
  | function _ ih =>
    exact roots_then (runs_callFunction (fun _ _ => hruns _) _ _)
      (roots_callFunction (fun frame stmts => hrun (.executeBody frame stmts)) _ _) fun v => ih v (hacts v)

theorem within_ite {p : Prop} [Decidable p] {x y : Plan α} (hx : x.Within known) (hy : y.Within known) :
    (if p then x else y).Within known := by
  split
  · exact hx
  · exact hy

theorem within_eval (frame : Nat) (e : Expr) : (Task.eval frame e).plan.Within [frame] := by
  have here (i : Nat) (hi : i ∈ [frame]) : i ∈ [frame] := hi
  cases e with
  | number x => exact .done _
  | text s => exact .done _
  | array es =>
    exact .task here fun vs =>
      .act (fun _ => []) (roots_allocate (fun s => .array s _) fun _ => .of_eq rfl rfl)
      fun v => .done v
  | object ps =>
    exact .task here fun entries =>
      .act (fun _ => []) (roots_allocate (fun s => .object s _) fun _ => .of_eq rfl rfl)
      fun v => .done v
  | identifier name => exact .act (fun _ => []) (roots_read _) fun v => .done v
  | assign name e =>
    exact .task here fun v => .act (fun _ => []) (roots_update fun _ _ => Runs.admits_assign) fun _ => .done v
  | call callee es =>
    exact .task here fun f => .task here fun vs => .task (List.forall_mem_nil _) fun v => .done v
  | member object key computed assignment =>
    cases assignment with
    | none =>
      exact .task here fun target => .task here fun k => .act (fun _ => []) (roots_read _) fun v => .done v
    | some e =>
      exact .task here fun target => .task here fun k => .task here fun v =>
        .act (fun _ => []) (roots_update fun _ _ => Runs.admits_setMember) fun _ => .done v
  | boolean left op right => cases op <;> exact .task here fun l => .task here fun r => .done _
  | binary left op right =>
    exact .task here fun l => .task here fun r => .act (fun _ => []) (roots_read _) fun v => .done v
  | logical left op equals right => exact .task here fun l => .task here fun r => .done _
  | not e => exact .task here fun v => .done _

theorem within_execute (frame : Nat) (stmt : Stmt) : (Task.execute frame stmt).plan.Within [frame] := by
  have here (i : Nat) (hi : i ∈ [frame]) : i ∈ [frame] := hi
  cases stmt with
  | expr e => exact .task here fun v => .done _
  | varDecl name constant e =>
    exact .task here fun v => .act (fun _ => []) (roots_declare frame name v constant) fun _ => .done _
  | structDecl name fields =>
    exact .act (fun _ => []) (roots_declareStruct frame name fields) fun _ => .done _
  | fnDecl name parameters body =>
    exact .act (fun _ => []) (roots_declareFunction List.mem_cons_self name parameters body) fun _ => .done _
  | ret e => exact .act (fun _ => []) roots_guardReturn fun _ => .task here fun v => .done _
  | ifThen test body =>
    refine .task here fun t => within_ite ?_ (.done _)
    refine .act (fun block => [block]) (roots_enter List.mem_cons_self) fun block => ?_
    exact .task (fun i hi => List.mem_append_left _ hi) fun flow => .done _
  | whileDo test body => exact .task here fun _ => .done _

theorem within_call (f : Value) (vs : List Value) : (Task.call f vs).plan.Within [] := by
  cases f with
  | function ref => exact .function fun v => .done v
  | native ref =>
    refine .act (fun _ => []) (roots_look _) fun found => ?_
    cases found with
    | none => exact .done _
    | some native =>
      exact .act (fun _ => [])
        (roots_plain (Runs.runs_nativeCall native vs) (plain_nativeCall native vs).declares)
        fun v => .done v
  | structType ref =>
    exact .act (fun _ => []) (roots_read _) fun o =>
      .act (fun _ => []) (roots_allocate (fun s => .object s _) fun _ => .of_eq rfl rfl) fun v => .done v
  | _ =>
    exact .act (fun _ => []) (roots_look _) fun shown => .act (fun _ => []) (roots_fail _) fun v => .done v

theorem within_executeBody (frame : Nat) (stmts : List Stmt) :
    (Task.executeBody frame stmts).plan.Within [frame] := by
  have here (i : Nat) (hi : i ∈ [frame]) : i ∈ [frame] := hi
  have hrest : (Plan.task (.executeBody frame stmts.tail) Plan.done).Within [frame] :=
    .task here fun v => .done v
  cases stmts with
  | nil => exact .done _
  | cons stmt stmts =>
    cases stmt with
    | ret e => exact .task here fun v => .done v
    | ifThen test body =>
      refine .task here fun flow => ?_
      cases flow with
      | normal v => exact hrest
      | returned v => exact within_ite (.done v) hrest
    | _ => exact .task here fun _ => hrest

/-- A task looks names up in its own frame and in blocks that it enters there. -/
theorem within_task (t : Task) : t.plan.Within t.frames := by
  have here {frame : Nat} (i : Nat) (hi : i ∈ [frame]) : i ∈ [frame] := hi
  cases t with
  | eval frame e => exact within_eval frame e
  | evalAll frame es =>
    cases es with
    | nil => exact .done _
    | cons e es => exact .task here fun v => .task here fun vs => .done _
  | evalProperties frame ps =>
    cases ps with
    | nil => exact .done _
    | cons p ps =>
      cases p with
      | shorthand key => exact .act (fun _ => []) (roots_read _) fun v => .task here fun entries => .done _
      | valued key e => exact .task here fun v => .task here fun entries => .done _
  | evalKey frame e computed =>
    cases computed with
    | true => exact .task here fun v => .done v
    | false =>
      cases e with
      | identifier name => exact .done _
      | _ => exact .act (fun _ => []) (roots_fail _) fun v => .done v
  | execute frame stmt => exact within_execute frame stmt
  | executeBlock frame stmts =>
    cases stmts with
    | nil => exact .done _
    | cons stmt stmts => exact .task here fun flow => within_ite (.done _) (.task here fun flow => .done _)
  | executeAll frame stmts =>
    cases stmts with
    | nil => exact .done _
    | cons stmt stmts => exact .task here fun _ => .task here fun _ => .done _
  | loop frame test body =>
    refine .task here fun t => within_ite ?_ (.done _)
    refine .act (fun turn => [turn]) (roots_enter List.mem_cons_self) fun turn => ?_
    exact .task (fun i hi => List.mem_append_left _ hi) fun _ =>
      .task (fun i hi => List.mem_append_right _ hi) fun _ => .done _
  | call f vs => exact within_call f vs
  | executeBody frame stmts => exact within_executeBody frame stmts

end Plans

section Runs

/-- So does the evaluator. The induction is on the bound. -/
theorem roots_run (n : Nat) (t : Task) : (t.run n).Roots t.frames fun _ => [] := by
  induction n generalizing t with
  | zero =>
    rw [run_zero]
    exact fun _ _ _ => trivial
  | succ n ih =>
    rw [Tasks.run_succ]
    exact roots_plan (runs_run n) ih (acts_runs t) (within_task t)

theorem grows_done {x : Action β} (hruns : x.Runs) {m m' : Machine} {a : β} (hend : x m = .done a m') :
    m.store.Grows m'.store := by
  have hrun := hruns m
  rw [hend] at hrun
  exact StoreGrowth.runs_grows hrun

/-- A plan comes to its tasks with everything inside of the root frame, and their frames are there. -/
theorem invokes_rooted {n : Nat} {p : Plan α} (hacts : p.Acts Action.Runs) (hwithin : p.Within known)
    {m m' : Machine}
    {t : Task} (h : p.Invokes (Task.run n) m t m') (hm : m.store.Rooted) (hknown : m.store.HasFrames known) :
    m'.store.Rooted ∧ m'.store.HasFrames t.frames := by
  induction h generalizing known with
  | act hx _ ih =>
    cases hwithin with
    | act between hown hnext =>
      obtain ⟨hm₁, hknown₁⟩ := rooted_after hacts.1 hown hx hm hknown
      exact ih (hacts.2 _) (hnext _) hm₁ hknown₁
  | here t next m =>
    cases hwithin with
    | task ht _ => exact ⟨hm, fun i hi => hknown i (ht i hi)⟩
  | after hs _ ih =>
    cases hwithin with
    | task ht hnext =>
      obtain ⟨hm₁, hknown₁⟩ := rooted_after (runs_run n _) (roots_mono (roots_run n _) ht) hs hm hknown
      exact ih (hacts _) (hnext _) hm₁ hknown₁
  | @body _ frame vs _ m _ f hf _ hentry =>
    obtain ⟨hm₁, hframes⟩ := rooted_after (runs_enterFunction f vs) (roots_enterFunction f vs) hentry hm
      (hasFrames_closure hm hf)
    exact ⟨hm₁, (hasFrames_append.mp hframes).1⟩
  | @afterCall ref vs _ _ _ _ _ _ hcall _ ih =>
    cases hwithin with
    | function hnext =>
      have hruns := runs_callFunction (fun frame stmts => runs_run n (.executeBody frame stmts)) ref vs
      obtain ⟨hm₁, hknown₁⟩ := rooted_after hruns
        (roots_callFunction (fun frame stmts => roots_run n (.executeBody frame stmts)) ref vs) hcall
          hm hknown
      exact ih (hacts _) (hnext _) hm₁ hknown₁

theorem reaches_rooted {S : Task → Prop} {n : Nat} {t t' : Task} {m m' : Machine}
    (h : Task.Reaches S n t m t' m') (hm : m.store.Rooted) (hframes : m.store.HasFrames t.frames) :
    m'.store.Rooted ∧ m'.store.HasFrames t'.frames := by
  induction h with
  | refl n t m => exact ⟨hm, hframes⟩
  | step h _ _ ih =>
    obtain ⟨hm₁, hframes₁⟩ := invokes_rooted (acts_runs _) (within_task _) h hm hframes
    exact ih hm₁ hframes₁

end Runs

section Hosts

variable {fuel : Nat}

theorem size_declare (frame : Nat) (name : String) (value : Value) (constant : Bool) :
    (declare frame name value constant).Keeps fun s t => t.frames.size = s.frames.size :=
  keeps_update (fun _ => rfl) fun s e _ => apply_size s e

theorem size_installConstants (frame : Nat) (constants : List (String × Value)) :
    (Toolbox.installConstants frame constants).Keeps fun s t => t.frames.size = s.frames.size := by
  induction constants with
  | nil => exact fun _ => rfl
  | cons c cs ih =>
    exact keeps_bind (fun _ _ _ hst htu => htu.trans hst) (size_declare frame c.1 c.2 true) fun _ => ih

theorem size_installTools (frame : Nat) (tools : List Tool) :
    (Toolbox.installTools frame tools).Keeps fun s t => t.frames.size = s.frames.size := by
  induction tools with
  | nil => exact fun _ => rfl
  | cons t ts ih =>
    refine keeps_bind (fun _ _ _ hst htu => htu.trans hst) (fun _ => rfl) fun v => ?_
    exact keeps_bind (fun _ _ _ hst htu => htu.trans hst) (size_declare frame t.name v true) fun _ => ih

/-- Constants that have been installed are there. -/
theorem installed_constants {frame : Nat} {constants : List (String × Value)} {m m' : Machine}
    (hframe : frame < m.store.frames.size) (h : Toolbox.installConstants frame constants m = .done () m') :
    ∀ c ∈ constants, m'.store.bindingIn? frame c.1 = some ⟨c.2, true⟩ := by
  induction constants generalizing m with
  | nil => exact List.forall_mem_nil _
  | cons c cs ih =>
    obtain ⟨_, m₁, hdeclared, hrest⟩ := bind_done h
    obtain ⟨_, _, hsize⟩ := done_runs (Runs.runs_declare _ _ _ _) hdeclared
    have hfirst : m₁.store.bindingIn? frame c.1 = some ⟨c.2, true⟩ := by
      obtain ⟨e, he, rfl⟩ := Runs.update_done hdeclared
      obtain ⟨hfree, rfl⟩ := declare_ok_iff.mp he
      exact SoundActions.bindingIn_bind_self hframe hfree _
    have hgrows := grows_done (Runs.runs_installConstants _ _) hrest
    exact List.forall_mem_cons.mpr ⟨SoundActions.bindingIn_grows hgrows hfirst,
      ih (Nat.lt_of_lt_of_le hframe hsize) hrest⟩

/-- A run begins with the root frame alone and with the standard constants in it. -/
theorem rooted_installed {h : Host} {installed : Machine}
    (hinstall : Toolbox.standard.install Host.root h.machine = .done () installed) :
    installed.store.Rooted := by
  obtain ⟨m, hend, hfunctions, _⟩ := Installation.host_installs h
  cases hinstall.symm.trans hend
  obtain ⟨_, m₁, hconstants, htools⟩ := bind_done hinstall
  have hsize : installed.store.frames.size = 1 := by
    have hfirst := (size_installConstants Host.root Toolbox.standard.constants h.machine).of_done hconstants
    have hsecond := (size_installTools Host.root Toolbox.standard.tools m₁).of_done htools
    exact hsecond.trans hfirst
  have hroot (i : Nat) (f : Frame) (hf : installed.store.frames[i]? = some f) : i = Host.root ∧
      f.parent = none := by
    obtain ⟨hi, _⟩ := Array.getElem?_eq_some_iff.mp hf
    have hzero : i = Host.root := by
      unfold Host.root
      omega
    obtain ⟨g, hg, hkeeps⟩ := (grows_done (Runs.runs_install _ _) hinstall).frames Host.root ⟨none, []⟩ rfl
    rw [hzero] at hf
    cases hf.symm.trans hg
    exact ⟨hzero, hkeeps.parent⟩
  refine ⟨fun i f p hf hp => ?_, fun i f hf _ => (hroot i f hf).1, fun ref f hf => ?_, fun c hc => ?_⟩
  · rw [(hroot i f hf).2] at hp
    cases hp
  · rw [hfunctions] at hf
    cases hf
  · have hbound := installed_constants (Nat.zero_lt_one) hconstants c hc
    exact SoundActions.bindingIn_grows (grows_done (Runs.runs_installTools _ _) htools) hbound

/-- A task that looks names up in the root frame, or nowhere, leaves everything inside of the root frame. -/
theorem leaves_rooted (n : Nat) {t : Task} (ht : ∀ i ∈ t.frames, i = Host.root) {m : Machine}
    (hm : m.store.Rooted) :
    (t.run n m).Leaves Store.Rooted := by
  have hend := roots_run n t m hm fun i hi => ht i hi ▸ root_exists hm
  cases hrun : t.run n m with
  | done a m' =>
    rw [hrun] at hend
    exact hend.1
  | fault e m' =>
    rw [hrun] at hend
    exact hend
  | starved => trivial

theorem chain_rooted {o : Outcome α} {ss : List Start} {m : Machine} (h : Start.Chain fuel m ss o)
    (hframes : ∀ s ∈ ss, ∀ i ∈ s.task.frames, i = Host.root) (hm : m.store.Rooted) :
    (∀ s ∈ ss, s.machine.store.Rooted) ∧ o.Leaves Store.Rooted := by
  induction h with
  | nil a m => exact ⟨List.forall_mem_nil _, hm⟩
  | spent m => exact ⟨List.forall_mem_nil _, trivial⟩
  | next ht _ ih =>
    obtain ⟨hfirst, hlater⟩ := List.forall_mem_cons.mp hframes
    obtain ⟨hrest, hend⟩ := ih hlater ((leaves_rooted fuel hfirst hm).of_done ht)
    exact ⟨List.forall_mem_cons.mpr ⟨hm, hrest⟩, hend⟩
  | @fault t m m' e ht =>
    have hend := leaves_rooted fuel (hframes _ List.mem_cons_self) hm
    rw [ht] at hend
    exact ⟨List.forall_mem_singleton.mpr hm, hend⟩
  | starved ht => exact ⟨List.forall_mem_singleton.mpr hm, trivial⟩

/-- A stage whose tasks start with everything inside of the root frame, and look names up there or nowhere. -/
def StartsRooted (g : Stage) : Prop :=
  ∀ s ∈ g.starts, s.machine.store.Rooted ∧ ∀ i ∈ s.task.frames, i = Host.root

theorem frameStages_rooted (frameMs : Float) (n : Nat) {m : Machine} (hm : m.store.Rooted) :
    ∀ g ∈ Host.frameStages fuel frameMs n m, StartsRooted g := by
  induction n generalizing m with
  | zero => exact List.forall_mem_nil _
  | succ n ih =>
    unfold Host.frameStages
    split
    · exact List.forall_mem_nil _
    · split
      · exact List.forall_mem_nil _
      · rename_i due schedule _
        have hframes (s : Start) (hs : s ∈ Host.callStarts fuel due { m with schedule }) :
            ∀ i ∈ s.task.frames, i = Host.root := by
          obtain ⟨f, _, htask⟩ := Stages.callStarts_task hs
          rw [htask]
          exact List.forall_mem_nil _
        obtain ⟨hstarts, hend⟩ :=
          chain_rooted (Stages.chain_callStarts fuel due { m with schedule }) hframes hm
        refine List.forall_mem_cons.mpr ⟨fun s hs => ⟨hstarts s hs, hframes s hs⟩, ?_⟩
        split
        · rename_i m' hcalled
          exact ih (hend.of_done hcalled)
        · exact List.forall_mem_nil _

theorem stages_rooted (h : Host) (program : Program) : ∀ g ∈ h.stages fuel program, StartsRooted g := by
  obtain ⟨installed, hinstall, _⟩ := Installation.host_installs h
  have hchain := Stages.chain_starts fuel h.settings.maxSteps (program.body.length + 1) 0
    (Execution.start program Host.root) installed
  have hframes (s : Start) (hs : s ∈ (Execution.start program Host.root).starts fuel h.settings.maxSteps
      (program.body.length + 1) 0 installed) : ∀ i ∈ s.task.frames, i = Host.root := by
    obtain ⟨stmt, htask⟩ := Stages.starts_task hs
    rw [htask]
    exact fun i hi => List.mem_singleton.mp hi
  obtain ⟨hstarts, hend⟩ := chain_rooted hchain hframes (rooted_installed hinstall)
  unfold Host.stages Host.frames
  rw [List.forall_mem_cons, Stages.bodyStage_eq hinstall, Stages.runBody_eq hinstall]
  refine ⟨fun s hs => ⟨hstarts s hs, hframes s hs⟩, ?_⟩
  split
  · rename_i v m hrun
    exact frameStages_rooted _ _ (hend.of_done hrun)
  · exact List.forall_mem_nil _

theorem reached_rooted {h : Host} {program : Program} {t : Task} {m : Machine}
    (ht : h.Reaches fuel program t m) :
    m.store.Rooted ∧ m.store.HasFrames t.frames := by
  obtain ⟨g, hg, s, hs, hreaches⟩ := ht
  obtain ⟨hm, hframes⟩ := stages_rooted h program g hg s hs
  refine reaches_rooted hreaches hm fun i hi => ?_
  rw [hframes i hi]
  exact root_exists hm

end Hosts

end Proofs.RootFrame

end Scriptlet
