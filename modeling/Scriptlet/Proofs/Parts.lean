import Scriptlet.Proofs.OwnActions

namespace Scriptlet

/-- Every task that the plan names satisfies `S`, whatever values come up on machines with at least `size`
frames. -/
def Plan.Tasks {α : Type} (size : Nat) (S : Task → Prop) : Plan α → Prop
  | done _ => True
  | act x next => ∀ m a m', size ≤ m.store.frames.size → x m = .done a m' → (next a).Tasks size S
  | task t next => S t ∧ ∀ a, (next a).Tasks size S
  | function _ _ next => ∀ v, (next v).Tasks size S

/-- The tasks that a task comes to without a call of a user function, where `size` frames are there
already: those for the parts of its code. A block and each turn of a loop have frames of their own. -/
inductive Task.Part (size : Nat) : Task → Task → Prop where
  | elements {frame : Nat} {es : List Expr} : Part size (.eval frame (.array es)) (.evalAll frame es)
  | entries {frame : Nat} {ps : List Property} :
      Part size (.eval frame (.object ps)) (.evalProperties frame ps)
  | assigned {frame : Nat} {name : String} {e : Expr} :
      Part size (.eval frame (.assign name e)) (.eval frame e)
  | callee {frame : Nat} {f : Expr} {es : List Expr} : Part size (.eval frame (.call f es)) (.eval frame f)
  | arguments {frame : Nat} {f : Expr} {es : List Expr} :
      Part size (.eval frame (.call f es)) (.evalAll frame es)
  | call {frame : Nat} {f : Expr} {es : List Expr} (v : Value) (vs : List Value) :
      Part size (.eval frame (.call f es)) (.call v vs)
  | target {frame : Nat} {object key : Expr} {computed : Bool} {assignment : Option Expr} :
      Part size (.eval frame (.member object key computed assignment)) (.eval frame object)
  | key {frame : Nat} {object key : Expr} {computed : Bool} {assignment : Option Expr} :
      Part size (.eval frame (.member object key computed assignment)) (.evalKey frame key computed)
  | written {frame : Nat} {object key e : Expr} {computed : Bool} :
      Part size (.eval frame (.member object key computed (some e))) (.eval frame e)
  | booleanLeft {frame : Nat} {l r : Expr} {op : BooleanOp} :
      Part size (.eval frame (.boolean l op r)) (.eval frame l)
  | booleanRight {frame : Nat} {l r : Expr} {op : BooleanOp} :
      Part size (.eval frame (.boolean l op r)) (.eval frame r)
  | binaryLeft {frame : Nat} {l r : Expr} {op : BinaryOp} :
      Part size (.eval frame (.binary l op r)) (.eval frame l)
  | binaryRight {frame : Nat} {l r : Expr} {op : BinaryOp} :
      Part size (.eval frame (.binary l op r)) (.eval frame r)
  | logicalLeft {frame : Nat} {l r : Expr} {op : LogicalOp} {equals : Bool} :
      Part size (.eval frame (.logical l op equals r)) (.eval frame l)
  | logicalRight {frame : Nat} {l r : Expr} {op : LogicalOp} {equals : Bool} :
      Part size (.eval frame (.logical l op equals r)) (.eval frame r)
  | negated {frame : Nat} {e : Expr} : Part size (.eval frame (.not e)) (.eval frame e)
  | firstElement {frame : Nat} {e : Expr} {es : List Expr} :
      Part size (.evalAll frame (e :: es)) (.eval frame e)
  | moreElements {frame : Nat} {e : Expr} {es : List Expr} :
      Part size (.evalAll frame (e :: es)) (.evalAll frame es)
  | firstEntry {frame : Nat} {key : String} {e : Expr} {ps : List Property} :
      Part size (.evalProperties frame (.valued key e :: ps)) (.eval frame e)
  | moreEntries {frame : Nat} {p : Property} {ps : List Property} :
      Part size (.evalProperties frame (p :: ps)) (.evalProperties frame ps)
  | computedKey {frame : Nat} {e : Expr} : Part size (.evalKey frame e true) (.eval frame e)
  | value {frame : Nat} {e : Expr} : Part size (.execute frame (.expr e)) (.eval frame e)
  | initial {frame : Nat} {name : String} {constant : Bool} {e : Expr} :
      Part size (.execute frame (.varDecl name constant e)) (.eval frame e)
  | returned {frame : Nat} {e : Expr} : Part size (.execute frame (.ret e)) (.eval frame e)
  | condition {frame : Nat} {test : Expr} {body : List Stmt} :
      Part size (.execute frame (.ifThen test body)) (.eval frame test)
  | consequent {frame block : Nat} {test : Expr} {body : List Stmt} (h : size ≤ block) :
      Part size (.execute frame (.ifThen test body)) (.executeBlock block body)
  | loop {frame : Nat} {test : Expr} {body : List Stmt} :
      Part size (.execute frame (.whileDo test body)) (.loop frame test body)
  | firstOfBlock {frame : Nat} {s : Stmt} {ss : List Stmt} :
      Part size (.executeBlock frame (s :: ss)) (.execute frame s)
  | restOfBlock {frame : Nat} {s : Stmt} {ss : List Stmt} :
      Part size (.executeBlock frame (s :: ss)) (.executeBlock frame ss)
  | firstOfAll {frame : Nat} {s : Stmt} {ss : List Stmt} :
      Part size (.executeAll frame (s :: ss)) (.execute frame s)
  | restOfAll {frame : Nat} {s : Stmt} {ss : List Stmt} :
      Part size (.executeAll frame (s :: ss)) (.executeAll frame ss)
  | test {frame : Nat} {test : Expr} {body : List Stmt} : Part size (.loop frame test body) (.eval frame test)
  | turn {frame turn : Nat} {test : Expr} {body : List Stmt} (h : size ≤ turn) :
      Part size (.loop frame test body) (.executeAll turn body)
  | again {frame : Nat} {test : Expr} {body : List Stmt} :
      Part size (.loop frame test body) (.loop frame test body)
  | result {frame : Nat} {e : Expr} {ss : List Stmt} :
      Part size (.executeBody frame (.ret e :: ss)) (.eval frame e)
  | firstOfBody {frame : Nat} {s : Stmt} {ss : List Stmt} (h : s.isReturn = false) :
      Part size (.executeBody frame (s :: ss)) (.execute frame s)
  | restOfBody {frame : Nat} {s : Stmt} {ss : List Stmt} (h : s.isReturn = false) :
      Part size (.executeBody frame (s :: ss)) (.executeBody frame ss)

namespace Proofs.Parts
open Machine Plans OwnActions

variable {α : Type} {size : Nat}

theorem tasks_mono {size' : Nat} (hsize : size ≤ size') {S T : Task → Prop} (hST : ∀ t, S t → T t)
    {p : Plan α} (h : p.Tasks size S) : p.Tasks size' T := by
  induction p with
  | done a => trivial
  | act x next ih => exact fun m a m' hm hx => ih a (h m a m' (Nat.le_trans hsize hm) hx)
  | task t next ih => exact ⟨hST t h.1, fun a => ih a (h.2 a)⟩
  | function ref vs next ih => exact fun v => ih v (h v)

theorem tasks_enter {frame : Nat} {S : Task → Prop} {next : Nat → Plan α}
    (h : ∀ block, size ≤ block → (next block).Tasks size S) : (Plan.act (enter frame) next).Tasks size S := by
  intro m block m' hsize hentry
  cases hentry
  exact h _ hsize

theorem tasks_ite {S : Task → Prop} {p : Prop} [Decidable p] {x y : Plan α} (hx : x.Tasks size S)
    (hy : y.Tasks size S) : (if p then x else y).Tasks size S := by
  split
  · exact hx
  · exact hy

theorem parts_eval (frame : Nat) (e : Expr) :
    (Task.eval frame e).plan.Tasks size ((Task.eval frame e).Part size) := by
  cases e with
  | number x => trivial
  | text s => trivial
  | array es => exact ⟨.elements, fun _ _ _ _ _ _ => trivial⟩
  | object ps => exact ⟨.entries, fun _ _ _ _ _ _ => trivial⟩
  | identifier name => exact fun _ _ _ _ _ => trivial
  | assign name e => exact ⟨.assigned, fun _ _ _ _ _ _ => trivial⟩
  | call callee es => exact ⟨.callee, fun f => ⟨.arguments, fun vs => ⟨.call f vs, fun _ => trivial⟩⟩⟩
  | member object key computed assignment =>
    cases assignment with
    | none => exact ⟨.target, fun _ => ⟨.key, fun _ _ _ _ _ _ => trivial⟩⟩
    | some e => exact ⟨.target, fun _ => ⟨.key, fun _ => ⟨.written, fun _ _ _ _ _ _ => trivial⟩⟩⟩
  | boolean left op right => cases op <;> exact ⟨.booleanLeft, fun _ => ⟨.booleanRight, fun _ => trivial⟩⟩
  | binary left op right => exact ⟨.binaryLeft, fun _ => ⟨.binaryRight, fun _ _ _ _ _ _ => trivial⟩⟩
  | logical left op equals right => exact ⟨.logicalLeft, fun _ => ⟨.logicalRight, fun _ => trivial⟩⟩
  | not e => exact ⟨.negated, fun _ => trivial⟩

theorem parts_execute (frame : Nat) (stmt : Stmt) :
    (Task.execute frame stmt).plan.Tasks size ((Task.execute frame stmt).Part size) := by
  cases stmt with
  | expr e => exact ⟨.value, fun _ => trivial⟩
  | varDecl name constant e => exact ⟨.initial, fun _ _ _ _ _ _ => trivial⟩
  | structDecl name fields => exact fun _ _ _ _ _ => trivial
  | fnDecl name parameters body => exact fun _ _ _ _ _ => trivial
  | ret e => exact fun _ _ _ _ _ => ⟨.returned, fun _ => trivial⟩
  | ifThen test body =>
    refine ⟨.condition, fun t => tasks_ite (tasks_enter fun block hblock => ?_) trivial⟩
    exact ⟨.consequent hblock, fun _ => trivial⟩
  | whileDo test body => exact ⟨.loop, fun _ => trivial⟩

theorem parts_call (f : Value) (vs : List Value) :
    (Task.call f vs).plan.Tasks size ((Task.call f vs).Part size) := by
  cases f with
  | function ref => exact fun _ => trivial
  | native ref =>
    intro m found m' _ _
    cases found with
    | none => trivial
    | some native => exact fun _ _ _ _ _ => trivial
  | _ => exact fun _ _ _ _ _ _ _ _ _ _ => trivial

theorem parts_executeBody (frame : Nat) (stmts : List Stmt) :
    (Task.executeBody frame stmts).plan.Tasks size ((Task.executeBody frame stmts).Part size) := by
  cases stmts with
  | nil => trivial
  | cons stmt stmts =>
    cases stmt with
    | ret e => exact ⟨.result, fun _ => trivial⟩
    | ifThen test body =>
      refine ⟨.firstOfBody rfl, fun flow => ?_⟩
      cases flow with
      | normal v => exact ⟨.restOfBody rfl, fun _ => trivial⟩
      | returned v => exact tasks_ite trivial ⟨.restOfBody rfl, fun _ => trivial⟩
    | _ => exact ⟨.firstOfBody rfl, fun _ => ⟨.restOfBody rfl, fun _ => trivial⟩⟩

/-- A plan names nothing but the parts of its task. -/
theorem plan_parts (size : Nat) (t : Task) : t.plan.Tasks size (t.Part size) := by
  cases t with
  | eval frame e => exact parts_eval frame e
  | evalAll frame es =>
    cases es with
    | nil => trivial
    | cons e es => exact ⟨.firstElement, fun _ => ⟨.moreElements, fun _ => trivial⟩⟩
  | evalProperties frame ps =>
    cases ps with
    | nil => trivial
    | cons p ps =>
      cases p with
      | shorthand key => exact fun _ _ _ _ _ => ⟨.moreEntries, fun _ => trivial⟩
      | valued key e => exact ⟨.firstEntry, fun _ => ⟨.moreEntries, fun _ => trivial⟩⟩
  | evalKey frame e computed =>
    cases computed with
    | true => exact ⟨.computedKey, fun _ => by cases e <;> trivial⟩
    | false =>
      cases e with
      | identifier name => trivial
      | _ => exact fun _ _ _ _ _ => trivial
  | execute frame stmt => exact parts_execute frame stmt
  | executeBlock frame stmts =>
    cases stmts with
    | nil => trivial
    | cons s ss => exact ⟨.firstOfBlock, fun _ => tasks_ite trivial ⟨.restOfBlock, fun _ => trivial⟩⟩
  | executeAll frame stmts =>
    cases stmts with
    | nil => trivial
    | cons s ss => exact ⟨.firstOfAll, fun _ => ⟨.restOfAll, fun _ => trivial⟩⟩
  | loop frame test body =>
    refine ⟨.test, fun t => tasks_ite (tasks_enter fun turn hturn => ?_) trivial⟩
    exact ⟨.turn hturn, fun _ => ⟨.again, fun _ => trivial⟩⟩
  | call f vs => exact parts_call f vs
  | executeBody frame stmts => exact parts_executeBody frame stmts

theorem runs_depth {m m' : Machine} (h : m.Runs m') : m'.depth = m.depth ∧ m'.limit = m.limit := by
  induction h with
  | refl m => exact ⟨rfl, rfl⟩
  | trans _ _ hab hbc => exact ⟨hbc.1.trans hab.1, hbc.2.trans hab.2⟩
  | store h => exact ⟨rfl, rfl⟩
  | output m output => exact ⟨rfl, rfl⟩
  | schedule m schedule => exact ⟨rfl, rfl⟩
  | random m random => exact ⟨rfl, rfl⟩
  | call hdepth _ hbody =>
    refine ⟨?_, hbody.2⟩
    rw [hbody.1]
    exact Nat.add_sub_cancel _ 1

theorem done_runs {x : Action α} (hx : x.Runs) {m m' : Machine} {a : α} (h : x m = .done a m') :
    m'.depth = m.depth ∧ m'.limit = m.limit ∧ m.store.frames.size ≤ m'.store.frames.size := by
  have hm := hx m
  rw [h] at hm
  obtain ⟨hdepth, hlimit⟩ := runs_depth hm
  exact ⟨hdepth, hlimit, (StoreGrowth.runs_grows hm).frames.size_le⟩

theorem runs_run (n : Nat) (t : Task) : (t.run n).Runs := by
  have h := Runs.evaluator_runs n
  cases t with
  | eval frame e => exact h.eval frame e
  | evalAll frame es => exact h.evalAll frame es
  | evalProperties frame ps => exact h.evalProperties frame ps
  | evalKey frame e computed => exact h.evalKey frame e computed
  | execute frame stmt => exact h.execute frame stmt
  | executeBlock frame stmts => exact h.executeBlock frame stmts
  | executeAll frame stmts => exact h.executeAll frame stmts
  | loop frame test body => exact h.loop frame test body
  | call f vs => exact h.call f vs
  | executeBody frame stmts => exact h.executeBody frame stmts

theorem runs_enterFunction (f : Function) (vs : List Value) : (enterFunction f vs).Runs :=
  Runs.runs_bind (Runs.runs_enter _) fun frame =>
    Runs.runs_bind (Runs.runs_bindParameters frame _ _) fun _ => Runs.runs_pure frame

theorem runs_callFunction {body : Nat → List Stmt → Action Value}
    (hbody : ∀ frame stmts, (body frame stmts).Runs)
    (ref : Nat) (vs : List Value) : (callFunction body ref vs).Runs := by
  refine Runs.runs_bind (Runs.runs_look _) fun found => ?_
  cases found with
  | none => exact Runs.runs_pure _
  | some f =>
    exact Runs.runs_counted (Runs.runs_bind (runs_enterFunction f vs) fun frame => hbody frame f.body)

theorem acts_runs (t : Task) : t.plan.Acts Action.Runs :=
  acts_mono (fun h => own_runs h) (own_plan t)

theorem enterFunction_frame {f : Function} {vs : List Value} {m m' : Machine} {frame : Nat}
    (h : enterFunction f vs m = .done frame m') : frame = m.store.frames.size := by
  obtain ⟨inner, m₁, hentry, hrest⟩ := bind_done h
  obtain ⟨_, m₂, _, hend⟩ := bind_done hrest
  cases hentry
  cases hend
  rfl

/-- A plan comes to the tasks that it names with the count of calls that it began with. The body of a called
function, which no plan names, counts one more, for which there was room, and has a new frame. -/
theorem invokes_tasks {n : Nat} {S : Task → Prop} {p : Plan α} (hacts : p.Acts Action.Runs)
    (htasks : p.Tasks size S)
    {m m' : Machine} {t : Task} (h : p.Invokes (Task.run n) m t m') (hsize : size ≤ m.store.frames.size) :
    m'.limit = m.limit ∧ (S t ∧ m'.depth = m.depth ∨
      (∃ frame stmts, t = .executeBody frame stmts ∧ size ≤ frame) ∧
        m.depth < m.limit ∧ m'.depth = m.depth + 1) := by
  induction h with
  | act hx _ ih =>
    obtain ⟨hdepth, hlimit, hgrown⟩ := done_runs hacts.1 hx
    rw [← hdepth, ← hlimit]
    exact ih (hacts.2 _) (htasks _ _ _ hsize hx) (Nat.le_trans hsize hgrown)
  | here t next m => exact ⟨rfl, .inl ⟨htasks.1, rfl⟩⟩
  | after hs _ ih =>
    obtain ⟨hdepth, hlimit, hgrown⟩ := done_runs (runs_run n _) hs
    rw [← hdepth, ← hlimit]
    exact ih (hacts _) (htasks.2 _) (Nat.le_trans hsize hgrown)
  | body hf hroom hentry =>
    obtain ⟨hdepth, hlimit, _⟩ := done_runs (runs_enterFunction _ _) hentry
    obtain rfl := enterFunction_frame hentry
    exact ⟨hlimit, .inr ⟨⟨_, _, rfl, hsize⟩, hroom, hdepth⟩⟩
  | afterCall hcall _ ih =>
    obtain ⟨hdepth, hlimit, hgrown⟩ := done_runs (runs_callFunction (fun _ _ => runs_run n _) _ _) hcall
    rw [← hdepth, ← hlimit]
    exact ih (hacts _) (htasks _) (Nat.le_trans hsize hgrown)

/-- A task comes to its parts, and to bodies of functions. -/
theorem invokes_parts {n : Nat} {t t' : Task} {m m' : Machine} (h : t.Invokes n m t' m') :
    m'.limit = m.limit ∧ (t.Part m.store.frames.size t' ∧ m'.depth = m.depth ∨
      (∃ frame stmts, t' = .executeBody frame stmts ∧ m.store.frames.size ≤ frame) ∧
        m.depth < m.limit ∧ m'.depth = m.depth + 1) :=
  invokes_tasks (acts_runs t) (plan_parts _ t) h (Nat.le_refl _)

end Proofs.Parts

end Scriptlet
