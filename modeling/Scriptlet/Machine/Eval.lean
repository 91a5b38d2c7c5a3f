import Scriptlet.Machine.Natives
import Scriptlet.Store.Scope

namespace Scriptlet

/-- How a statement ends: as usual, or with a value to return. -/
inductive Flow where
  | normal (value : Value)
  | returned (value : Value)

def Flow.value : Flow → Value
  | normal v | returned v => v

namespace Machine

def enter (frame : Nat) : Action Nat :=
  Action.allocate fun s => s.addFrame (some frame)

def declare (frame : Nat) (name : String) (value : Value) (constant : Bool) : Action Unit :=
  Action.update fun s => s.declare frame name value constant

/-- Declares the parameters of a call. A missing argument is null, one too many is left out. -/
def bindParameters (frame : Nat) : List String → List Value → Action Unit
  | [], _ => pure ()
  | p :: ps, vs => do
    declare frame p (vs.headD .null) false
    bindParameters frame ps vs.tail

def declareStruct (frame : Nat) (name : String) (fields : List Field) : Action Unit := do
  let v ← Action.allocate fun s => s.addStruct ⟨name, fields⟩
  declare frame name v true

/-- Declares a function, which then sees itself. -/
def declareFunction (frame : Nat) (name : String) (parameters : List String)
    (body : List Stmt) : Action Unit := do
  let v ← Action.allocate fun s => s.addFunction ⟨name, parameters, body, frame⟩
  declare frame name v true
  Action.update fun s => s.attachClosure frame name

def beginCall : Action Unit := do
  let depth ← Action.look Machine.depth
  let limit ← Action.look Machine.limit
  if limit ≤ depth then .fail (.callDepthExceeded limit)
  else Action.modify fun m => { m with depth := m.depth + 1 }

/-- Runs the body of a call, and ends the call also after a fault. -/
def endCall {α : Type} (body : Action α) : Action α :=
  fun m => match body m with
    | .done v m' => .done v { m' with depth := m'.depth - 1 }
    | .fault e m' => .fault e { m' with depth := m'.depth - 1 }
    | .starved => .starved

mutual

/-- The value of an expression at a frame. Here and below, the number is a bound on how deep an
action may go. One that reaches the bound has no end, and a greater bound never changes how one
ended. -/
def eval (frame : Nat) : Nat → Expr → Action Value
  | 0, _ => .starve
  | _ + 1, .number x => return .number x
  | _ + 1, .text s => return .text s
  | n + 1, .array es => do
    let vs ← evalAll frame n es
    Action.allocate fun s => s.addArray vs.toArray
  | n + 1, .object ps => do
    let entries ← evalProperties frame n ps
    Action.allocate fun s => s.addObject (.ofEntries entries)
  | _ + 1, .identifier name => Action.read fun s => s.lookup frame name
  | n + 1, .assign name e => do
    let v ← eval frame n e
    Action.update fun s => s.assign frame name v
    return v
  | n + 1, .call callee es => do
    let f ← eval frame n callee
    let vs ← evalAll frame n es
    call n f vs
  | n + 1, .member object member computed assignment => do
    let target ← eval frame n object
    let key ← evalKey frame n member computed
    match assignment with
    | some e =>
      let v ← eval frame n e
      Action.update fun s => s.setMember target key v
      return v
    | none => Action.read fun s => s.getMember target key
  | n + 1, .boolean left operator right => do
    let l ← eval frame n left
    let r ← eval frame n right
    match operator with
    | .and => return .boolean (l.isTruthy && r.isTruthy)
    | .or => return .boolean (l.isTruthy || r.isTruthy)
  | n + 1, .binary left operator right => do
    let l ← eval frame n left
    let r ← eval frame n right
    Action.read fun s => s.binary operator l r
  | n + 1, .logical left operator equals right => do
    let l ← eval frame n left
    let r ← eval frame n right
    return .boolean (Value.compare operator equals l r)
  | n + 1, .not e => do
    let v ← eval frame n e
    return .boolean (!v.isTruthy)
termination_by structural n => n

def evalAll (frame : Nat) : Nat → List Expr → Action (List Value)
  | 0, _ => .starve
  | _ + 1, [] => return []
  | n + 1, e :: es => do
    let v ← eval frame n e
    let vs ← evalAll frame n es
    return v :: vs
termination_by structural n => n

def evalProperties (frame : Nat) : Nat → List Property → Action (List (String × Value))
  | 0, _ => .starve
  | _ + 1, [] => return []
  | n + 1, .shorthand key :: ps => do
    let v ← Action.read fun s => s.lookup frame key
    let entries ← evalProperties frame n ps
    return (key, v) :: entries
  | n + 1, .valued key e :: ps => do
    let v ← eval frame n e
    let entries ← evalProperties frame n ps
    return (key, v) :: entries
termination_by structural n => n

def evalKey (frame : Nat) : Nat → Expr → Bool → Action Value
  | 0, _, _ => .starve
  | n + 1, e, true => eval frame n e
  | _ + 1, .identifier name, false => return .text name
  | _ + 1, e, false => .fail (.irregular (.memberName e.kindName))
termination_by structural n => n

def execute (frame : Nat) : Nat → Stmt → Action Flow
  | 0, _ => .starve
  | n + 1, .expr e => do
    let v ← eval frame n e
    return .normal v
  | n + 1, .varDecl name constant e => do
    let v ← eval frame n e
    declare frame name v constant
    return .normal .null
  | _ + 1, .structDecl name fields => do
    declareStruct frame name fields
    return .normal .null
  | _ + 1, .fnDecl name parameters body => do
    declareFunction frame name parameters body
    return .normal .null
  | n + 1, .ret e => do
    if (← Action.look Machine.depth) = 0 then .fail (.irregular .strayReturn)
    else
      let v ← eval frame n e
      return .returned v
  | n + 1, .ifThen test consequent => do
    let t ← eval frame n test
    if t.isTruthy then
      let block ← enter frame
      executeBlock block n consequent
    else return .normal .null
  | n + 1, .whileDo test body => do
    loop frame n test body
    return .normal .null
termination_by structural n => n

/-- Runs the statements of a conditional block. A return among them ends the block; one that is
nested deeper does not. -/
def executeBlock (frame : Nat) : Nat → List Stmt → Action Flow
  | 0, _ => .starve
  | _ + 1, [] => return .normal .null
  | n + 1, stmt :: stmts => do
    let flow ← execute frame n stmt
    if stmt.isReturn then return flow else executeBlock frame n stmts
termination_by structural n => n

def executeAll (frame : Nat) : Nat → List Stmt → Action Unit
  | 0, _ => .starve
  | _ + 1, [] => return ()
  | n + 1, stmt :: stmts => do
    let _ ← execute frame n stmt
    executeAll frame n stmts
termination_by structural n => n

/-- Runs a loop, each turn in a new frame. A return inside does not end it. -/
def loop (frame : Nat) : Nat → Expr → List Stmt → Action Unit
  | 0, _, _ => .starve
  | n + 1, test, body => do
    let t ← eval frame n test
    if t.isTruthy then
      let turn ← enter frame
      executeAll turn n body
      loop frame n test body
    else return ()
termination_by structural n => n

def call : Nat → Value → List Value → Action Value
  | 0, _, _ => .starve
  | n + 1, .function ref, vs => do
    match ← Action.look (·.store.functions[ref]?) with
    | some f =>
      beginCall
      endCall do
        let frame ← enter f.closure
        bindParameters frame f.parameters vs
        executeBody frame n f.body
    | none => return .null
  | _ + 1, .native ref, vs => do
    match ← Action.look (·.store.natives[ref]?) with
    | some native => native.call vs
    | none => return .null
  | _ + 1, .structType ref, vs => do
    let object ← Action.read fun s => s.instantiate (s.structAt ref) vs
    Action.allocate fun s => s.addObject object
  | _ + 1, v, _ => do
    let shown ← Action.look (·.store.display v)
    .fail (.mismatch (.notCallable v.kind shown))
termination_by structural n => n

/-- Runs the body of a function. A return gives its value; a conditional block that returned gives
its value if that is truthy, and otherwise the body goes on. -/
def executeBody (frame : Nat) : Nat → List Stmt → Action Value
  | 0, _ => .starve
  | _ + 1, [] => return .null
  | n + 1, .ret e :: _ => eval frame n e
  | n + 1, .ifThen test consequent :: stmts => do
    match ← execute frame n (.ifThen test consequent) with
    | .returned v => if v.isTruthy then return v else executeBody frame n stmts
    | .normal _ => executeBody frame n stmts
  | n + 1, stmt :: stmts => do
    let _ ← execute frame n stmt
    executeBody frame n stmts
termination_by structural n => n

end

end Machine

end Scriptlet
