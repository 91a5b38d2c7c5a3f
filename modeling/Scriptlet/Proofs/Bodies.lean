import Scriptlet.Machine.Eval

namespace Scriptlet

/-- A function with something made of its body. -/
def Function.mapBody (g : List Stmt → List Stmt) (f : Function) : Function :=
  { f with body := g f.body }

namespace Store

/-- A store with something made of the body of every function. -/
def mapBodies (g : List Stmt → List Stmt) (s : Store) : Store :=
  { s with functions := s.functions.map (Function.mapBody g) }

/-- What is read off a store without a look at the bodies of functions. -/
def Blind {β : Type} (f : Store → β) : Prop :=
  ∀ g s, f (s.mapBodies g) = f s

end Store

namespace Proofs.Bodies

variable (g : List Stmt → List Stmt) (s : Store)

theorem mapBodies_id : s.mapBodies id = s := by
  have hbody : Function.mapBody id = id := rfl
  simp [Store.mapBodies, hbody]

theorem functions_mapBodies (ref : Nat) :
    (s.mapBodies g).functions[ref]? = s.functions[ref]?.map (Function.mapBody g) := by
  simp [Store.mapBodies]

theorem addFunction_mapBodies (f : Function) :
    (s.mapBodies g).addFunction (f.mapBody g) = ((s.addFunction f).1, (s.addFunction f).2.mapBodies g) := by
  simp [Store.addFunction, Store.mapBodies]

theorem apply_mapBodies (e : Edit) : (s.mapBodies g).apply e = (s.apply e).mapBodies g := by
  cases e with
  | enclose function frame =>
    simp only [Store.apply, Store.mapBodies, Store.mk.injEq, true_and]
    apply Array.ext_getElem?
    intro i
    simp only [Array.getElem?_modify, Array.getElem?_map]
    split
    · simp [Function.comp_def, Function.mapBody]
    · rfl
  | _ => rfl

section Blind

open Store

theorem blind_outward (n frame : Nat) : Blind fun s => s.outward n frame := by
  intro g s
  have hframes : (s.mapBodies g).frames = s.frames := rfl
  induction n generalizing frame with
  | zero => rfl
  | succ n ih => simp only [outward, hframes, ih]

theorem blind_resolve (frame : Nat) (name : String) : Blind fun s => s.resolve? frame name := by
  intro g s
  exact congrArg (List.find? fun i => s.declaresIn i name) (blind_outward s.frames.size frame g s)

theorem blind_lookup (frame : Nat) (name : String) : Blind fun s => s.lookup frame name := by
  intro g s
  have hresolve := blind_resolve frame name g s
  simp only [lookup, hresolve]
  rfl

theorem blind_assign (frame : Nat) (name : String) (value : Value) :
    Blind fun s => s.assign frame name value := by
  intro g s
  have hresolve := blind_resolve frame name g s
  simp only [assign, hresolve]
  rfl

theorem blind_toJsonWithin (n : Nat) (path : List Cell) (v : Value) :
    Blind fun s => s.toJsonWithin n path v := by
  intro g s
  induction n generalizing path v with
  | zero => cases v <;> rfl
  | succ n ih =>
    cases v with
    | array ref =>
      have hparts : (s.mapBodies g).toJsonWithin n (.array ref :: path) =
          s.toJsonWithin n (.array ref :: path) :=
        funext (ih _)
      simp only [toJsonWithin, hparts]
      rfl
    | object ref =>
      simp only [toJsonWithin, ih]
      rfl
    | _ => rfl

theorem blind_display (v : Value) : Blind fun s => s.display v := by
  intro g s
  have hjson : (s.mapBodies g).renderComposite v = s.renderComposite v := by
    simp only [renderComposite, toJson, blind_toJsonWithin _ _ _ g s]
    rfl
  cases v with
  | array ref => exact hjson
  | object ref => exact hjson
  | _ => rfl

theorem blind_getMember (target key : Value) : Blind fun s => s.getMember target key := by
  intro g s
  cases target <;> simp only [getMember, blind_display _ g s] <;> rfl

theorem blind_setMember (target key value : Value) : Blind fun s => s.setMember target key value := by
  intro g s
  cases target with
  | array ref =>
    simp only [setMember, blind_display _ g s]
    rfl
  | _ => simp only [setMember, blind_display _ g s]

theorem blind_binary (op : BinaryOp) (left right : Value) : Blind fun s => s.binary op left right := by
  intro g s
  simp only [binary, blind_display _ g s]

theorem blind_bindFields (struct : String) (fields : List Field) (vs : List Value) (o : Object) :
    Blind fun s => s.bindFields struct fields vs o := by
  intro g s
  induction fields generalizing vs o with
  | nil => rfl
  | cons f fs ih =>
    cases vs with
    | nil => rfl
    | cons v vs =>
      simp only [bindFields, ih, blind_display _ g s]
      rfl

theorem blind_instantiate (ref : Nat) (vs : List Value) : Blind fun s => s.instantiate (s.structAt ref) vs :=
  fun g s => blind_bindFields (s.structAt ref).name (s.structAt ref).fields vs .empty g s

end Blind

end Proofs.Bodies

end Scriptlet
