import Scriptlet.Proofs.DeclaredNames
import Scriptlet.Proofs.Plans

namespace Scriptlet

/-- Whether a fault blames the tree of the program. -/
def Fault.isIrregular : Fault → Bool
  | .irregular _ => true
  | _ => false

/-- Whether an action ended as usual, or with a fault that does not blame the tree. -/
def Ending.isProper : Ending → Bool
  | .done => true
  | .fault e => !e.isIrregular
  | .starved => false

/-- Neither a name nor a function has been declared. -/
structure Store.NothingDeclared (s t : Store) : Prop where
  size : t.frames.size = s.frames.size
  names : ∀ i name, t.declaresIn i name = s.declaresIn i name
  functions : t.functions = s.functions

def Action.Proper {α : Type} (x : Action α) : Prop :=
  ∀ m, (x m).ending.isProper = true

structure Action.Plain {α : Type} (x : Action α) : Prop where
  proper : x.Proper
  declares : x.Keeps Store.NothingDeclared

/-- The edits that declare nothing. -/
def Edit.isWrite : Edit → Bool
  | .bind .. | .enclose .. => false
  | .put .. | .setEntry .. | .setElement .. | .pushElement .. => true

theorem Store.NothingDeclared.refl (s : Store) : s.NothingDeclared s :=
  ⟨rfl, fun _ _ => rfl, rfl⟩

theorem Store.NothingDeclared.trans {s t u : Store} (hst : s.NothingDeclared t) (htu : t.NothingDeclared u) :
    s.NothingDeclared u where
  size := htu.size.trans hst.size
  names i name := (htu.names i name).trans (hst.names i name)
  functions := htu.functions.trans hst.functions

theorem Store.NothingDeclared.of_eq {s t : Store} (hframes : t.frames = s.frames)
    (hfunctions : t.functions = s.functions) : s.NothingDeclared t where
  size := by rw [hframes]
  names i name := Proofs.DeclaredNames.declaresIn_of_frames hframes i name
  functions := hfunctions

namespace Proofs.PlainActions
open Machine Plans

variable {α β : Type}

theorem nothingDeclared_write (s : Store) {e : Edit} (h : e.isWrite = true) :
    s.NothingDeclared (s.apply e) := by
  cases e with
  | bind frame name binding => cases h
  | enclose function frame => cases h
  | put frame name value =>
    refine ⟨?_, fun i n => DeclaredNames.declaresIn_put s frame name value i n, rfl⟩
    simp [Store.apply]
  | setEntry object key value => exact .of_eq rfl rfl
  | setElement array index value => exact .of_eq rfl rfl
  | pushElement array value => exact .of_eq rfl rfl

theorem proper_fail {e : Fault} (he : e.isIrregular = false) : (Action.fail e : Action α).Proper := by
  intro m
  simp [Action.fail, Outcome.ending, Ending.isProper, he]

theorem proper_update {f : Store → Except Fault Edit} (hf : ∀ s e, f s = .error e → e.isIrregular = false) :
    (Action.update f).Proper := by
  intro m
  unfold Action.update
  split
  · rfl
  · rename_i e he
    exact proper_fail (α := Unit) (hf _ e he) m

theorem proper_bind {x : Action α} {f : α → Action β} (hx : x.Proper) (hf : ∀ a, (f a).Proper) :
    (x >>= f).Proper := by
  intro m
  have hm := hx m
  rw [bind_eq]
  cases hend : x m with
  | done a m' => exact hf a m'
  | fault e m' =>
    rw [hend] at hm
    exact hm
  | starved =>
    rw [hend] at hm
    cases hm

theorem avoids_of_proper {x : Action α} (hx : x.Proper) {g : Ending} (hg : g.isProper = false) :
    x.Avoids g := by
  intro m hm
  have hproper := hx m
  rw [hm, hg] at hproper
  cases hproper

theorem plain_pure (a : α) : (pure a : Action α).Plain :=
  ⟨fun _ => rfl, fun m => .refl m.store⟩

theorem plain_fail {e : Fault} (he : e.isIrregular = false) : (Action.fail e : Action α).Plain :=
  ⟨proper_fail he, fun m => .refl m.store⟩

theorem plain_look (f : Machine → α) : (Action.look f).Plain :=
  ⟨fun _ => rfl, fun m => .refl m.store⟩

theorem plain_modify {f : Machine → Machine} (h : ∀ m, (f m).store = m.store) : (Action.modify f).Plain := by
  refine ⟨fun _ => rfl, fun m => ?_⟩
  change m.store.NothingDeclared (f m).store
  rw [h m]
  exact .refl m.store

theorem plain_allocate {f : Store → α × Store} (h : ∀ s : Store, s.NothingDeclared (f s).2) :
    (Action.allocate f).Plain :=
  ⟨fun _ => rfl, fun m => h m.store⟩

theorem plain_read {f : Store → Except Fault α} (hf : ∀ s e, f s = .error e → e.isIrregular = false) :
    (Action.read f).Plain := by
  constructor
  all_goals
    intro m
    unfold Action.read
    split
  · rfl
  · rename_i e he
    exact proper_fail (α := α) (hf _ e he) m
  · exact .refl m.store
  · exact .refl m.store

theorem plain_update {f : Store → Except Fault Edit} (hok : ∀ s e, f s = .ok e → e.isWrite = true)
    (hf : ∀ s e, f s = .error e → e.isIrregular = false) : (Action.update f).Plain := by
  refine ⟨proper_update hf, fun m => ?_⟩
  unfold Action.update
  split
  · rename_i e he
    exact nothingDeclared_write m.store (hok _ e he)
  · exact .refl m.store

theorem plain_bind {x : Action α} {f : α → Action β} (hx : x.Plain) (hf : ∀ a, (f a).Plain) :
    (x >>= f).Plain := by
  refine ⟨proper_bind hx.proper fun a => (hf a).proper, fun m => ?_⟩
  exact leaves_bind (fun _ _ _ => .trans) (hx.declares m) fun a m' _ => (hf a).declares m'

theorem plain_ite {p : Prop} [Decidable p] {x y : Action α} (hx : x.Plain) (hy : y.Plain) :
    (if p then x else y).Plain := by
  split
  · exact hx
  · exact hy

theorem plain_callback (name : String) (vs : List Value) : (Behaviour.callback name vs).Plain := by
  cases vs with
  | nil => exact plain_fail (e := .native name .functionMissing) rfl
  | cons v vs => exact plain_ite (plain_pure v) (plain_fail rfl)

theorem plain_printAll (vs : List Value) : (Behaviour.printAll vs).Plain := by
  induction vs with
  | nil => exact plain_pure ()
  | cons v vs ih => exact plain_bind (plain_modify fun _ => rfl) fun _ => ih

theorem plain_perform (name : String) (vs : List Value) (behaviour : Behaviour) :
    (behaviour.perform name vs).Plain := by
  cases behaviour with
  | print => exact plain_bind (plain_printAll vs) fun _ => plain_pure _
  | clear => exact plain_bind (plain_modify fun _ => rfl) fun _ => plain_pure _
  | sqrt =>
    cases vs with
    | nil => exact plain_fail (e := .native name .numberMissing) rfl
    | cons v vs => exact plain_pure _
  | rand => exact ⟨fun _ => rfl, fun m => .refl m.store⟩
  | addElement =>
    dsimp only [Behaviour.perform]
    split
    · refine plain_bind (plain_update (fun s e h => ?_) fun s e h => ?_) fun _ => plain_pure _
      · cases h
        rfl
      · cases h
    · exact plain_pure _
  | time => exact plain_bind (plain_look _) fun _ => plain_pure _
  | interval =>
    exact plain_bind (plain_callback name vs) fun f =>
      plain_bind (plain_modify fun _ => rfl) fun _ => plain_pure _
  | nextFrame =>
    exact plain_bind (plain_callback name vs) fun f =>
      plain_bind (plain_modify fun _ => rfl) fun _ => plain_pure _
  | collect => exact plain_allocate (f := fun s => s.addArray vs.toArray) fun s => .of_eq rfl rfl
  | constantly v => exact plain_pure v

/-- A native acts on what there is and calls nothing back. -/
theorem plain_nativeCall (native : Native) (vs : List Value) : (native.call vs).Plain := by
  unfold Native.call
  split
  · exact plain_ite (plain_fail rfl) (plain_perform _ _ _)
  · exact plain_perform _ _ _

section Store

variable {s : Store} {e : Fault}

theorem lookup_regular {frame : Nat} {name : String} (h : s.lookup frame name = .error e) :
    e.isIrregular = false := by
  grind [Store.lookup, Fault.isIrregular]

theorem getMember_regular {target key : Value} (h : s.getMember target key = .error e) :
    e.isIrregular = false := by
  cases target <;> grind [Store.getMember, Fault.isIrregular]

theorem binary_regular {op : BinaryOp} {l r : Value} (h : s.binary op l r = .error e) :
    e.isIrregular = false := by
  cases op <;> grind [Store.binary, Fault.isIrregular]

theorem bindFields_regular {struct : String} {fields : List Field} {vs : List Value} {o : Object}
    (h : s.bindFields struct fields vs o = .error e) : e.isIrregular = false := by
  fun_induction Store.bindFields s struct fields vs o <;> grind [Fault.isIrregular]

theorem declare_regular {frame : Nat} {name : String} {value : Value} {constant : Bool}
    (h : s.declare frame name value constant = .error e) : e.isIrregular = false := by
  grind [Store.declare, Fault.isIrregular]

theorem attachClosure_regular {frame : Nat} {name : String} (h : s.attachClosure frame name = .error e) :
    e.isIrregular = false := by
  grind [Store.attachClosure, Fault.isIrregular]

theorem assign_regular {frame : Nat} {name : String} {value : Value}
    (h : s.assign frame name value = .error e) : e.isIrregular = false := by
  grind [Store.assign, Fault.isIrregular]

theorem assign_write {frame : Nat} {name : String} {value : Value} {e : Edit}
    (h : s.assign frame name value = .ok e) : e.isWrite = true := by
  grind [Store.assign, Edit.isWrite]

theorem setMember_regular {target key value : Value} (h : s.setMember target key value = .error e) :
    e.isIrregular = false := by
  cases target <;> grind [Store.setMember, Fault.isIrregular]

theorem setMember_write {target key value : Value} {e : Edit} (h : s.setMember target key value = .ok e) :
    e.isWrite = true := by
  cases target <;> grind [Store.setMember, Edit.isWrite]

end Store

end Proofs.PlainActions

end Scriptlet
