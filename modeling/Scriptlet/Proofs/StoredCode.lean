import Scriptlet.Proofs.Parts

namespace Scriptlet

/-- A property of tasks that depends on their code alone and is handed on to every part of it. -/
structure Task.Inherited (C : Task → Prop) : Prop where
  parts : ∀ {t t'}, C t → t.Part 0 t' → C t'
  body : ∀ {frame name parameters body}, C (.execute frame (.fnDecl name parameters body)) →
    ∀ inner, C (.executeBody inner body)

/-- Every function in the store has a body with the property. -/
def Store.Holds (C : Task → Prop) (s : Store) : Prop :=
  ∀ (ref : Nat) f, s.functions[ref]? = some f → ∀ frame, C (.executeBody frame f.body)

namespace Proofs.StoredCode
open Machine Plans OwnActions Parts

variable {α : Type} {C : Task → Prop}

theorem holds_of_functions {s t : Store} (h : t.functions = s.functions) (hs : s.Holds C) : t.Holds C := by
  intro ref f hf
  rw [h] at hf
  exact hs ref f hf

theorem holds_addFunction {s : Store} {f : Function} (hs : s.Holds C)
    (hf : ∀ frame, C (.executeBody frame f.body)) : (s.addFunction f).2.Holds C := by
  intro ref g hg
  simp only [Store.addFunction, Array.getElem?_push] at hg
  split at hg
  · obtain rfl := Option.some.inj hg
    exact hf
  · exact hs ref g hg

theorem holds_enclose {s : Store} (hs : s.Holds C) (function frame : Nat) :
    (s.apply (.enclose function frame)).Holds C := by
  intro ref g hg
  simp only [Store.apply, Array.getElem?_modify] at hg
  split at hg
  · obtain ⟨f, hf, rfl⟩ := Option.map_eq_some_iff.mp hg
    exact hs ref f hf
  · exact hs ref g hg

/-- What an action keeps of the code in the store. -/
def KeepsCode (C : Task → Prop) (s t : Store) : Prop :=
  s.Holds C → t.Holds C

theorem KeepsCode.refl (s : Store) : KeepsCode C s s :=
  id

theorem KeepsCode.trans (s t u : Store) (hst : KeepsCode C s t) (htu : KeepsCode C t u) : KeepsCode C s u :=
  htu ∘ hst

theorem keepsCode_declare (frame : Nat) (name : String) (value : Value) (constant : Bool) :
    (declare frame name value constant).Keeps (KeepsCode C) := by
  refine keeps_update KeepsCode.refl fun s e he => ?_
  rw [(Runs.admits_declare he).1]
  exact holds_of_functions rfl

theorem keepsCode_attachClosure (frame : Nat) (name : String) :
    (Action.update fun s => s.attachClosure frame name).Keeps (KeepsCode C) := by
  refine keeps_update KeepsCode.refl fun s e he hs => ?_
  obtain ⟨ref, rfl⟩ := DeclaredNames.attachClosure_ok he
  exact holds_enclose hs ref frame

theorem keepsCode_bindParameters (frame : Nat) (names : List String) (vs : List Value) :
    (bindParameters frame names vs).Keeps (KeepsCode C) := by
  induction names generalizing vs with
  | nil => exact fun m => KeepsCode.refl m.store
  | cons p ps ih => exact keeps_bind KeepsCode.trans (keepsCode_declare frame p _ false) fun _ => ih vs.tail

theorem keepsCode_enterFunction (f : Function) (vs : List Value) :
    (enterFunction f vs).Keeps (KeepsCode C) := by
  refine keeps_bind KeepsCode.trans (fun m => holds_of_functions rfl) fun frame => ?_
  refine keeps_bind KeepsCode.trans (keepsCode_bindParameters frame _ _) fun _ => ?_
  exact fun m => KeepsCode.refl m.store

theorem keepsCode_own (hC : Task.Inherited C) {t : Task} (ht : C t) {x : Action α} (h : t.Own x) :
    x.Keeps (KeepsCode C) := by
  refine own_keeps (fun s u hsu => holds_of_functions hsu.functions)
    (fun s parent => holds_of_functions rfl) h
    (fun frame name value constant _ _ => ?_) (fun frame name fields _ => ?_)
    fun frame name parameters body heq => ?_
  · exact keepsCode_declare frame name value constant
  · refine keeps_bind KeepsCode.trans (fun m => holds_of_functions rfl) fun v => ?_
    exact keepsCode_declare frame name v true
  · subst heq
    refine keeps_bind KeepsCode.trans (fun m hs => holds_addFunction hs (hC.body ht)) fun v => ?_
    refine keeps_bind KeepsCode.trans (keepsCode_declare frame name v true) fun _ => ?_
    exact keepsCode_attachClosure frame name

/-- Tasks within a bound keep the code in the store. -/
def RunsKeep (C : Task → Prop) (n : Nat) : Prop :=
  ∀ t m, C t → m.store.Holds C → (t.run n m).Leaves (Store.Holds C)

variable {n : Nat}

theorem callFunction_holds (hruns : RunsKeep C n) {ref : Nat} {vs : List Value} {m : Machine}
    (hm : m.store.Holds C) :
    (callFunction (fun frame stmts => Task.run n (.executeBody frame stmts)) ref vs m).Leaves
      (Store.Holds C) := by
  refine (leaves_callFunction KeepsCode.refl KeepsCode.trans keepsCode_enterFunction
    fun f frame m' hf _ hentry => ?_).mono fun _ hs => hs hm
  have hentered : m'.store.Holds C := (keepsCode_enterFunction f vs _).of_done hentry hm
  exact (hruns (.executeBody frame f.body) m' (hm ref f hf frame) hentered).mono fun _ hs _ => hs

theorem invokes_holds_of (hruns : RunsKeep C n) {p : Plan α} (hacts : p.Acts (·.Keeps (KeepsCode C)))
    (htasks : p.Tasks 0 C) {m m' : Machine} {t : Task} (h : p.Invokes (Task.run n) m t m')
    (hm : m.store.Holds C) : C t ∧ m'.store.Holds C := by
  induction h with
  | act hx _ ih => exact ih (hacts.2 _) (htasks _ _ _ (Nat.zero_le _) hx) ((hacts.1 _).of_done hx hm)
  | here t next m => exact ⟨htasks.1, hm⟩
  | after hs _ ih => exact ih (hacts _) (htasks.2 _) ((hruns _ _ htasks.1 hm).of_done hs)
  | body hf _ hentry => exact ⟨hm _ _ hf _, (keepsCode_enterFunction _ _ _).of_done hentry hm⟩
  | afterCall hcall _ ih => exact ih (hacts _) (htasks _) ((callFunction_holds hruns hm).of_done hcall)

theorem acts_keepCode (hC : Task.Inherited C) {t : Task} (ht : C t) : t.plan.Acts (·.Keeps (KeepsCode C)) :=
  acts_mono (fun h => keepsCode_own hC ht h) (own_plan t)

theorem tasks_inherited (hC : Task.Inherited C) {t : Task} (ht : C t) : t.plan.Tasks 0 C :=
  tasks_mono (Nat.le_refl 0) (fun _ => hC.parts ht) (plan_parts 0 t)

theorem runs_keep (hC : Task.Inherited C) (n : Nat) : RunsKeep C n := by
  induction n with
  | zero =>
    intro t m _ _
    rw [run_zero]
    trivial
  | succ n ih =>
    intro t m ht hm
    rw [Tasks.run_succ]
    have h : (t.plan.run (Task.run n) m).Leaves (KeepsCode C m.store) := by
      refine leaves_run KeepsCode.refl KeepsCode.trans keepsCode_enterFunction (acts_keepCode hC ht)
        fun t' m' hinvokes => ?_
      obtain ⟨ht', hm'⟩ := invokes_holds_of ih (acts_keepCode hC ht) (tasks_inherited hC ht) hinvokes hm
      exact (ih t' m' ht' hm').mono fun _ hs _ => hs
    exact h.mono fun _ hs => hs hm

/-- What a task comes to has the property again, on a store that holds nothing else. -/
theorem invokes_holds (hC : Task.Inherited C) {t t' : Task} {m m' : Machine} (ht : C t) (hm : m.store.Holds C)
    (h : t.Invokes n m t' m') : C t' ∧ m'.store.Holds C :=
  invokes_holds_of (runs_keep hC n) (acts_keepCode hC ht) (tasks_inherited hC ht) h hm

end Proofs.StoredCode

end Scriptlet
