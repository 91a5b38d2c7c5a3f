import Scriptlet.Host
import Scriptlet.Proofs.Parts

namespace Scriptlet

/-- The frames of `s` outside of `G` declare the same names in `t`. -/
structure Store.SameNamesOutside (G : Nat → Prop) (s t : Store) : Prop where
  size : s.frames.size ≤ t.frames.size
  names : ∀ i, i < s.frames.size → ¬G i → ∀ n, t.declaresIn i n = s.declaresIn i n

/-- All frames of `s` declare the same names in `t`. -/
def Store.SameNames (s t : Store) : Prop :=
  s.SameNamesOutside (fun _ => False) t

/-- The frames of `s` declare the same names in `t`, but for one that is new to its frame. -/
structure Store.Gains (frame : Nat) (name : String) (s t : Store) : Prop where
  size : s.frames.size ≤ t.frames.size
  new : s.declaresIn frame name = false
  names : ∀ i, i < s.frames.size → ∀ n, t.declaresIn i n = (s.declaresIn i n || (i == frame && n == name))

/-- Outcomes of a declaration, or of something that declares nothing: a name is added in the end, or there is
a fault and none is. -/
def Outcome.Declares {α : Type} (s : Store) (frame : Nat) (name? : Option String) : Outcome α → Prop
  | .done _ m =>
    match name? with
    | some name => s.Gains frame name m.store
    | none => s.SameNames m.store
  | .fault _ m => s.SameNames m.store
  | .starved => True

/-- The frame that a task can add names to, that whose statements it runs. -/
def Task.home? : Task → Option Nat
  | .execute frame stmt => stmt.declared?.map fun _ => frame
  | .executeBlock frame _ | .executeAll frame _ | .executeBody frame _ => some frame
  | .eval .. | .evalAll .. | .evalProperties .. | .evalKey .. | .loop .. | .call .. => none

namespace Proofs.Declarations
open Machine Plans OwnActions Parts DeclaredNames

variable {α : Type} {G : Nat → Prop} {s t u : Store}

theorem sameNames_refl (s : Store) : s.SameNamesOutside G s :=
  ⟨Nat.le_refl _, fun _ _ _ _ => rfl⟩

theorem sameNames_trans (s t u : Store) (hst : s.SameNamesOutside G t) (htu : t.SameNamesOutside G u) :
    s.SameNamesOutside G u where
  size := Nat.le_trans hst.size htu.size
  names i hi hG n := (htu.names i (Nat.lt_of_lt_of_le hi hst.size) hG n).trans (hst.names i hi hG n)

theorem sameNames_mono {G' : Nat → Prop} (h : ∀ i, i < s.frames.size → G i → G' i)
    (hst : s.SameNamesOutside G t) : s.SameNamesOutside G' t where
  size := hst.size
  names i hi hG' n := hst.names i hi (fun hG => hG' (h i hi hG)) n

theorem sameNames_of_nothingDeclared (s t : Store) (h : s.NothingDeclared t) : s.SameNamesOutside G t where
  size := Nat.le_of_eq h.size.symm
  names i _ _ n := h.names i n

theorem sameNames_addFrame (s : Store) (parent : Option Nat) :
    s.SameNamesOutside G (s.addFrame parent).2 where
  size := by simp [Store.addFrame]
  names i hi _ n := declaresIn_addFrame s parent hi n

theorem sameNames_of_frames (h : t.frames = s.frames) : s.SameNamesOutside G t where
  size := Nat.le_of_eq (by rw [h])
  names i _ _ n := declaresIn_of_frames h i n

section Frame

variable {frame : Nat} (hG : ∀ i, ¬G i → i ≠ frame)
include hG

theorem sameNames_bind (s : Store) (name : String) (b : Binding) :
    s.SameNamesOutside G (s.apply (.bind frame name b)) where
  size := by simp [Store.apply]
  names i _ hi n := declaresIn_bind_other s (.inl (hG i hi)) b

/-- A declaration in a frame keeps the names of all others. -/
theorem declare_keeps (name : String) (value : Value) (constant : Bool) :
    (declare frame name value constant).Keeps (Store.SameNamesOutside G) := by
  refine keeps_update sameNames_refl fun s e he => ?_
  rw [(Runs.admits_declare he).1]
  exact sameNames_bind hG s name _

theorem declareStruct_keeps (name : String) (fields : List Field) :
    (declareStruct frame name fields).Keeps (Store.SameNamesOutside G) :=
  keeps_bind sameNames_trans (fun _ => sameNames_of_frames rfl) fun v => declare_keeps hG name v true

theorem declareFunction_keeps (name : String) (parameters : List String) (body : List Stmt) :
    (declareFunction frame name parameters body).Keeps (Store.SameNamesOutside G) := by
  refine keeps_bind sameNames_trans (fun m => sameNames_of_frames rfl) fun v => ?_
  refine keeps_bind sameNames_trans (declare_keeps hG name v true) fun _ => ?_
  refine keeps_update sameNames_refl fun s e he => ?_
  obtain ⟨ref, rfl⟩ := attachClosure_ok he
  exact sameNames_of_frames rfl

theorem bindParameters_keeps (names : List String) (vs : List Value) :
    (bindParameters frame names vs).Keeps (Store.SameNamesOutside G) := by
  induction names generalizing vs with
  | nil => exact fun m => sameNames_refl m.store
  | cons p ps ih => exact keeps_bind sameNames_trans (declare_keeps hG p _ false) fun _ => ih vs.tail

end Frame

/-- A call declares its parameters in a frame of its own. -/
theorem enterFunction_keeps (f : Function) (vs : List Value) :
    (enterFunction f vs).Keeps (Store.SameNamesOutside G) := by
  intro m
  have hnew : (enterFunction f vs m).Leaves (m.store.SameNamesOutside (· = m.store.frames.size)) := by
    refine leaves_bind sameNames_trans (sameNames_addFrame m.store _) fun frame m₁ hentry => ?_
    cases hentry
    refine leaves_bind sameNames_trans (bindParameters_keeps (fun _ hi => hi) _ _ _) fun _ m₂ _ => ?_
    exact sameNames_refl m₂.store
  refine hnew.mono fun s => sameNames_mono fun i hi hframe => ?_
  exact (Nat.ne_of_lt hi hframe).elim

theorem own_keepsNames {t : Task} (ht : ∀ i, t.home? = some i → G i) {x : Action α} (h : t.Own x) :
    x.Keeps (Store.SameNamesOutside G) := by
  have hhome {frame : Nat} (hframe : t.home? = some frame) : ∀ i, ¬G i → i ≠ frame := by
    rintro i hi rfl
    exact hi (ht i hframe)
  refine own_keeps sameNames_of_nothingDeclared sameNames_addFrame h
    (fun frame name value constant e heq => ?_)
    (fun frame name fields heq => ?_) fun frame name parameters body heq => ?_
  · exact declare_keeps (hhome (heq ▸ rfl)) name value constant
  · exact declareStruct_keeps (hhome (heq ▸ rfl)) name fields
  · exact declareFunction_keeps (hhome (heq ▸ rfl)) name parameters body

/-- A part of a task has no home, the same one, or a new frame for one. -/
theorem part_home {size i : Nat} {t t' : Task} (h : t.Part size t') (hi : t'.home? = some i) :
    t.home? = some i ∨ size ≤ i := by
  cases h <;> simp_all [Task.home?]

/-- A task adds names to its home alone, of the frames that there are when it begins. -/
theorem run_keepsNames (n : Nat) (t : Task) (m : Machine) :
    (t.run n m).Leaves (m.store.SameNamesOutside (t.home? = some ·)) := by
  induction n generalizing t m with
  | zero =>
    rw [run_zero]
    trivial
  | succ n ih =>
    rw [Tasks.run_succ]
    have hrun : (t.plan.run (Task.run n) m).Leaves
        (m.store.SameNamesOutside fun i => t.home? = some i ∨ m.store.frames.size ≤ i) := by
      refine leaves_run sameNames_refl sameNames_trans enterFunction_keeps
        (acts_mono (fun h => own_keepsNames (fun _ => .inl) h) (own_plan t)) fun t' m' hinvokes => ?_
      refine (ih t' m').mono fun s => sameNames_mono fun i _ hi => ?_
      obtain ⟨_, ⟨hpart, _⟩ | ⟨⟨frame, stmts, rfl, hnew⟩, _⟩⟩ := invokes_parts hinvokes
      · exact part_home hpart hi
      · cases hi
        exact .inr hnew
    refine hrun.mono fun s => sameNames_mono fun i hi hG => ?_
    exact hG.resolve_right (Nat.not_le_of_lt hi)

theorem run_sameNames {n : Nat} {t : Task} (ht : t.home? = none) (m : Machine) :
    (t.run n m).Leaves m.store.SameNames := by
  refine (run_keepsNames n t m).mono fun s => sameNames_mono fun i _ hi => ?_
  rw [ht] at hi
  cases hi

theorem gains_bind {frame : Nat} {name : String} (hnew : s.declaresIn frame name = false) (b : Binding) :
    s.Gains frame name (s.apply (.bind frame name b)) where
  size := by simp [Store.apply]
  new := hnew
  names i hi n := by
    by_cases hframe : i = frame
    · subst hframe
      rw [declaresIn_bind s hi, beq_self_eq_true, Bool.true_and]
    · rw [declaresIn_bind_other s (.inl hframe), beq_eq_false_iff_ne.mpr hframe, Bool.false_and,
        Bool.or_false]

theorem gains_of_frames {frame : Nat} {name : String} (h : u.frames = t.frames) (hst : s.Gains frame name t) :
    s.Gains frame name u where
  size := by rw [h]; exact hst.size
  new := hst.new
  names i hi n := (declaresIn_of_frames h i n).trans (hst.names i hi n)

theorem gains_of_sameNames {frame : Nat} {name : String} (hst : s.SameNames t) (htu : t.Gains frame name u) :
    s.Gains frame name u where
  size := Nat.le_trans hst.size htu.size
  new := by
    rcases Nat.lt_or_ge frame s.frames.size with hframe | hframe
    · exact (hst.names frame hframe id name).symm.trans htu.new
    · exact declaresIn_missing s hframe name
  names i hi n := by
    rw [htu.names i (Nat.lt_of_lt_of_le hi hst.size) n, hst.names i hi id n]

theorem declares_of_leaves {frame : Nat} {o : Outcome α} (h : o.Leaves s.SameNames) :
    o.Declares s frame none := by
  cases o with
  | done a m => exact h
  | fault e m => exact h
  | starved => trivial

theorem declares_of_sameNames {frame : Nat} {name? : Option String} {o : Outcome α} (hst : s.SameNames t)
    (h : o.Declares t frame name?) : o.Declares s frame name? := by
  cases o with
  | done a m =>
    cases name? with
    | some name => exact gains_of_sameNames hst h
    | none => exact sameNames_trans s t m.store hst h
  | fault e m => exact sameNames_trans s t m.store hst h
  | starved => trivial

theorem declares_bind {β : Type} {frame : Nat} {name? : Option String} {x : Action α} {f : α → Action β}
    {m : Machine} (hx : (x m).Leaves m.store.SameNames)
    (hf : ∀ a m', (f a m').Declares m'.store frame name?) :
    ((x >>= f) m).Declares m.store frame name? := by
  rw [bind_eq]
  cases hend : x m with
  | done a m' =>
    rw [hend] at hx
    exact declares_of_sameNames hx (hf a m')
  | fault e m' =>
    rw [hend] at hx
    exact hx
  | starved => trivial

theorem declares_map {β : Type} {frame : Nat} {name? : Option String} {x : Action α} {f : α → β} {m : Machine}
    (h : (x m).Declares s frame name?) : ((x >>= fun a => pure (f a)) m).Declares s frame name? := by
  rw [bind_eq]
  cases hx : x m with
  | done a m' =>
    rw [hx] at h
    exact h
  | fault e m' =>
    rw [hx] at h
    exact h
  | starved => trivial

theorem declare_declares (frame : Nat) (name : String) (value : Value) (constant : Bool) (m : Machine) :
    (declare frame name value constant m).Declares m.store frame (some name) := by
  rw [declare_eq]
  split
  · exact sameNames_refl m.store
  · rename_i hnew
    exact gains_bind (Bool.eq_false_iff.mpr hnew) _

theorem declareStruct_declares (frame : Nat) (name : String) (fields : List Field) (m : Machine) :
    (declareStruct frame name fields m).Declares m.store frame (some name) :=
  declares_bind (x := Action.allocate fun s => s.addStruct ⟨name, fields⟩) (sameNames_of_frames rfl)
    fun v m' =>
    declare_declares frame name v true m'

/-- Where its frame exists, a function that has just been declared gets its closure. So its name never stays
after a fault. -/
theorem attachClosure_declares {frame : Nat} {name : String} (hnew : s.declaresIn frame name = false)
    (ref : Nat) {m : Machine} (hm : m.store = s.apply (.bind frame name ⟨.function ref, true⟩)) :
    (Action.update (fun s => s.attachClosure frame name) m).Declares s frame (some name) := by
  unfold Action.update
  split
  · rename_i e he
    obtain ⟨f, rfl⟩ := attachClosure_ok he
    refine gains_of_frames (t := m.store) rfl ?_
    rw [hm]
    exact gains_bind hnew _
  · rename_i e he
    have hmissing : s.frames.size ≤ frame := by
      refine Nat.le_of_not_lt fun hframe => ?_
      have hfound := attachClosure_bind hframe hnew ref true
      rw [← hm] at hfound
      cases he.symm.trans hfound
    change s.SameNames m.store
    rw [hm]
    refine ⟨by simp [Store.apply], fun i hi _ n => declaresIn_bind_other s (.inl ?_) _⟩
    exact Nat.ne_of_lt (Nat.lt_of_lt_of_le hi hmissing)

theorem declareFunction_declares (frame : Nat) (name : String) (parameters : List String) (body : List Stmt)
    (m : Machine) : (declareFunction frame name parameters body m).Declares m.store frame (some name) := by
  unfold declareFunction
  rw [allocate_bind]
  refine declares_of_sameNames (t := (m.store.addFunction ⟨name, parameters, body, frame⟩).2)
    (sameNames_of_frames rfl) ?_
  rw [bind_eq, declare_eq]
  by_cases hold : (m.store.addFunction ⟨name, parameters, body, frame⟩).2.declaresIn frame name = true
  · rw [if_pos hold]
    exact sameNames_refl _
  · rw [if_neg hold]
    exact attachClosure_declares (Bool.eq_false_iff.mpr hold) m.store.functions.size rfl

theorem execute_declares (fuel frame : Nat) (stmt : Stmt) (m : Machine) :
    (Machine.execute frame fuel stmt m).Declares m.store frame stmt.declared? := by
  have hplain (h : (Task.execute frame stmt).home? = none) :
      (Machine.execute frame fuel stmt m).Declares m.store frame none :=
    declares_of_leaves (run_sameNames h m)
  cases fuel with
  | zero => trivial
  | succ n =>
    cases stmt with
    | varDecl name constant e =>
      exact declares_bind (run_sameNames (n := n) (t := .eval frame e) rfl m) fun v m' =>
        declares_map (declare_declares frame name v constant m')
    | structDecl name fields => exact declares_map (declareStruct_declares frame name fields m)
    | fnDecl name parameters body =>
      exact declares_map (declareFunction_declares frame name parameters body m)
    | ret e => exact hplain rfl
    | ifThen test consequent => exact hplain rfl
    | whileDo test body => exact hplain rfl
    | expr e => exact hplain rfl

theorem callAll_sameNames (fuel : Nat) (callbacks : List Value) :
    (Host.callAll fuel callbacks).Keeps Store.SameNames := by
  induction callbacks with
  | nil => exact fun m => sameNames_refl m.store
  | cons f fs ih =>
    refine keeps_bind sameNames_trans (fun m => sameNames_refl m.store) fun stopped => ?_
    split
    · exact fun m => sameNames_refl m.store
    · exact keeps_bind sameNames_trans (fun m => run_sameNames (t := .call f []) rfl m) fun _ => ih

theorem runFrame_sameNames (fuel : Nat) (frameMs : Float) :
    (Host.runFrame fuel frameMs).Keeps Store.SameNames := by
  intro m
  unfold Host.runFrame
  split
  · trivial
  · exact callAll_sameNames fuel _ _

/-- Declarations stay in their frame. Of the frames that there are when a statement begins, only the one that
it runs in gets a name, exactly if the statement is the declaration of that name and ends without a fault;
nothing that an expression, a loop from any turn on, a call or a frame of due callbacks does adds a name to
any of them. -/
theorem declarations_stay (fuel : Nat) (m : Machine) :
    (∀ frame stmt, (Machine.execute frame fuel stmt m).Declares m.store frame stmt.declared?) ∧
    (∀ frame e, (Machine.eval frame fuel e m).Leaves m.store.SameNames) ∧
    (∀ frame test body, (Machine.loop frame fuel test body m).Leaves m.store.SameNames) ∧
    (∀ f arguments, (Machine.call fuel f arguments m).Leaves m.store.SameNames) ∧
    (∀ frameMs, (Host.runFrame fuel frameMs m).Leaves m.store.SameNames) := by
  refine ⟨fun frame stmt => ?_, fun frame e => ?_, fun frame test body => ?_, fun f arguments => ?_,
    fun frameMs => ?_⟩
  · exact execute_declares fuel frame stmt m
  · exact run_sameNames (t := .eval frame e) rfl m
  · exact run_sameNames (t := .loop frame test body) rfl m
  · exact run_sameNames (t := .call f arguments) rfl m
  · exact runFrame_sameNames fuel frameMs m

end Proofs.Declarations

end Scriptlet
