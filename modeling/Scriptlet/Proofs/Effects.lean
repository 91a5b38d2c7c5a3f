import Scriptlet.Proofs.Calls

namespace Scriptlet

/-- What was written after something else was, or in its place if that was dropped. All of it was shown. -/
def Output.behind (o earlier : Output) (cleared : Bool) : Output where
  lines := if cleared then o.lines else earlier.lines ++ o.lines
  echoed := earlier.echoed ++ o.echoed

/-- What is made of an output is what is made of none, behind it or in its place. -/
def Output.Appends (cleared : Bool) (f : Output → Output) : Prop :=
  ∀ o, f o = (f .empty).behind o cleared

/-- What a native makes of the output, with arguments that a store shows. -/
def Behaviour.writes (store : Store) (arguments : List Value) (o : Output) : Behaviour → Output
  | .print => (arguments.map store.display).foldl Output.write o
  | .clear => o.clear
  | _ => o

/-- Whether a native drops the output. -/
def Behaviour.clears : Behaviour → Bool
  | .clear => true
  | _ => false

/-- What a schedule can become by the call of a native: a callback may be registered. -/
inductive Schedule.Registers (s : Schedule) : Schedule → Prop where
  | nothing : Registers s s
  | interval (callback : Value) (period : Float) : Registers s (s.addInterval callback period)
  | frame (callback : Value) : Registers s (s.requestFrame callback)

namespace Call

/-- The native that is called with enough arguments, if there is one. -/
def accepted? (c : Call) : Option Native :=
  c.native?.filter fun n => n.accepts c.arguments

/-- What a call makes of the output. -/
def writes (o : Output) (c : Call) : Output :=
  match c.accepted? with
  | some n => n.behaviour.writes c.machine.store c.arguments o
  | none => o

/-- Whether a call drops the output. -/
def clears (c : Call) : Bool :=
  c.accepted?.any fun n => n.behaviour.clears

/-- What calls make of the output, one after another. -/
def written (calls : List Call) (o : Output) : Output :=
  calls.foldl writes o

end Call

namespace Proofs.Effects
open Machine Plans Calls

variable {m m' : Machine}

section Natives

/-- A native that puts a callback on the schedule does nothing else. -/
theorem register_machine {register : Schedule → Value → Schedule}
    (hregister : ∀ (s : Schedule) v, s.Registers (register s v)) {name : String} {vs : List Value}
    (hend : ((Behaviour.callback name vs >>= fun f =>
      Action.modify (fun m => { m with schedule := register m.schedule f }) >>= fun _ =>
        pure Value.null) m).machine? = some m') : m'.output = m.output ∧
        m.schedule.Registers m'.schedule := by
  cases vs with
  | nil =>
    cases hend
    exact ⟨rfl, .nothing⟩
  | cons v vs =>
    rw [bind_eq] at hend
    dsimp only [Behaviour.callback] at hend
    by_cases hv : v.isSchedulable = true
    · rw [if_pos hv] at hend
      cases hend
      exact ⟨rfl, hregister m.schedule v⟩
    · rw [if_neg hv] at hend
      cases hend
      exact ⟨rfl, .nothing⟩

theorem onlyStore_effect {α : Type} {x : Action α} (hx : x.OnlyStore) (hend : (x m).machine? = some m') :
    m'.output = m.output ∧ m.schedule.Registers m'.schedule := by
  obtain ⟨s, rfl⟩ := hx m m' hend
  exact ⟨rfl, .nothing⟩

/-- What natives do to the output and to the schedule. -/
theorem perform_effect {name : String} {vs : List Value} {behaviour : Behaviour}
    (hend : (behaviour.perform name vs m).machine? = some m') :
    m'.output = behaviour.writes m.store vs m.output ∧ m.schedule.Registers m'.schedule := by
  cases behaviour with
  | print =>
    dsimp only [Behaviour.perform] at hend
    rw [bind_eq, printAll_eq] at hend
    cases hend
    exact ⟨rfl, .nothing⟩
  | clear =>
    cases hend
    exact ⟨rfl, .nothing⟩
  | sqrt =>
    cases vs with
    | nil => exact onlyStore_effect (onlyStore_fail (α := Value) _) hend
    | cons v vs => exact onlyStore_effect (onlyStore_pure _) hend
  | rand =>
    cases hend
    exact ⟨rfl, .nothing⟩
  | addElement => exact onlyStore_effect (onlyStore_addElement name vs) hend
  | time => exact onlyStore_effect (onlyStore_bind (onlyStore_look _) fun _ => onlyStore_pure _) hend
  | interval => exact register_machine (fun s v => .interval v _) hend
  | nextFrame => exact register_machine (fun s v => .frame v) hend
  | collect =>
    cases hend
    exact ⟨rfl, .nothing⟩
  | constantly v => exact onlyStore_effect (onlyStore_pure v) hend

/-- What a call of a native does to the output and to the schedule. -/
theorem call_effect {c : Call} {n : Native} (hc : c.native? = some n)
    (hend : (n.call c.arguments c.machine).machine? = some m) :
    m.output = c.writes c.machine.output ∧ c.machine.schedule.Registers m.schedule := by
  rw [nativeCall_eq] at hend
  unfold Call.writes Call.accepted?
  rw [hc, Option.filter_some]
  by_cases haccepts : n.accepts c.arguments = true
  · rw [if_pos haccepts] at hend ⊢
    exact perform_effect hend
  · rw [if_neg haccepts] at hend ⊢
    cases hend
    exact ⟨rfl, .nothing⟩

end Natives

section Through

variable {cs : List Call}

/-- Calls leave what they write. -/
theorem through_output (h : m.Through cs m') : m'.output = Call.written cs m.output := by
  induction h with
  | quiet m store depth => rfl
  | trans _ _ ihab ihbc => rw [ihbc, ihab, Call.written, Call.written, Call.written, List.foldl_append]
  | @idle c hc m =>
    have hnone : c.accepted? = none := by rw [Call.accepted?, hc, Option.filter_none]
    dsimp only [Call.written, List.foldl_cons, List.foldl_nil, Call.writes]
    rw [hnone]
  | native hc hend => exact (call_effect hc hend).1

theorem registers_now {s t : Schedule} (h : s.Registers t) : t.now = s.now := by
  cases h with
  | nothing => rfl
  | interval f p =>
    unfold Schedule.addInterval
    split
    · rfl
    · rfl
  | frame f =>
    unfold Schedule.requestFrame
    split
    · rfl
    · rfl

theorem registers_stopped {s t : Schedule} (h : s.Registers t) (hstopped : s.stopped = true) : t = s := by
  cases h with
  | nothing => rfl
  | interval f p => exact if_pos hstopped
  | frame f => exact if_pos hstopped

/-- The clock moves between calls only. -/
theorem through_now (h : m.Through cs m') : m'.schedule.now = m.schedule.now := by
  induction h with
  | quiet m store depth => rfl
  | trans _ _ ihab ihbc => exact ihbc.trans ihab
  | idle hc m => rfl
  | native hc hend => exact registers_now (call_effect hc hend).2

/-- What is stopped stays as it is. -/
theorem through_stopped (h : m.Through cs m') (hstopped : m.schedule.stopped = true) :
    m'.schedule = m.schedule := by
  induction h with
  | quiet m store depth => rfl
  | trans _ _ ihab ihbc =>
    have hab := ihab hstopped
    rw [ihbc (by rw [hab]; exact hstopped), hab]
  | idle hc m => rfl
  | native hc hend => exact registers_stopped (call_effect hc hend).2 hstopped

end Through

section Appending

variable {f g : Output → Output} {b c : Bool}

theorem behind_behind (o p q : Output) (b c : Bool) :
    q.behind (p.behind o b) c = (q.behind p c).behind o (b || c) := by
  cases b <;> cases c <;> simp [Output.behind, Array.append_assoc]

theorem appends_same : Output.Appends false fun o => o := by
  intro o
  simp [Output.behind, Output.empty]

theorem appends_write (text : String) : Output.Appends false (·.write text) := by
  intro o
  have hbehind (lines : Array String) :
      lines ++ Output.linesOf text = lines ++ ((#[] : Array String) ++ Output.linesOf text) := by
    apply Array.toList_inj.mp
    rw [Array.toList_append, Array.toList_appendList, Array.toList_appendList]
    rfl
  exact congr (congrArg Output.mk (hbehind o.lines)) (hbehind o.echoed)

theorem appends_clear : Output.Appends true Output.clear := by
  intro o
  simp [Output.behind, Output.empty, Output.clear]

theorem appends_comp (hf : Output.Appends b f) (hg : Output.Appends c g) :
    Output.Appends (b || c) fun o => g (f o) := by
  intro o
  calc g (f o)
    _ = (g .empty).behind ((f .empty).behind o b) c := by rw [hg (f o), hf o]
    _ = ((g .empty).behind (f .empty) c).behind o (b || c) := behind_behind ..
    _ = (g (f .empty)).behind o (b || c) := by rw [← hg (f .empty)]

theorem appends_texts (texts : List String) : Output.Appends false fun o => texts.foldl Output.write o := by
  induction texts with
  | nil => exact appends_same
  | cons text texts ih => exact appends_comp (appends_write text) ih

/-- A call drops the lines that are there, or else it adds lines behind them. -/
theorem appends_writes (call : Call) : Output.Appends call.clears fun o => call.writes o := by
  unfold Call.clears Call.writes
  cases call.accepted? with
  | none => exact appends_same
  | some n =>
    obtain ⟨name, arity, behaviour⟩ := n
    cases behaviour with
    | clear => exact appends_clear
    | print => exact appends_texts _
    | _ => exact appends_same

/-- Calls add lines behind those that are there, or put lines in their place if one of them clears. -/
theorem appends_written (cs : List Call) : Output.Appends (cs.any Call.clears) (Call.written cs) := by
  induction cs with
  | nil => exact appends_same
  | cons c cs ih => exact appends_comp (f := fun o => c.writes o) (appends_writes c) ih

end Appending

end Proofs.Effects

end Scriptlet
