import Scriptlet.Host

namespace Scriptlet

/-- A value is in a variable, an array or an object of the store, or a native gives it. -/
inductive Store.Contains (s : Store) : Value → Prop where
  | binding {i : Nat} {f : Frame} {name : String} {v : Value} {constant : Bool} (hf : s.frames[i]? = some f)
      (hv : (name, ⟨v, constant⟩) ∈ f.bindings) : s.Contains v
  | element {i : Nat} {values : Array Value} {v : Value} (ha : s.arrays[i]? = some values) (hv : v ∈ values) :
      s.Contains v
  | entry {i : Nat} {o : Object} {key : String} {v : Value} (ho : s.objects[i]? = some o)
      (hv : (key, v) ∈ o.entries) : s.Contains v
  | given {i : Nat} {n : Native} {v : Value} (hn : s.natives[i]? = some n)
      (hv : n.behaviour = .constantly v) :
      s.Contains v

/-- A value waits on the schedule, for the next frame or as an interval. -/
def Schedule.Contains (s : Schedule) (v : Value) : Prop :=
  v ∈ s.frames ∨ ∃ i ∈ s.intervals, i.callback = v

/-- A value is stored somewhere or waits on the schedule. -/
def Machine.Contains (m : Machine) (v : Value) : Prop :=
  m.store.Contains v ∨ m.schedule.Contains v

/-- The value that an edit writes. -/
def Edit.value? : Edit → Option Value
  | .bind _ _ b => some b.value
  | .put _ _ v | .setEntry _ _ v | .setElement _ _ v | .pushElement _ v => some v
  | .enclose .. => none

namespace Proofs.Contents

section Arrays

variable {α : Type} {xs : Array α} {i j : Nat} {y : α}

theorem modify_cases {f : α → α} (h : (xs.modify i f)[j]? = some y) :
    xs[j]? = some y ∨ ∃ x, xs[i]? = some x ∧ f x = y := by
  rw [Array.getElem?_modify] at h
  split at h
  · rename_i hij
    obtain ⟨x, hx, rfl⟩ := Option.map_eq_some_iff.mp h
    exact .inr ⟨x, hij ▸ hx, rfl⟩
  · exact .inl h

theorem push_cases {x : α} (h : (xs.push x)[j]? = some y) : xs[j]? = some y ∨ y = x := by
  rw [Array.getElem?_push] at h
  split at h
  · exact .inr (Option.some.inj h).symm
  · exact .inl h

end Arrays

section Parts

variable {s : Store} {v : Value}

theorem contains_frames {frames : Array Frame} (h : ({ s with frames } : Store).Contains v) :
    s.Contains v ∨ ∃ (i : Nat) (f : Frame) (name : String) (constant : Bool),
      frames[i]? = some f ∧ (name, ⟨v, constant⟩) ∈ f.bindings := by
  cases h with
  | binding hf hv => exact .inr ⟨_, _, _, _, hf, hv⟩
  | element ha hv => exact .inl (.element ha hv)
  | entry ho hv => exact .inl (.entry ho hv)
  | given hn hv => exact .inl (.given hn hv)

theorem contains_arrays {arrays : Array (Array Value)} (h : ({ s with arrays } : Store).Contains v) :
    s.Contains v ∨ ∃ (i : Nat) (values : Array Value), arrays[i]? = some values ∧ v ∈ values := by
  cases h with
  | binding hf hv => exact .inl (.binding hf hv)
  | element ha hv => exact .inr ⟨_, _, ha, hv⟩
  | entry ho hv => exact .inl (.entry ho hv)
  | given hn hv => exact .inl (.given hn hv)

theorem contains_objects {objects : Array Object} (h : ({ s with objects } : Store).Contains v) :
    s.Contains v ∨ ∃ (i : Nat) (o : Object) (key : String), objects[i]? = some o ∧ (key, v) ∈ o.entries := by
  cases h with
  | binding hf hv => exact .inl (.binding hf hv)
  | element ha hv => exact .inl (.element ha hv)
  | entry ho hv => exact .inr ⟨_, _, _, ho, hv⟩
  | given hn hv => exact .inl (.given hn hv)

theorem contains_natives {natives : Array Native} (h : ({ s with natives } : Store).Contains v) :
    s.Contains v ∨ ∃ (i : Nat) (n : Native), natives[i]? = some n ∧ n.behaviour = .constantly v := by
  cases h with
  | binding hf hv => exact .inl (.binding hf hv)
  | element ha hv => exact .inl (.element ha hv)
  | entry ho hv => exact .inl (.entry ho hv)
  | given hn hv => exact .inr ⟨_, _, hn, hv⟩

theorem contains_code {structs : Array StructType} {functions : Array Function}
    (h : ({ s with structs, functions } : Store).Contains v) : s.Contains v := by
  cases h with
  | binding hf hv => exact .binding hf hv
  | element ha hv => exact .element ha hv
  | entry ho hv => exact .entry ho hv
  | given hn hv => exact .given hn hv

end Parts

section Changes

variable {s : Store} {v : Value}

/-- A declaration adds its value, if there is such a frame. -/
theorem contains_bind {frame : Nat} {name : String} {b : Binding}
    (h : (s.apply (.bind frame name b)).Contains v) : s.Contains v ∨ v = b.value ∧ frame < s.frames.size := by
  obtain hold | ⟨i, f, n, constant, hf, hv⟩ := contains_frames h
  · exact .inl hold
  · rcases modify_cases hf with hold | ⟨g, hg, rfl⟩
    · exact .inl (.binding hold hv)
    · obtain ⟨hframe, _⟩ := Array.getElem?_eq_some_iff.mp hg
      rcases List.mem_append.mp hv with hold | hnew
      · exact .inl (.binding hg hold)
      · cases List.mem_singleton.mp hnew
        exact .inr ⟨rfl, hframe⟩

theorem mem_put {f : Frame} {name n : String} {value : Value} {b : Binding}
    (h : (n, b) ∈ (f.put name value).bindings) : (n, b) ∈ f.bindings ∨ b.value = value := by
  obtain ⟨⟨k, c⟩, hc, heq⟩ := List.mem_map.mp h
  dsimp only at heq
  split at heq
  · cases heq
    exact .inr rfl
  · cases heq
    exact .inl hc

theorem mem_setEntry {key k : String} {value : Value} {entries : List (String × Value)}
    (h : (k, v) ∈ Object.setEntry key value entries) : (k, v) ∈ entries ∨ v = value := by
  induction entries with
  | nil =>
    cases List.mem_singleton.mp h
    exact .inr rfl
  | cons e es ih =>
    unfold Object.setEntry at h
    split at h
    · rcases List.mem_cons.mp h with hhead | htail
      · cases hhead
        exact .inr rfl
      · exact .inl (List.mem_cons_of_mem _ htail)
    · rcases List.mem_cons.mp h with hhead | htail
      · exact .inl (hhead ▸ List.mem_cons_self)
      · exact (ih htail).imp_left (List.mem_cons_of_mem _)

/-- What a store holds after an edit was there before, or is what the edit writes. -/
theorem contains_apply {e : Edit} (h : (s.apply e).Contains v) : s.Contains v ∨ e.value? = some v := by
  cases e with
  | bind frame name b => exact (contains_bind h).imp_right fun hv => congrArg some hv.1.symm
  | put frame name value =>
    obtain hold | ⟨i, f, n, constant, hf, hv⟩ := contains_frames h
    · exact .inl hold
    · rcases modify_cases hf with hold | ⟨g, hg, rfl⟩
      · exact .inl (.binding hold hv)
      · exact (mem_put hv).imp (.binding hg) fun hvalue => congrArg some hvalue.symm
  | enclose function frame => exact .inl (contains_code h)
  | setEntry object key value =>
    obtain hold | ⟨i, o, k, ho, hv⟩ := contains_objects h
    · exact .inl hold
    · rcases modify_cases ho with hold | ⟨p, hp, rfl⟩
      · exact .inl (.entry hold hv)
      · exact (mem_setEntry hv).imp (.entry hp) fun hvalue => congrArg some hvalue.symm
  | setElement array index value =>
    obtain hold | ⟨i, xs, ha, hv⟩ := contains_arrays h
    · exact .inl hold
    · rcases modify_cases ha with hold | ⟨ys, hys, rfl⟩
      · exact .inl (.element hold hv)
      · exact (Array.mem_or_eq_of_mem_setIfInBounds hv).imp (.element hys) fun hvalue =>
          congrArg some hvalue.symm
  | pushElement array value =>
    obtain hold | ⟨i, xs, ha, hv⟩ := contains_arrays h
    · exact .inl hold
    · rcases modify_cases ha with hold | ⟨ys, hys, rfl⟩
      · exact .inl (.element hold hv)
      · exact (Array.mem_push.mp hv).imp (.element hys) fun hvalue => congrArg some hvalue.symm

theorem assign_value {frame : Nat} {name : String} {value : Value} {e : Edit}
    (h : s.assign frame name value = .ok e) : e.value? = some value := by
  unfold Store.assign at h
  split at h
  · cases h
  · split at h
    · cases h
    · split at h
      · cases h
      · cases h
        rfl

theorem setMember_value {target key value : Value} {e : Edit} (h : s.setMember target key value = .ok e) :
    e.value? = some value := by
  unfold Store.setMember at h
  split at h
  · cases h
    rfl
  · split at h
    · cases h
    · dsimp only at h
      split at h
      · cases h
        rfl
      · split at h
        · cases h
          rfl
        · cases h
  · cases h

theorem contains_addArray {values : Array Value} (h : (s.addArray values).2.Contains v) :
    s.Contains v ∨ v ∈ values := by
  obtain hold | ⟨i, xs, ha, hv⟩ := contains_arrays h
  · exact .inl hold
  · rcases push_cases ha with hold | rfl
    · exact .inl (.element hold hv)
    · exact .inr hv

theorem contains_addObject {o : Object} (h : (s.addObject o).2.Contains v) :
    s.Contains v ∨ ∃ key, (key, v) ∈ o.entries := by
  obtain hold | ⟨i, p, key, hp, hv⟩ := contains_objects h
  · exact .inl hold
  · rcases push_cases hp with hold | rfl
    · exact .inl (.entry hold hv)
    · exact .inr ⟨key, hv⟩

theorem contains_addNative {n : Native} (h : (s.addNative n).2.Contains v) :
    s.Contains v ∨ n.behaviour = .constantly v := by
  obtain hold | ⟨i, p, hp, hv⟩ := contains_natives h
  · exact .inl hold
  · rcases push_cases hp with hold | rfl
    · exact .inl (.given hold hv)
    · exact .inr hv

theorem contains_addFrame {parent : Option Nat} (h : (s.addFrame parent).2.Contains v) : s.Contains v := by
  obtain hold | ⟨i, f, name, constant, hf, hv⟩ := contains_frames h
  · exact hold
  · rcases push_cases hf with hold | rfl
    · exact .binding hold hv
    · cases hv

end Changes

section Reads

variable {s : Store} {v : Value}

theorem mem_of_lookup {α : Type} {key : String} {x : α} {entries : List (String × α)}
    (h : entries.lookup key = some x) : (key, x) ∈ entries := by
  obtain ⟨before, after, rfl, _⟩ := List.lookup_eq_some_iff.mp h
  simp

theorem contains_bindingIn {frame : Nat} {name : String} {b : Binding}
    (h : s.bindingIn? frame name = some b) :
    s.Contains b.value := by
  obtain ⟨f, hf, hb⟩ := Option.bind_eq_some_iff.mp h
  exact .binding hf (mem_of_lookup hb)

theorem contains_lookup {frame : Nat} {name : String} (h : s.lookup frame name = .ok v) : s.Contains v := by
  unfold Store.lookup at h
  split at h
  · rename_i b hb
    obtain ⟨owner, _, hb⟩ := Option.bind_eq_some_iff.mp hb
    cases h
    exact contains_bindingIn hb
  · cases h

theorem contains_entry (ref : Nat) (key : String) :
    s.Contains (((s.objectAt ref).get? key).getD .null) ∨
      (((s.objectAt ref).get? key).getD .null).kind ≠ .function := by
  cases hv : (s.objectAt ref).get? key with
  | none => exact .inr Value.Kind.noConfusion
  | some v =>
    unfold Store.objectAt at hv
    rw [Array.getD_eq_getD_getElem?] at hv
    cases ho : s.objects[ref]? with
    | none =>
      rw [ho] at hv
      cases hv
    | some o =>
      rw [ho] at hv
      exact .inl (.entry ho (mem_of_lookup hv))

theorem contains_element (ref : Nat) (index : Option Nat) :
    s.Contains ((index.bind fun i => (s.elements ref)[i]?).getD .null) ∨
      ((index.bind fun i => (s.elements ref)[i]?).getD .null).kind ≠ .function := by
  cases hv : index.bind fun i => (s.elements ref)[i]? with
  | none => exact .inr Value.Kind.noConfusion
  | some v =>
    obtain ⟨i, _, hv⟩ := Option.bind_eq_some_iff.mp hv
    unfold Store.elements at hv
    rw [Array.getD_eq_getD_getElem?] at hv
    cases ha : s.arrays[ref]? with
    | none =>
      rw [ha] at hv
      cases hv
    | some values =>
      rw [ha] at hv
      exact .inl (.element ha (Array.mem_of_getElem? hv))

/-- A member is held by the store, or is no function: what is not there reads as null. -/
theorem contains_getMember {target key : Value} (h : s.getMember target key = .ok v) :
    s.Contains v ∨ v.kind ≠ .function := by
  unfold Store.getMember at h
  split at h
  · rename_i ref
    cases h
    exact contains_entry _ _
  · rename_i ref
    dsimp only at h
    split at h
    · cases h
      exact .inr Value.Kind.noConfusion
    · cases h
      exact contains_element _ _
  · dsimp only at h
    split at h
    · cases h
      exact .inr Value.Kind.noConfusion
    · cases h
      right
      cases key.index?.bind fun i => _ with
      | none => exact Value.Kind.noConfusion
      | some c => exact Value.Kind.noConfusion
  · cases h

theorem binary_kind {op : BinaryOp} {left right : Value} (h : s.binary op left right = .ok v) :
    v.kind ≠ .function := by
  unfold Store.binary at h
  cases op <;> grind [Value.kind]

theorem mem_bindFields {struct : String} {fields : List Field} {vs : List Value} {o p : Object} {key : String}
    (h : s.bindFields struct fields vs o = .ok p) (hv : (key, v) ∈ p.entries) :
    (∃ k, (k, v) ∈ o.entries) ∨ v ∈ vs := by
  induction fields generalizing vs o with
  | nil =>
    cases h
    exact .inl ⟨key, hv⟩
  | cons f fs ih =>
    cases vs with
    | nil => cases h
    | cons u us =>
      unfold Store.bindFields at h
      split at h
      · rcases ih h with ⟨k, hk⟩ | hrest
        · rcases mem_setEntry hk with hold | rfl
          · exact .inl ⟨k, hold⟩
          · exact .inr List.mem_cons_self
        · exact .inr (List.mem_cons_of_mem _ hrest)
      · cases h

theorem mem_writeAll {key : String} {entries : List (String × Value)} {o : Object}
    (h : (key, v) ∈ (entries.foldl (fun o e => o.set e.1 e.2) o).entries) :
    (key, v) ∈ o.entries ∨ v ∈ entries.map Prod.snd := by
  induction entries generalizing o with
  | nil => exact .inl h
  | cons e es ih =>
    rcases ih h with hset | hrest
    · rcases mem_setEntry hset with hold | hvalue
      · exact .inl hold
      · rw [hvalue]
        exact .inr List.mem_cons_self
    · exact .inr (List.mem_cons_of_mem _ hrest)

theorem mem_ofEntries {key : String} {entries : List (String × Value)}
    (h : (key, v) ∈ (Object.ofEntries entries).entries) : v ∈ entries.map Prod.snd := by
  rcases mem_writeAll h with hempty | hmem
  · cases hempty
  · exact hmem

end Reads

section Schedules

variable {s : Schedule} {v : Value}

theorem contains_addInterval {callback : Value} {period : Float}
    (h : (s.addInterval callback period).Contains v) :
    s.Contains v ∨ v = callback := by
  unfold Schedule.addInterval at h
  split at h
  · exact .inl h
  · rcases h with hframe | ⟨i, hi, rfl⟩
    · exact .inl (.inl hframe)
    · rcases List.mem_append.mp hi with hold | hnew
      · exact .inl (.inr ⟨i, hold, rfl⟩)
      · cases List.mem_singleton.mp hnew
        exact .inr rfl

theorem contains_requestFrame {callback : Value} (h : (s.requestFrame callback).Contains v) :
    s.Contains v ∨ v = callback := by
  unfold Schedule.requestFrame at h
  split at h
  · exact .inl h
  · rcases h with hframe | hinterval
    · rcases List.mem_append.mp hframe with hold | hnew
      · exact .inl (.inl hold)
      · exact .inr (List.mem_singleton.mp hnew)
    · exact .inl (.inr hinterval)

theorem catchUp_zero (now : Float) (i : Interval) (times : List Float) :
    Interval.catchUp? now 0 i times = if i.due ≤ now then none else some (times, i) :=
  rfl

theorem catchUp_succ (now : Float) (n : Nat) (i : Interval) (times : List Float) :
    Interval.catchUp? now (n + 1) i times =
      if i.due ≤ now then Interval.catchUp? now n { i with due := i.due + i.period } (i.due :: times)
      else some (times, i) :=
  rfl

theorem catchUp_callback {now : Float} {n : Nat} {i i' : Interval} {times times' : List Float}
    (h : Interval.catchUp? now n i times = some (times', i')) : i'.callback = i.callback := by
  induction n generalizing i times with
  | zero =>
    rw [catchUp_zero] at h
    split at h
    · cases h
    · cases h
      rfl
  | succ n ih =>
    rw [catchUp_succ] at h
    split at h
    · exact ih (i := { i with due := i.due + i.period }) h
    · cases h
      rfl

theorem advanceAll_callbacks {fuel : Nat} {now : Float} {order : Nat} {is is' : List Interval}
    {firings : List Firing} (h : Interval.advanceAll? fuel now order is = some (firings, is')) :
    (∀ f ∈ firings, ∃ i ∈ is, i.callback = f.callback) ∧ ∀ i' ∈ is', ∃ i ∈ is, i.callback = i'.callback := by
  induction is generalizing order firings is' with
  | nil =>
    cases h
    constructor
    · intro f hf
      cases hf
    · intro i hi
      cases hi
  | cons i is ih =>
    unfold Interval.advanceAll? at h
    split at h
    · cases h
    · rename_i times i₁ hcaught
      split at h
      · cases h
      · rename_i firings₁ is₁ hrest
        cases h
        obtain ⟨hfirings, hintervals⟩ := ih hrest
        constructor
        · intro f hf
          rcases List.mem_append.mp hf with hown | hlater
          · obtain ⟨time, _, rfl⟩ := List.mem_map.mp hown
            exact ⟨i, List.mem_cons_self, rfl⟩
          · obtain ⟨j, hj, hsame⟩ := hfirings f hlater
            exact ⟨j, List.mem_cons_of_mem _ hj, hsame⟩
        · intro j hj
          rcases List.mem_cons.mp hj with rfl | hlater
          · exact ⟨i, List.mem_cons_self, (catchUp_callback hcaught).symm⟩
          · obtain ⟨k, hk, hsame⟩ := hintervals j hlater
            exact ⟨k, List.mem_cons_of_mem _ hk, hsame⟩

/-- What becomes due when the clock moves was waiting, and so was what waits afterwards. -/
theorem contains_advance {fuel : Nat} {elapsed : Float} {due : List Value} {s' : Schedule}
    (h : s.advance? fuel elapsed = some (due, s')) : (v ∈ due ∨ s'.Contains v) → s.Contains v := by
  unfold Schedule.advance? at h
  split at h
  · cases h
    rintro (hdue | hwaiting)
    · cases hdue
    · exact hwaiting
  · dsimp only at h
    split at h
    · cases h
    · rename_i firings intervals hadvance
      cases h
      obtain ⟨hfirings, hintervals⟩ := advanceAll_callbacks hadvance
      rintro (hdue | hframe | ⟨i, hi, rfl⟩)
      · rcases List.mem_append.mp hdue with hframe | hfired
        · exact .inl hframe
        · obtain ⟨f, hf, rfl⟩ := List.mem_map.mp hfired
          exact .inr (hfirings f (List.mem_mergeSort.mp hf))
      · cases hframe
      · exact .inr (hintervals i hi)

end Schedules

end Proofs.Contents

end Scriptlet
