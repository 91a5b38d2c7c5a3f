import Scriptlet.Proofs.StoreGrowth

namespace Scriptlet.Proofs.DeclaredNames

theorem declaresIn_put (s : Store) (frame : Nat) (name : String) (value : Value) (i : Nat) (n : String) :
    (s.apply (.put frame name value)).declaresIn i n = s.declaresIn i n := by
  unfold Store.declaresIn Store.bindingIn?
  simp only [Store.apply, Array.getElem?_modify]
  split
  · cases s.frames[i]? with
    | none => rfl
    | some f => simp [StoreGrowth.get_put]
  · rfl

theorem declaresIn_missing (s : Store) {frame : Nat} (h : s.frames.size ≤ frame) (n : String) :
    s.declaresIn frame n = false := by
  simp [Store.declaresIn, Store.bindingIn?, Array.getElem?_eq_none h]

theorem declares_bind (f : Frame) (name : String) (b : Binding) (n : String) :
    (f.bind name b).declares n = (f.declares n || n == name) := by
  simp only [Frame.declares, Frame.get?, Frame.bind, List.lookup_append, Option.isSome_or]
  by_cases hn : n = name
  · simp [hn]
  · simp [List.lookup_cons, beq_eq_false_iff_ne.mpr hn]

theorem declaresIn_bind (s : Store) {frame : Nat} (hframe : frame < s.frames.size) (name : String)
    (b : Binding) (n : String) :
    (s.apply (.bind frame name b)).declaresIn frame n = (s.declaresIn frame n || n == name) := by
  unfold Store.declaresIn Store.bindingIn?
  simp only [Store.apply, Array.getElem?_modify, if_true, Array.getElem?_eq_getElem hframe]
  exact declares_bind s.frames[frame] name b n

theorem declaresIn_bind_other (s : Store) {frame i : Nat} {name n : String} (h : i ≠ frame ∨ n ≠ name)
    (b : Binding) : (s.apply (.bind frame name b)).declaresIn i n = s.declaresIn i n := by
  unfold Store.declaresIn Store.bindingIn?
  simp only [Store.apply, Array.getElem?_modify]
  split
  · rename_i hi
    have hn : (n == name) = false := beq_eq_false_iff_ne.mpr (h.resolve_left (· hi.symm))
    cases s.frames[i]? with
    | none => rfl
    | some f => exact (declares_bind f name b n).trans (by rw [hn, Bool.or_false]; rfl)
  · rfl

theorem declare_eq (frame : Nat) (name : String) (value : Value) (constant : Bool) (m : Machine) :
    Machine.declare frame name value constant m =
      if m.store.declaresIn frame name = true then .fault (.redeclared name) m
      else .done () { m with store := m.store.apply (.bind frame name ⟨value, constant⟩) } := by
  by_cases h : m.store.declaresIn frame name = true
  · simp [Machine.declare, Action.update, Store.declare, h]
  · simp [Machine.declare, Action.update, Store.declare, h]

theorem declaresIn_addFrame (s : Store) (parent : Option Nat) {i : Nat} (hi : i < s.frames.size)
    (n : String) : (s.addFrame parent).2.declaresIn i n = s.declaresIn i n := by
  unfold Store.declaresIn Store.bindingIn?
  simp only [Store.addFrame, Array.getElem?_push_lt hi, Array.getElem?_eq_getElem hi]

theorem declaresIn_of_frames {s t : Store} (h : t.frames = s.frames) (i : Nat) (n : String) :
    t.declaresIn i n = s.declaresIn i n := by
  unfold Store.declaresIn Store.bindingIn?
  rw [h]

theorem attachClosure_ok {s : Store} {frame : Nat} {name : String} {e : Edit}
    (h : s.attachClosure frame name = .ok e) : ∃ ref, e = .enclose ref frame := by
  unfold Store.attachClosure at h
  split at h
  · cases h
  · split at h
    · exact ⟨_, (Except.ok.inj h).symm⟩
    · cases h

/-- A function that has just been declared in a frame is found there. -/
theorem attachClosure_bind {s : Store} {frame : Nat} (hframe : frame < s.frames.size) {name : String}
    (hnew : s.declaresIn frame name = false) (ref : Nat) (constant : Bool) :
    (s.apply (.bind frame name ⟨.function ref, constant⟩)).attachClosure frame name =
      .ok (.enclose ref frame) := by
  have hnone : s.frames[frame].bindings.lookup name = none := by
    simpa [Store.declaresIn, Store.bindingIn?, hframe, Frame.get?] using hnew
  have hfound : (s.apply (.bind frame name ⟨.function ref, constant⟩)).bindingIn? frame name =
      some ⟨.function ref, constant⟩ := by
    simp only [Store.bindingIn?, Store.apply, Array.getElem?_modify, if_true,
      Array.getElem?_eq_getElem hframe,
      Option.map_some, Option.bind_some]
    simp [Frame.get?, Frame.bind, List.lookup_append, hnone]
  simp only [Store.attachClosure, hfound]

end Scriptlet.Proofs.DeclaredNames
