import Scriptlet.Proofs.SoundActions

namespace Scriptlet

/-- The frames on the way from one frame to the outermost, both included. -/
inductive Store.Path (s : Store) : Nat → List Nat → Prop where
  | outermost {i : Nat} {f : Frame} (hf : s.frames[i]? = some f) (hparent : f.parent = none) : s.Path i [i]
  | inside {i p : Nat} {f : Frame} {path : List Nat} (hf : s.frames[i]? = some f)
      (hparent : f.parent = some p) (hpath : s.Path p path) : s.Path i (i :: path)

/-- The way outward from `frame` comes to `owner`, and no frame before it declares the name. -/
def Store.MeetsFirst (s : Store) (frame : Nat) (name : String) (owner : Nat) : Prop :=
  ∃ inner outer, s.Path frame (inner ++ owner :: outer) ∧ ∀ i ∈ inner, s.declaresIn i name = false

/-- The nearest frame that declares a name, going outward. -/
def Store.Nearest (s : Store) (frame : Nat) (name : String) (owner : Nat) : Prop :=
  s.MeetsFirst frame name owner ∧ s.declaresIn owner name = true

/-- Trees of frames: an outermost frame, and all that new frames inside of others, declarations and
assignments make of it. -/
inductive Store.Tree : Store → Prop where
  | root {s : Store} (h : s.frames = #[]) : Tree (s.addFrame none).2
  | child {s : Store} (h : Tree s) {frame : Nat} (hframe : frame < s.frames.size) :
      Tree (s.addFrame (some frame)).2
  | declare {s : Store} (h : Tree s) {frame : Nat} {name : String} {value : Value} {constant : Bool}
      {e : Edit} (he : s.declare frame name value constant = .ok e) : Tree (s.apply e)
  | assign {s : Store} (h : Tree s) {frame : Nat} {name : String} {value : Value} {e : Edit}
      (he : s.assign frame name value = .ok e) : Tree (s.apply e)

/-- After a change, a name has a new value at the frames that see the change; every other lookup is what it
was. -/
structure Store.Shows (s t : Store) (name : String) (value : Value) (Sees : Nat → Prop) : Prop where
  changed : ∀ frame, Sees frame → t.lookup frame name = .ok value
  kept : ∀ frame n, ¬(n = name ∧ Sees frame) → t.lookup frame n = s.lookup frame n

/-- Why a name cannot be assigned at a frame. -/
inductive Store.Unassignable (s : Store) (frame : Nat) (name : String) : Fault → Prop where
  | constant {owner : Nat} {b : Binding} (h : s.Nearest frame name owner)
      (hb : s.bindingIn? owner name = some b)
      (hconstant : b.constant = true) : s.Unassignable frame name (.constantAssigned name)
  | missing (h : ∀ owner, ¬s.Nearest frame name owner) : s.Unassignable frame name (.unassigned name)

namespace Proofs.Scopes
open DeclaredNames

variable {s t : Store} {frame owner : Nat} {name : String} {value : Value}

section Paths

/-- Frames lie inside of frames that were there before them. -/
def Ordered (s : Store) : Prop :=
  ∀ (i : Nat) f p, s.frames[i]? = some f → f.parent = some p → p < i

/-- The two stores have the same frames, but for their variables. -/
def SameFrames (s t : Store) : Prop :=
  ∀ i : Nat, t.frames[i]?.map Frame.parent = s.frames[i]?.map Frame.parent

theorem apply_sameFrames (s : Store) (e : Edit) : SameFrames s (s.apply e) := by
  intro i
  have hmodify (frame : Nat) {f : Frame → Frame} (hf : ∀ x, (f x).parent = x.parent) :
      (s.frames.modify frame f)[i]?.map Frame.parent = s.frames[i]?.map Frame.parent := by
    rw [Array.getElem?_modify]
    split
    · simp [Function.comp_def, hf]
    · rfl
  cases e with
  | bind frame name b => exact hmodify frame fun _ => rfl
  | put frame name value => exact hmodify frame fun _ => rfl
  | enclose function frame => rfl
  | setEntry object key value => rfl
  | setElement array index value => rfl
  | pushElement array value => rfl

theorem apply_size (s : Store) (e : Edit) : (s.apply e).frames.size = s.frames.size := by
  cases e <;> simp [Store.apply]

theorem ordered_of_sameFrames (h : SameFrames s t) (hs : Ordered s) : Ordered t := by
  intro i f p hf hp
  have hi := h i
  rw [hf, Option.map_some] at hi
  obtain ⟨g, hg, hparent⟩ := Option.map_eq_some_iff.mp hi.symm
  exact hs i g p hg (hparent.trans hp)

theorem ordered_addFrame (hs : Ordered s) {parent : Option Nat}
    (hparent : ∀ p, parent = some p → p < s.frames.size) :
    Ordered (s.addFrame parent).2 := by
  intro i f p hf hp
  change (s.frames.push ⟨parent, []⟩)[i]? = some f at hf
  rw [Array.getElem?_push] at hf
  split at hf
  · rename_i hi
    cases hf
    exact hi ▸ hparent p hp
  · exact hs i f p hf hp

theorem tree_ordered (h : s.Tree) : Ordered s := by
  induction h with
  | root h => exact ordered_addFrame (fun i f p hf => by simp [h] at hf) nofun
  | child _ hframe ih =>
    refine ordered_addFrame ih fun p hp => ?_
    cases hp
    exact hframe
  | declare _ _ ih => exact ordered_of_sameFrames (apply_sameFrames _ _) ih
  | assign _ _ ih => exact ordered_of_sameFrames (apply_sameFrames _ _) ih

/-- Parents come before their children, so as many steps as the number of a frame suffice to come to the
outermost. -/
theorem path_outward (hs : Ordered s) {n i : Nat} (hi : i < s.frames.size) (hn : i < n) :
    s.Path i (s.outward n i) := by
  induction n generalizing i with
  | zero => omega
  | succ n ih =>
    have hf : s.frames[i]? = some s.frames[i] := Array.getElem?_eq_getElem hi
    rw [Store.outward, hf]
    cases hparent : s.frames[i].parent with
    | none => simpa [hparent] using Store.Path.outermost hf hparent
    | some p =>
      have hp := hs i _ p hf hparent
      simpa [hparent] using Store.Path.inside hf hparent (ih (by omega) (by omega))

theorem path_chain (hs : Ordered s) (hframe : frame < s.frames.size) : s.Path frame (s.chain frame) :=
  path_outward hs hframe hframe

theorem path_unique {path path' : List Nat} (h : s.Path frame path) (h' : s.Path frame path') :
    path = path' := by
  induction h generalizing path' with
  | outermost hf hparent =>
    cases h' with
    | outermost => rfl
    | inside hf' hparent' =>
      cases hf.symm.trans hf'
      cases hparent.symm.trans hparent'
  | inside hf hparent _ ih =>
    cases h' with
    | outermost hf' hparent' =>
      cases hf.symm.trans hf'
      cases hparent.symm.trans hparent'
    | inside hf' hparent' hpath' =>
      cases hf.symm.trans hf'
      cases hparent.symm.trans hparent'
      rw [ih hpath']

theorem path_exists {path : List Nat} (h : s.Path frame path) : frame < s.frames.size := by
  cases h with
  | outermost hf => exact (Array.getElem?_eq_some_iff.mp hf).1
  | inside hf => exact (Array.getElem?_eq_some_iff.mp hf).1

/-- Outside of the tree there is no way outward, and inside it is the chain. -/
theorem path_iff (hs : Ordered s) {path : List Nat} :
    s.Path frame path ↔ frame < s.frames.size ∧ s.chain frame = path := by
  constructor
  · intro h
    have hframe := path_exists h
    exact ⟨hframe, path_unique (path_chain hs hframe) h⟩
  · rintro ⟨hframe, rfl⟩
    exact path_chain hs hframe

theorem chain_missing (h : s.frames.size ≤ frame) : s.chain frame = [] := by
  unfold Store.chain
  cases hn : s.frames.size with
  | zero => rfl
  | succ n => rw [Store.outward, Array.getElem?_eq_none h]

theorem outward_sameFrames (h : SameFrames s t) (n i : Nat) : t.outward n i = s.outward n i := by
  induction n generalizing i with
  | zero => rfl
  | succ n ih =>
    have hi := h i
    unfold Store.outward
    cases hs : s.frames[i]? with
    | none =>
      rw [hs, Option.map_none, Option.map_eq_none_iff] at hi
      rw [hi]
    | some f =>
      rw [hs, Option.map_some] at hi
      obtain ⟨g, hg, hparent⟩ := Option.map_eq_some_iff.mp hi
      simp only [hg, hparent, ih]

theorem chain_apply (s : Store) (e : Edit) (frame : Nat) : (s.apply e).chain frame = s.chain frame := by
  unfold Store.chain
  rw [apply_size, outward_sameFrames (apply_sameFrames s e)]

end Paths

section Meanings

theorem meetsFirst_iff (hs : Ordered s) : s.MeetsFirst frame name owner ↔
    ∃ inner outer, s.chain frame = inner ++ owner :: outer ∧ ∀ i ∈ inner, s.declaresIn i name = false := by
  constructor
  · rintro ⟨inner, outer, hpath, hinner⟩
    exact ⟨inner, outer, ((path_iff hs).mp hpath).2, hinner⟩
  · rintro ⟨inner, outer, hchain, hinner⟩
    refine ⟨inner, outer, (path_iff hs).mpr ⟨?_, hchain⟩, hinner⟩
    apply Nat.lt_of_not_le
    intro hmissing
    simp [chain_missing hmissing] at hchain

theorem resolve_iff (hs : Ordered s) : s.resolve? frame name = some owner ↔ s.Nearest frame name owner := by
  unfold Store.resolve? Store.Nearest
  rw [meetsFirst_iff hs, List.find?_eq_some_iff_append, and_comm]
  simp

theorem not_nearest_of_none (hs : Ordered s) (h : s.resolve? frame name = none) (owner : Nat) :
    ¬s.Nearest frame name owner := by
  rw [← resolve_iff hs, h]
  exact nofun

theorem lookup_of_resolve {b : Binding} (h : s.resolve? frame name = some owner)
    (hb : s.bindingIn? owner name = some b) :
    s.lookup frame name = .ok b.value := by
  simp [Store.lookup, h, hb]

theorem lookup_of_none (h : s.resolve? frame name = none) :
    s.lookup frame name = .error (.undeclared name) := by
  simp [Store.lookup, h]

theorem declares_of_resolve (h : s.resolve? frame name = some owner) :
    ∃ b, s.bindingIn? owner name = some b := by
  have hdeclares := List.find?_some h
  exact Option.isSome_iff_exists.mp hdeclares

/-- Names are looked up alike if they are found in the same frame, with the same variable. -/
theorem lookup_congr (hresolve : t.resolve? frame name = s.resolve? frame name)
    (hbinding : ∀ owner, s.resolve? frame name = some owner →
      t.bindingIn? owner name = s.bindingIn? owner name) :
    t.lookup frame name = s.lookup frame name := by
  unfold Store.lookup
  rw [hresolve]
  cases hs : s.resolve? frame name with
  | none => rfl
  | some owner => simp only [Option.bind_some, hbinding owner hs]

theorem lookup_iff (hs : Ordered s) : s.lookup frame name = .ok value ↔
    ∃ owner b, s.Nearest frame name owner ∧ s.bindingIn? owner name = some b ∧ b.value = value := by
  constructor
  · intro h
    cases hresolve : s.resolve? frame name with
    | none =>
      rw [lookup_of_none hresolve] at h
      cases h
    | some owner =>
      obtain ⟨b, hb⟩ := declares_of_resolve hresolve
      rw [lookup_of_resolve hresolve hb] at h
      cases h
      exact ⟨owner, b, (resolve_iff hs).mp hresolve, hb, rfl⟩
  · rintro ⟨owner, b, hnearest, hb, rfl⟩
    exact lookup_of_resolve ((resolve_iff hs).mpr hnearest) hb

theorem lookup_error (hs : Ordered s) {e : Fault} (h : s.lookup frame name = .error e) :
    e = .undeclared name ∧ ∀ owner, ¬s.Nearest frame name owner := by
  cases hresolve : s.resolve? frame name with
  | none =>
    rw [lookup_of_none hresolve] at h
    cases h
    exact ⟨rfl, not_nearest_of_none hs hresolve⟩
  | some owner =>
    obtain ⟨b, hb⟩ := declares_of_resolve hresolve
    rw [lookup_of_resolve hresolve hb] at h
    cases h

end Meanings

section Assignments

theorem bindingIn_put (s : Store) (owner : Nat) (name : String) (value : Value) (i : Nat) (n : String) :
    (s.apply (.put owner name value)).bindingIn? i n =
      (s.bindingIn? i n).map fun b => if i = owner ∧ n = name then { b with value } else b := by
  unfold Store.bindingIn?
  simp only [Store.apply, Array.getElem?_modify]
  by_cases hi : owner = i
  · subst hi
    cases s.frames[owner]? with
    | none => simp
    | some f => simp [StoreGrowth.get_put]
  · simp [hi, Ne.symm hi]

theorem resolve_put (s : Store) (owner : Nat) (name : String) (value : Value) (frame : Nat) (n : String) :
    (s.apply (.put owner name value)).resolve? frame n = s.resolve? frame n := by
  unfold Store.resolve?
  rw [chain_apply]
  simp only [declaresIn_put]

theorem assign_ok_iff {e : Edit} : s.assign frame name value = .ok e ↔
    ∃ owner b, s.resolve? frame name = some owner ∧ s.bindingIn? owner name = some b ∧ b.constant = false ∧
      e = .put owner name value := by
  unfold Store.assign
  cases hresolve : s.resolve? frame name with
  | none => simp
  | some owner =>
    obtain ⟨b, hb⟩ := declares_of_resolve hresolve
    cases hconstant : b.constant with
    | true => simp [hb, hconstant]
    | false => simp [hb, hconstant, eq_comm (a := e)]

theorem assign_error (hs : Ordered s) {e : Fault} (h : s.assign frame name value = .error e) :
    s.Unassignable frame name e := by
  unfold Store.assign at h
  cases hresolve : s.resolve? frame name with
  | none =>
    rw [hresolve] at h
    cases h
    exact .missing (not_nearest_of_none hs hresolve)
  | some owner =>
    obtain ⟨b, hb⟩ := declares_of_resolve hresolve
    cases hconstant : b.constant with
    | true =>
      simp only [hresolve, hb, hconstant, if_true] at h
      cases h
      exact .constant ((resolve_iff hs).mp hresolve) hb hconstant
    | false => simp [hresolve, hb, hconstant] at h

/-- A write shows at the frames that mean the variable written. -/
theorem put_shows (hs : Ordered s) {b : Binding} (hb : s.bindingIn? owner name = some b) :
    s.Shows (s.apply (.put owner name value)) name value (s.Nearest · name owner) where
  changed frame hsees := by
    have hresolve := (resolve_iff hs).mpr hsees
    rw [lookup_of_resolve (b := { b with value })]
    · rw [resolve_put, hresolve]
    · simp [bindingIn_put, hb]
  kept frame n hblind := by
    refine lookup_congr (resolve_put s owner name value frame n) fun other hother => ?_
    rw [bindingIn_put]
    have hne : ¬(other = owner ∧ n = name) := by
      rintro ⟨rfl, rfl⟩
      exact hblind ⟨rfl, (resolve_iff hs).mp hother⟩
    simp [hne]

end Assignments

section Declarations

theorem declare_ok_iff {constant : Bool} {e : Edit} : s.declare frame name value constant = .ok e ↔
    s.declaresIn frame name = false ∧ e = .bind frame name ⟨value, constant⟩ := by
  unfold Store.declare
  cases s.declaresIn frame name with
  | true => simp
  | false => simp [eq_comm]

theorem get_bind (f : Frame) (name : String) (b : Binding) (n : String) :
    (f.bind name b).get? n = (f.get? n).or (if n = name then some b else none) := by
  simp only [Frame.get?, Frame.bind, List.lookup_append]
  by_cases hn : n = name
  · simp [hn]
  · simp [hn, List.lookup_cons, beq_eq_false_iff_ne.mpr hn]

theorem bindingIn_bind_other {i : Nat} {n : String} (h : i ≠ frame ∨ n ≠ name) (b : Binding) :
    (s.apply (.bind frame name b)).bindingIn? i n = s.bindingIn? i n := by
  unfold Store.bindingIn?
  simp only [Store.apply, Array.getElem?_modify]
  split
  · rename_i hi
    have hn := h.resolve_left (· hi.symm)
    cases s.frames[i]? with
    | none => rfl
    | some f => simp [get_bind, hn]
  · rfl

/-- One more frame to be found changes nothing for a search that does not come to it. -/
theorem find_gain {p : Nat → Bool} {i : Nat} {frames : List Nat}
    (h : ¬∃ inner outer, frames = inner ++ i :: outer ∧ ∀ k ∈ inner, p k = false) :
    frames.find? (fun k => p k || k == i) = frames.find? p := by
  induction frames with
  | nil => rfl
  | cons k ks ih =>
    cases hk : p k with
    | true => simp [hk]
    | false =>
      have hne : k ≠ i := by
        rintro rfl
        exact h ⟨[], ks, rfl, by simp⟩
      have hrest : ks.find? (fun k => p k || k == i) = ks.find? p := by
        apply ih
        rintro ⟨inner, outer, rfl, hinner⟩
        exact h ⟨k :: inner, outer, rfl, by simpa [hk] using hinner⟩
      simp [hk, hne, hrest]

theorem find_gained {p : Nat → Bool} {i : Nat} {inner outer : List Nat} (h : ∀ k ∈ inner, p k = false) :
    (inner ++ i :: outer).find? (fun k => p k || k == i) = some i := by
  induction inner with
  | nil => simp
  | cons k ks ih =>
    rw [List.forall_mem_cons] at h
    by_cases hk : k = i
    · simp [hk]
    · simp [h.1, hk, ih h.2]

theorem resolve_bind (hframe : frame < s.frames.size) (b : Binding) (i : Nat) :
    (s.apply (.bind frame name b)).resolve? i name = (s.chain i).find? fun k =>
      s.declaresIn k name || k == frame := by
  unfold Store.resolve?
  rw [chain_apply]
  congr 1
  funext k
  by_cases hk : k = frame
  · rw [hk, declaresIn_bind s hframe, beq_self_eq_true, beq_self_eq_true]
  · rw [declaresIn_bind_other s (.inl hk), beq_eq_false_iff_ne.mpr hk, Bool.or_false]

theorem resolve_bind_other {n : String} (h : n ≠ name) (b : Binding) (i : Nat) :
    (s.apply (.bind frame name b)).resolve? i n = s.resolve? i n := by
  unfold Store.resolve?
  rw [chain_apply]
  simp only [declaresIn_bind_other s (.inr h)]

/-- A declaration shows at the frames that come to it before any other of its name. -/
theorem bind_shows (hs : Ordered s) (hframe : frame < s.frames.size) (hnew : s.declaresIn frame name = false)
    (constant : Bool) :
    s.Shows (s.apply (.bind frame name ⟨value, constant⟩)) name value (s.MeetsFirst · name frame) where
  changed i hsees := by
    obtain ⟨inner, outer, hchain, hinner⟩ := (meetsFirst_iff hs).mp hsees
    refine lookup_of_resolve ?_ (SoundActions.bindingIn_bind_self hframe hnew ⟨value, constant⟩)
    rw [resolve_bind hframe, hchain, find_gained hinner]
  kept i n hblind := by
    by_cases hn : n = name
    · subst hn
      have hresolve : (s.apply (.bind frame n ⟨value, constant⟩)).resolve? i n = s.resolve? i n := by
        rw [resolve_bind hframe]
        exact find_gain fun hmeets => hblind ⟨rfl, (meetsFirst_iff hs).mpr hmeets⟩
      refine lookup_congr hresolve fun owner howner => bindingIn_bind_other (.inl ?_) _
      -- the frame of the declaration is not where the name was found, since it did not declare it
      rintro rfl
      obtain ⟨b, hb⟩ := declares_of_resolve howner
      rw [Store.declaresIn, hb] at hnew
      cases hnew
    · exact lookup_congr (resolve_bind_other hn _ i) fun owner _ => bindingIn_bind_other (.inr hn) _

end Declarations

section Faults

variable {m m' : Machine} {e : Fault}

theorem declare_fault {constant : Bool} (h : Machine.declare frame name value constant m = .fault e m') :
    (e = .redeclared name ∧ m.store.declaresIn frame name = true) ∧ m' = m := by
  rw [declare_eq] at h
  split at h
  · rename_i hold
    cases h
    exact ⟨⟨rfl, hold⟩, rfl⟩
  · cases h

end Faults

/-- The nearest declaration decides. From every frame of a tree there is a way to the outermost one, its depth
is how many frames there are on it, and a name is found at the nearest frame that declares it, with the value
there. A name can be assigned exactly if that variable is there and is no constant, and the write shows at the
frames that mean this variable, and nowhere else. A name can be declared exactly if the frame itself does not
declare it, and the declaration shows at the frames that come to it before any other of the name, and nowhere
else. A declaration, an assignment or a lookup that faults says why and leaves the machine as it was. -/
theorem nearest_declaration_decides (s : Store) (hs : s.Tree) (frame : Nat) (hframe : frame < s.frames.size)
    (name : String) :
    (∃ path, s.Path frame path ∧ s.depth frame = path.length ∧
      ∀ owner, s.resolve? frame name = some owner ↔ s.Nearest frame name owner) ∧
    (∀ value, s.lookup frame name = .ok value ↔
      ∃ owner b, s.Nearest frame name owner ∧ s.bindingIn? owner name = some b ∧ b.value = value) ∧
    (∀ value, ((∃ e, s.assign frame name value = .ok e) ↔
        ∃ owner b, s.Nearest frame name owner ∧ s.bindingIn? owner name = some b ∧ b.constant = false) ∧
      ∀ e, s.assign frame name value = .ok e →
        ∃ owner, s.Nearest frame name owner ∧ s.Shows (s.apply e) name value (s.Nearest · name owner)) ∧
    (∀ value constant,
      ((∃ e, s.declare frame name value constant = .ok e) ↔ s.declaresIn frame name = false) ∧
      ∀ e, s.declare frame name value constant = .ok e →
        s.Shows (s.apply e) name value (s.MeetsFirst · name frame)) ∧
    ∀ (m m' : Machine) (e : Fault), m.store = s →
      (∀ value constant, Machine.declare frame name value constant m = .fault e m' →
        (e = .redeclared name ∧ s.declaresIn frame name = true) ∧ m' = m) ∧
      (∀ value, Action.update (fun s => s.assign frame name value) m = .fault e m' →
        s.Unassignable frame name e ∧ m' = m) ∧
      (Action.read (fun s => s.lookup frame name) m = .fault e m' →
        (e = .undeclared name ∧ ∀ owner, ¬s.Nearest frame name owner) ∧ m' = m) := by
  have hordered := tree_ordered hs
  refine ⟨?_, fun value => lookup_iff hordered, fun value => ⟨?_, fun e he => ?_⟩,
    fun value constant => ⟨?_, fun e he => ?_⟩,
    fun m m' e hm => ⟨fun value constant h => ?_, fun value h => ?_, fun h => ?_⟩⟩
  · exact ⟨s.chain frame, path_chain hordered hframe, rfl, fun owner => resolve_iff hordered⟩
  · simp only [assign_ok_iff, ← resolve_iff hordered]
    constructor
    · rintro ⟨e, owner, b, hresolve, hb, hconstant, -⟩
      exact ⟨owner, b, hresolve, hb, hconstant⟩
    · rintro ⟨owner, b, hresolve, hb, hconstant⟩
      exact ⟨_, owner, b, hresolve, hb, hconstant, rfl⟩
  · obtain ⟨owner, b, hresolve, hb, -, rfl⟩ := assign_ok_iff.mp he
    exact ⟨owner, (resolve_iff hordered).mp hresolve, put_shows hordered hb⟩
  · simp [declare_ok_iff]
  · obtain ⟨hnew, rfl⟩ := declare_ok_iff.mp he
    exact bind_shows hordered hframe hnew constant
  · subst hm
    exact declare_fault h
  · subst hm
    obtain ⟨hfault, hsame⟩ := Runs.update_fault h
    exact ⟨assign_error hordered hfault, hsame⟩
  · subst hm
    obtain ⟨hfault, hsame⟩ := Runs.read_fault h
    exact ⟨lookup_error hordered hfault, hsame⟩

/-- A variable in the outermost of three frames, each inside of the one before it. -/
def nested : Store :=
  (((((Store.empty.addFrame none).2.apply (.bind 0 "x" ⟨.number 1, false⟩)).addFrame (some 0)).2).addFrame
    (some 1)).2

theorem nested_tree : nested.Tree := by
  have hdeclared : (Store.empty.addFrame none).2.declare 0 "x" (.number 1) false =
      .ok (.bind 0 "x" ⟨.number 1, false⟩) := rfl
  exact .child (.child (.declare (.root rfl) hdeclared) (by decide)) (by decide)

/-- An assignment from the innermost frame shows in the outermost; a declaration in the middle one shows
inside of it and not outside. -/
theorem nearest_declaration_decides_nested : nested.Tree ∧ nested.frames.size = 3 ∧
    (∃ e, nested.assign 2 "x" (.number 5) = .ok e ∧ (nested.apply e).lookup 0 "x" = .ok (.number 5)) ∧
    ∃ e, nested.declare 1 "x" (.text "a") true = .ok e ∧ (nested.apply e).lookup 2 "x" = .ok (.text "a") ∧
      (nested.apply e).lookup 0 "x" = .ok (.number 1) := by
  have hinner := nearest_declaration_decides nested nested_tree 2 (by decide) "x"
  have houter := nearest_declaration_decides nested nested_tree 0 (by decide) "x"
  have hmiddle := nearest_declaration_decides nested nested_tree 1 (by decide) "x"
  obtain ⟨⟨-, -, -, hfound⟩, -, hassign, -⟩ := hinner
  obtain ⟨⟨-, -, -, hown⟩, -⟩ := houter
  have hnearest : nested.Nearest 0 "x" 0 := (hown 0).mp rfl
  refine ⟨nested_tree, rfl, ⟨.put 0 "x" (.number 5), rfl, ?_⟩, .bind 1 "x" ⟨.text "a", true⟩, rfl, ?_, ?_⟩
  · obtain ⟨owner, howner, hshows⟩ := (hassign (.number 5)).2 _ rfl
    cases ((hfound owner).mpr howner).symm.trans (show nested.resolve? 2 "x" = some 0 from rfl)
    exact hshows.changed 0 hnearest
  · have hmeets : nested.MeetsFirst 2 "x" 1 :=
      ⟨[2], [0], .inside rfl rfl (.inside rfl rfl (.outermost rfl rfl)), by decide⟩
    exact ((hmiddle.2.2.2.1 (.text "a") true).2 _ rfl).changed 2 hmeets
  · have hblind : ¬nested.MeetsFirst 0 "x" 1 := by
      rintro ⟨inner, outer, hway, -⟩
      have hsame := path_unique hway (.outermost rfl rfl)
      cases inner <;> simp at hsame
    exact ((hmiddle.2.2.2.1 (.text "a") true).2 _ rfl).kept 0 "x" fun hsees => hblind hsees.2

end Proofs.Scopes

end Scriptlet
