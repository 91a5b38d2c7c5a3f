import Scriptlet.Proofs.Runs

namespace Scriptlet

/-- Everything in `xs` is still in its place in `ys`, as something that it may have become. -/
def Extends {α : Type} (R : α → α → Prop) (xs ys : Array α) : Prop :=
  ∀ (i : Nat) x, xs[i]? = some x → ∃ y, ys[i]? = some y ∧ R x y

/-- A variable stays as constant as it was, and keeps its value if it is. -/
structure Binding.Keeps (b c : Binding) : Prop where
  constant : c.constant = b.constant
  value : b.constant = true → c.value = b.value

structure Frame.Keeps (f g : Frame) : Prop where
  parent : g.parent = f.parent
  bindings : ∀ name b, f.get? name = some b → ∃ c, g.get? name = some c ∧ b.Keeps c

/-- New keys come behind those that were there. -/
structure Object.Keeps (o p : Object) : Prop where
  keys : o.entries.map Prod.fst <+: p.entries.map Prod.fst
  tag : p.tag = o.tag

/-- What a reference means stays what it was, but for the variables of frames, the entries of objects
and the elements of arrays. -/
structure Store.Grows (s t : Store) : Prop where
  frames : Extends Frame.Keeps s.frames t.frames
  objects : Extends Object.Keeps s.objects t.objects
  arrays : Extends (fun xs ys => xs.size ≤ ys.size) s.arrays t.arrays
  structs : Extends Eq s.structs t.structs
  natives : Extends Eq s.natives t.natives
  functions : Extends Eq s.functions t.functions

/-- Outcomes with a store that has grown from `s`, whether there is a value or a fault. -/
def Outcome.GrownFrom {α : Type} (s : Store) : Outcome α → Prop
  | .done _ m => s.Grows m.store
  | .fault _ m => s.Grows m.store
  | .starved => True

section Extends

variable {α : Type} {R : α → α → Prop} {xs ys zs : Array α}

theorem Extends.refl (hR : ∀ x, R x x) (xs : Array α) : Extends R xs xs := by
  intro i x hx
  exact ⟨x, hx, hR x⟩

theorem Extends.trans (hR : ∀ {x y z}, R x y → R y z → R x z) (hxy : Extends R xs ys)
    (hyz : Extends R ys zs) : Extends R xs zs := by
  intro i x hx
  obtain ⟨y, hy, hRxy⟩ := hxy i x hx
  obtain ⟨z, hz, hRyz⟩ := hyz i y hy
  exact ⟨z, hz, hR hRxy hRyz⟩

theorem Extends.push (hR : ∀ x, R x x) (xs : Array α) (v : α) : Extends R xs (xs.push v) := by
  intro i x hx
  obtain ⟨hi, rfl⟩ := Array.getElem?_eq_some_iff.mp hx
  exact ⟨xs[i], Array.getElem?_push_lt hi, hR _⟩

theorem Extends.modify (hR : ∀ x, R x x) {i : Nat} {f : α → α} (hf : ∀ x, xs[i]? = some x → R x (f x)) :
    Extends R xs (xs.modify i f) := by
  intro j x hx
  rw [Array.getElem?_modify, hx]
  by_cases hij : i = j
  · subst hij
    exact ⟨f x, by simp, hf x hx⟩
  · exact ⟨x, by simp [hij], hR x⟩

theorem Extends.size_le (h : Extends R xs ys) : xs.size ≤ ys.size := by
  refine Nat.le_of_not_lt fun hlt => ?_
  obtain ⟨y, hy, _⟩ := h ys.size _ (Array.getElem?_eq_getElem hlt)
  rw [Array.getElem?_size] at hy
  cases hy

end Extends

theorem Binding.Keeps.refl (b : Binding) : b.Keeps b :=
  ⟨rfl, fun _ => rfl⟩

theorem Binding.Keeps.trans {a b c : Binding} (hab : a.Keeps b) (hbc : b.Keeps c) : a.Keeps c := by
  refine ⟨hbc.constant.trans hab.constant, fun ha => ?_⟩
  have hb : b.constant = true := hab.constant.trans ha
  exact (hbc.value hb).trans (hab.value ha)

theorem Frame.Keeps.refl (f : Frame) : f.Keeps f :=
  ⟨rfl, fun _ b hb => ⟨b, hb, .refl b⟩⟩

theorem Frame.Keeps.trans {f g h : Frame} (hfg : f.Keeps g) (hgh : g.Keeps h) : f.Keeps h := by
  refine ⟨hgh.parent.trans hfg.parent, fun name b hb => ?_⟩
  obtain ⟨c, hc, hbc⟩ := hfg.bindings name b hb
  obtain ⟨d, hd, hcd⟩ := hgh.bindings name c hc
  exact ⟨d, hd, hbc.trans hcd⟩

theorem Object.Keeps.refl (o : Object) : o.Keeps o :=
  ⟨List.prefix_refl _, rfl⟩

theorem Object.Keeps.trans {o p q : Object} (hop : o.Keeps p) (hpq : p.Keeps q) : o.Keeps q :=
  ⟨hop.keys.trans hpq.keys, hpq.tag.trans hop.tag⟩

theorem Store.Grows.refl (s : Store) : s.Grows s where
  frames := .refl Frame.Keeps.refl _
  objects := .refl Object.Keeps.refl _
  arrays := .refl (fun xs => Nat.le_refl xs.size) _
  structs := .refl (fun _ => rfl) _
  natives := .refl (fun _ => rfl) _
  functions := .refl (fun _ => rfl) _

theorem Store.Grows.trans {s t u : Store} (hst : s.Grows t) (htu : t.Grows u) : s.Grows u where
  frames := .trans Frame.Keeps.trans hst.frames htu.frames
  objects := .trans Object.Keeps.trans hst.objects htu.objects
  arrays := .trans (fun hxy hyz => Nat.le_trans hxy hyz) hst.arrays htu.arrays
  structs := .trans Eq.trans hst.structs htu.structs
  natives := .trans Eq.trans hst.natives htu.natives
  functions := .trans Eq.trans hst.functions htu.functions

namespace Proofs.StoreGrowth

theorem keeps_bind (f : Frame) (name : String) (b : Binding) : f.Keeps (f.bind name b) := by
  refine ⟨rfl, fun n c hc => ⟨c, ?_, .refl c⟩⟩
  have hlookup : f.bindings.lookup n = some c := hc
  simp [Frame.bind, Frame.get?, List.lookup_append, hlookup]

theorem get_put (f : Frame) (name : String) (value : Value) (n : String) :
    (f.put name value).get? n = (f.get? n).map fun b => if n = name then { b with value } else b := by
  unfold Frame.put Frame.get?
  induction f.bindings with
  | nil => rfl
  | cons e es ih =>
    obtain ⟨k, b⟩ := e
    by_cases hk : n = k
    · subst hk
      by_cases hn : n = name
      · simp [hn]
      · simp [hn]
    · have hne : (n == k) = false := by simpa using hk
      by_cases hname : k = name
      · simp [hname, List.lookup_cons, ih, hname ▸ hne]
      · simp [hname, List.lookup_cons, ih, hne]

theorem keeps_put {f : Frame} {name : String} {b : Binding} (hb : f.get? name = some b)
    (hconstant : b.constant = false) (value : Value) : f.Keeps (f.put name value) := by
  refine ⟨rfl, fun n c hc => ?_⟩
  rw [get_put, hc]
  refine ⟨if n = name then { c with value } else c, rfl, ?_⟩
  by_cases hn : n = name
  · subst hn
    obtain rfl : b = c := Option.some.inj (hb.symm.trans hc)
    rw [if_pos rfl]
    exact ⟨rfl, fun hc => by rw [hconstant] at hc; cases hc⟩
  · rw [if_neg hn]
    exact .refl c

theorem setEntry_keys (key : String) (value : Value) (entries : List (String × Value)) :
    entries.map Prod.fst <+: (Object.setEntry key value entries).map Prod.fst := by
  induction entries with
  | nil => exact List.nil_prefix
  | cons e es ih =>
    unfold Object.setEntry
    split
    · exact List.prefix_refl _
    · exact List.cons_prefix_cons.mpr ⟨rfl, ih⟩

theorem keeps_set (o : Object) (key : String) (value : Value) : o.Keeps (o.set key value) :=
  ⟨setEntry_keys key value o.entries, rfl⟩

theorem apply_grows {s : Store} {e : Edit} (h : s.Admits e) : s.Grows (s.apply e) := by
  have hsame := Store.Grows.refl s
  have hsize : ∀ xs : Array Value, xs.size ≤ xs.size := fun xs => Nat.le_refl xs.size
  cases e with
  | bind frame name binding =>
    exact { hsame with
      frames := .modify Frame.Keeps.refl fun f _ => keeps_bind f name binding }
  | put frame name value =>
    obtain ⟨b, hb, hconstant⟩ := h
    refine { hsame with frames := .modify Frame.Keeps.refl fun f hf => ?_ }
    rw [Store.bindingIn?, hf] at hb
    exact keeps_put hb hconstant value
  | enclose function frame =>
    obtain ⟨f, hf, hclosure⟩ := h
    refine { hsame with functions := .modify (fun _ => rfl) fun g hg => ?_ }
    obtain rfl : f = g := Option.some.inj (hf.symm.trans hg)
    rw [← hclosure]
  | setEntry object key value =>
    exact { hsame with objects := .modify Object.Keeps.refl fun o _ => keeps_set o key value }
  | setElement array index value =>
    exact { hsame with arrays := .modify hsize fun xs _ => by simp }
  | pushElement array value =>
    exact { hsame with arrays := .modify hsize fun xs _ => by simp }

theorem change_grows {s t : Store} (h : s.Change t) : s.Grows t := by
  have hsame := Store.Grows.refl s
  cases h with
  | edit h => exact apply_grows h
  | array values => exact { hsame with arrays := .push (fun xs => Nat.le_refl xs.size) _ _ }
  | object object => exact { hsame with objects := .push Object.Keeps.refl _ _ }
  | struct struct => exact { hsame with structs := .push (fun _ => rfl) _ _ }
  | native native => exact { hsame with natives := .push (fun _ => rfl) _ _ }
  | function function => exact { hsame with functions := .push (fun _ => rfl) _ _ }
  | frame parent => exact { hsame with frames := .push Frame.Keeps.refl _ _ }

theorem runs_grows {m m' : Machine} (h : m.Runs m') : m.store.Grows m'.store := by
  induction h with
  | refl m => exact .refl _
  | trans _ _ hab hbc => exact hab.trans hbc
  | store h => exact change_grows h
  | output m output => exact .refl _
  | schedule m schedule => exact .refl _
  | random m random => exact .refl _
  | call _ _ hbody => exact hbody

theorem grownFrom_of_runFrom {α : Type} {m : Machine} {o : Outcome α} (h : o.RunFrom m) :
    o.GrownFrom m.store := by
  cases o with
  | done v m' => exact runs_grows h
  | fault e m' => exact runs_grows h
  | starved => trivial

/-- The store only grows and constants never change: under any statement, expression or call, under a
frame of due callbacks, and under a whole run, on any machine and however it ends. -/
theorem store_grows (fuel : Nat) (m : Machine) :
    (∀ frame stmt, (Machine.execute frame fuel stmt m).GrownFrom m.store) ∧
    (∀ frame e, (Machine.eval frame fuel e m).GrownFrom m.store) ∧
    (∀ f arguments, (Machine.call fuel f arguments m).GrownFrom m.store) ∧
    (∀ frameMs, (Host.runFrame fuel frameMs m).GrownFrom m.store) ∧
    (∀ settings program, (Host.drive fuel settings program m).GrownFrom m.store) := by
  have hruns := Runs.evaluator_runs fuel
  refine ⟨fun frame stmt => ?_, fun frame e => ?_, fun f arguments => ?_, fun frameMs => ?_,
    fun settings program => ?_⟩
  · exact grownFrom_of_runFrom (hruns.execute frame stmt m)
  · exact grownFrom_of_runFrom (hruns.eval frame e m)
  · exact grownFrom_of_runFrom (hruns.call f arguments m)
  · exact grownFrom_of_runFrom (Runs.runs_runFrame fuel frameMs m)
  · exact grownFrom_of_runFrom (Runs.runs_drive fuel settings program m)

end Proofs.StoreGrowth

end Scriptlet
