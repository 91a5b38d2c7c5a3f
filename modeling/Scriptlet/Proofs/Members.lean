import Scriptlet.Proofs.DoubleSums
import Scriptlet.Proofs.Entries
import Scriptlet.Proofs.Runs

namespace Scriptlet

/-- No object has a key twice. -/
def Store.DistinctKeys (s : Store) : Prop :=
  ∀ (ref : Nat) o, s.objects[ref]? = some o → o.keys.Nodup

/-- If the value is an array or object, the store has it. -/
def Store.Refers (s : Store) : Value → Prop
  | .object ref => ref < s.objects.size
  | .array ref => ref < s.arrays.size
  | _ => True

/-- A write of one key: in its place among the entries, or behind all others if it is new. -/
inductive Object.Written (key : String) (value : Value) (o : Object) : Object → Prop where
  | replaced {before after : List (String × Value)} {old : Value}
      (h : o.entries = before ++ (key, old) :: after) :
      o.Written key value { o with entries := before ++ (key, value) :: after }
  | added (h : key ∉ o.keys) : o.Written key value { o with entries := o.entries ++ [(key, value)] }

/-- A write of one position: in its place among the elements, or right behind the last. -/
inductive Store.ElementWritten (i : Nat) (value : Value) (xs : Array Value) : Array Value → Prop where
  | replaced {before after : List Value} {old : Value} (h : xs.toList = before ++ old :: after)
      (hi : before.length = i) :
      ElementWritten i value xs (before ++ value :: after).toArray
  | added (h : xs.size = i) : ElementWritten i value xs (xs.push value)

/-- A write of a member: one object or one array has it, and all else is as it was. -/
inductive Store.MemberWritten (s : Store) (key value : Value) : Value → Store → Prop where
  | object {ref : Nat} {o o' : Object} (ho : s.objects[ref]? = some o)
      (h : o.Written (s.display key) value o') :
      s.MemberWritten key value (.object ref) { s with objects := s.objects.setIfInBounds ref o' }
  | array {ref i : Nat} {xs ys : Array Value} (hxs : s.arrays[ref]? = some xs)
      (hi : Number.IsWhole key.toNumber i) (h : ElementWritten i value xs ys) :
      s.MemberWritten key value (.array ref) { s with arrays := s.arrays.setIfInBounds ref ys }

/-- There is no place for a member: the target has none, or it is an array and the key is null or no whole
number from zero up to its length. -/
inductive Store.Placeless (s : Store) : Value → Value → Prop where
  | target {target key : Value} (harray : target.kind ≠ .array) (hobject : target.kind ≠ .object) :
      s.Placeless target key
  | null {ref : Nat} : s.Placeless (.array ref) .null
  | position {ref : Nat} {key : Value} (h : ∀ i, Number.IsWhole key.toNumber i → (s.elements ref).size < i) :
      s.Placeless (.array ref) key

namespace Proofs.Members
open DoubleSums Entries

variable {s : Store} {m : Machine} {target key value : Value} {ref i : Nat}

section Keys

theorem index?_eq_some_iff : key.index? = some i ↔ key ≠ .null ∧ Number.IsWhole key.toNumber i := by
  cases key with
  | null => simp [Value.index?]
  | _ => simp [Value.index?, natural?_eq_some_iff]

theorem index?_length : (Value.text "length").index? = none := by
  decide +kernel

/-- A position is never the name of the length. -/
theorem isLength_eq_false (h : key.index? = some i) : key.isLength = false := by
  cases key with
  | text t =>
    simp only [Value.isLength, decide_eq_false_iff_not]
    rintro rfl
    rw [index?_length] at h
    cases h
  | _ => rfl

/-- Only arrays and objects are shown by what they hold. -/
theorem display_apply {e : Edit} (hstructs : (s.apply e).structs = s.structs)
    (harray : key.kind ≠ .array) (hobject : key.kind ≠ .object) :
    (s.apply e).display key = s.display key := by
  cases key with
  | array ref => exact absurd rfl harray
  | object ref => exact absurd rfl hobject
  | structType ref => simp only [Store.display, Store.structAt, hstructs]
  | _ => rfl

end Keys

section Objects

variable {o : Object} {k : String} {entries : List (String × Value)}

theorem setEntry_replaced (value : Value) (h : k ∈ entries.map Prod.fst) :
    ∃ before old after, entries = before ++ (k, old) :: after ∧
      Object.setEntry k value entries = before ++ (k, value) :: after := by
  induction entries with
  | nil => simp at h
  | cons e es ih =>
    obtain ⟨l, w⟩ := e
    unfold Object.setEntry
    split
    · rename_i hl
      subst hl
      exact ⟨[], w, es, rfl, rfl⟩
    · rename_i hl
      have hrest : k ∈ es.map Prod.fst := by
        rcases List.mem_cons.mp h with heq | hmem
        · exact absurd heq.symm hl
        · exact hmem
      obtain ⟨before, old, after, hes, hset⟩ := ih hrest
      exact ⟨(l, w) :: before, old, after, by rw [hes]; rfl, by rw [hset]; rfl⟩

theorem written_set (o : Object) (k : String) (value : Value) : o.Written k value (o.set k value) := by
  by_cases hk : k ∈ o.keys
  · obtain ⟨before, old, after, hentries, hset⟩ := setEntry_replaced value hk
    rw [Object.set, hset]
    exact .replaced hentries
  · rw [Object.set, setEntry_new hk]
    exact .added hk

theorem modify_eq_set {α : Type} {xs : Array α} {f : α → α} {x : α} (h : xs[i]? = some x) :
    xs.modify i f = xs.setIfInBounds i (f x) := by
  apply Array.ext_getElem?
  intro j
  rw [Array.getElem?_modify, Array.getElem?_setIfInBounds]
  by_cases hij : i = j
  · subst hij
    obtain ⟨hi, rfl⟩ := Array.getElem?_eq_some_iff.mp h
    simp [hi]
  · simp [hij]

theorem distinctKeys_setEntry (h : s.DistinctKeys) (ref : Nat) (k : String) (value : Value) :
    (s.apply (.setEntry ref k value)).DistinctKeys := by
  intro j o ho
  simp only [Store.apply, Array.getElem?_modify] at ho
  split at ho
  · obtain ⟨o', ho', rfl⟩ := Option.map_eq_some_iff.mp ho
    exact nodup_keys_set (h j o' ho')
  · exact h j o ho

/-- What is written to an object is read there. -/
theorem getMember_setEntry (href : ref < s.objects.size) (harray : key.kind ≠ .array)
    (hobject : key.kind ≠ .object) :
    (s.apply (.setEntry ref (s.display key) value)).getMember (.object ref) key = .ok value := by
  have hdisplay := display_apply (s := s) (e := .setEntry ref (s.display key) value) rfl harray hobject
  have hobject : (s.apply (.setEntry ref (s.display key) value)).objectAt ref =
      (s.objectAt ref).set (s.display key) value := by
    simp [Store.objectAt, Store.apply, Array.getD_eq_getD_getElem?, Array.getElem_modify, href]
  simp only [Store.getMember, hdisplay, hobject, get?_set, if_pos, Option.getD_some]

end Objects

section Arrays

theorem elements_eq (href : ref < s.arrays.size) : s.arrays[ref]? = some (s.elements ref) := by
  simp [Store.elements, href]

/-- An array is read at a position by its elements. -/
theorem getMember_array (hi : key.index? = some i) :
    s.getMember (.array ref) key = .ok ((s.elements ref)[i]?.getD .null) := by
  simp only [Store.getMember, isLength_eq_false hi, hi, Bool.false_eq_true, if_false, Option.bind_some]

theorem elementWritten_set {xs : Array Value} (hi : i < xs.size) :
    Store.ElementWritten i value xs (xs.setIfInBounds i value) := by
  have hsplit : xs.toList = xs.toList.take i ++ xs[i] :: xs.toList.drop (i + 1) := by
    rw [← Array.getElem_toList hi, List.cons_getElem_drop_succ, List.take_append_drop]
  have hset : xs.setIfInBounds i value = (xs.toList.take i ++ value :: xs.toList.drop (i + 1)).toArray := by
    apply Array.toList_inj.mp
    rw [Array.toList_setIfInBounds, List.set_eq_take_append_cons_drop, if_pos (by simpa using hi)]
  rw [hset]
  exact .replaced hsplit (by simp; omega)

end Arrays

section Writes

variable {e : Edit}

theorem setMember_array_ok (h : s.setMember (.array ref) key value = .ok e) :
    ∃ i, key.index? = some i ∧
      (i < (s.elements ref).size ∧ e = .setElement ref i value ∨
        i = (s.elements ref).size ∧ e = .pushElement ref value) := by
  unfold Store.setMember at h
  cases hi : key.index? with
  | none => simp [hi] at h
  | some i =>
    simp only [hi] at h
    split at h
    · rename_i hlt
      cases h
      exact ⟨i, rfl, .inl ⟨hlt, rfl⟩⟩
    · split at h
      · rename_i heq
        cases h
        exact ⟨i, rfl, .inr ⟨heq, rfl⟩⟩
      · cases h

theorem elements_modify (href : ref < s.arrays.size) (f : Array Value → Array Value) :
    ({ s with arrays := s.arrays.modify ref f } : Store).elements ref = f (s.elements ref) := by
  simp [Store.elements, Array.getD_eq_getD_getElem?, Array.getElem_modify, href]

theorem array_written (href : ref < s.arrays.size) (h : s.setMember (.array ref) key value = .ok e) :
    (s.apply e).getMember (.array ref) key = .ok value ∧ s.MemberWritten key value (.array ref) (s.apply e) ∧
      (s.apply e).objects = s.objects := by
  obtain ⟨i, hi, ⟨hlt, rfl⟩ | ⟨hlast, rfl⟩⟩ := setMember_array_ok h
  · have hwhole := (index?_eq_some_iff.mp hi).2
    have hset := modify_eq_set (f := (·.setIfInBounds i value)) (elements_eq href)
    refine ⟨?_, ?_, rfl⟩
    · rw [getMember_array hi, Store.apply, elements_modify href]
      simp [hlt]
    · rw [Store.apply, hset]
      exact .array (elements_eq href) hwhole (elementWritten_set hlt)
  · have hwhole := (index?_eq_some_iff.mp hi).2
    have hset := modify_eq_set (f := (·.push value)) (elements_eq href)
    refine ⟨?_, ?_, rfl⟩
    · rw [getMember_array hi, Store.apply, elements_modify href, hlast]
      simp
    · rw [Store.apply, hset]
      exact .array (elements_eq href) hwhole (.added hlast.symm)

/-- A write that succeeds is read back, and changes one member and nothing else. -/
theorem member_written (hdistinct : s.DistinctKeys) (htarget : s.Refers target) (harray : key.kind ≠ .array)
    (hobject : key.kind ≠ .object) (h : s.setMember target key value = .ok e) :
    (s.apply e).getMember target key = .ok value ∧ s.MemberWritten key value target (s.apply e) ∧
      (s.apply e).DistinctKeys := by
  cases target with
  | object ref =>
    cases h
    have href : s.objects[ref]? = some s.objects[ref] := Array.getElem?_eq_getElem htarget
    refine ⟨getMember_setEntry htarget harray hobject, ?_, distinctKeys_setEntry hdistinct ref _ value⟩
    rw [Store.apply, modify_eq_set href]
    exact .object href (written_set _ _ value)
  | array ref =>
    obtain ⟨hread, hwritten, hobjects⟩ := array_written htarget h
    refine ⟨hread, hwritten, ?_⟩
    unfold Store.DistinctKeys
    rw [hobjects]
    exact hdistinct
  | _ => cases h

theorem setMember_array_error_iff (value : Value) :
    (∃ fault, s.setMember (.array ref) key value = .error fault) ↔ s.Placeless (.array ref) key := by
  constructor
  · rintro ⟨fault, h⟩
    unfold Store.setMember at h
    cases hi : key.index? with
    | none =>
      by_cases hnull : key = .null
      · subst hnull
        exact .null
      · refine .position fun i hwhole => ?_
        rw [index?_eq_some_iff.mpr ⟨hnull, hwhole⟩] at hi
        cases hi
    | some i =>
      refine .position fun j hwhole => ?_
      obtain rfl := whole_unique hwhole (index?_eq_some_iff.mp hi).2
      simp only [hi] at h
      split at h
      · cases h
      · split at h
        · cases h
        · omega
  · intro h
    unfold Store.setMember
    cases hi : key.index? with
    | none => exact ⟨_, rfl⟩
    | some i =>
      obtain ⟨hnull, hwhole⟩ := index?_eq_some_iff.mp hi
      have hpast : (s.elements ref).size < i := by
        cases h with
        | target harray _ => exact absurd rfl harray
        | null => exact absurd rfl hnull
        | position h => exact h i hwhole
      exact ⟨_, by simp only; rw [if_neg (by omega), if_neg (by omega)]⟩

/-- A write fails exactly where a member has no place. -/
theorem setMember_error_iff (value : Value) :
    (∃ fault, s.setMember target key value = .error fault) ↔ s.Placeless target key := by
  cases target with
  | array ref => exact setMember_array_error_iff value
  | object ref =>
    refine iff_of_false ?_ ?_
    · rintro ⟨fault, h⟩
      cases h
    · intro h
      cases h with
      | target _ hobject => exact hobject rfl
  | _ => exact iff_of_true ⟨_, rfl⟩ (.target (by simp [Value.kind]) (by simp [Value.kind]))

end Writes

section Machines

theorem update_ok {f : Store → Except Fault Edit} {e : Edit} (h : f m.store = .ok e) :
    Action.update f m = .done () { m with store := m.store.apply e } := by
  simp only [Action.update, h]

theorem update_error {f : Store → Except Fault Edit} {fault : Fault} (h : f m.store = .error fault) :
    Action.update f m = .fault fault m := by
  simp only [Action.update, h]

theorem exists_ok_iff {α : Type} {x : Except Fault α} : (∃ a, x = .ok a) ↔ ¬∃ fault, x = .error fault := by
  cases x <;> simp

/-- A write of a member that succeeds is read back and changes this member only; one that fails changes
nothing, and it fails exactly where the member has no place. Keys that are arrays or objects are left out:
what they show can change with the write. -/
theorem member_writes_obey_store_laws (m : Machine) (hdistinct : m.store.DistinctKeys)
    (target key value : Value)
    (htarget : m.store.Refers target) (harray : key.kind ≠ .array) (hobject : key.kind ≠ .object) :
    (∀ m', Action.update (fun s => s.setMember target key value) m = .done () m' →
      Action.read (fun s => s.getMember target key) m' = .done value m' ∧
        m' = { m with store := m'.store } ∧ m.store.MemberWritten key value target m'.store ∧
          m'.store.DistinctKeys) ∧
    (∀ fault m', Action.update (fun s => s.setMember target key value) m = .fault fault m' → m' = m) ∧
    ((∃ fault m', Action.update (fun s => s.setMember target key value) m = .fault fault m') ↔
      m.store.Placeless target key) ∧
    ((∃ m', Action.update (fun s => s.setMember target key value) m = .done () m') ↔
      ¬m.store.Placeless target key) := by
  refine ⟨?_, ?_, ?_, ?_⟩
  · intro m' h
    obtain ⟨e, he, rfl⟩ := Runs.update_done h
    obtain ⟨hread, hwritten, hkeys⟩ := member_written hdistinct htarget harray hobject he
    refine ⟨?_, rfl, hwritten, hkeys⟩
    simp only [Action.read, hread]
  · intro fault m' h
    exact (Runs.update_fault h).2
  · rw [← setMember_error_iff value]
    constructor
    · rintro ⟨fault, m', h⟩
      exact ⟨fault, (Runs.update_fault h).1⟩
    · rintro ⟨fault, h⟩
      exact ⟨fault, m, update_error h⟩
  · rw [← setMember_error_iff value, ← exists_ok_iff]
    constructor
    · rintro ⟨m', h⟩
      obtain ⟨e, he, -⟩ := Runs.update_done h
      exact ⟨e, he⟩
    · rintro ⟨e, he⟩
      exact ⟨_, update_ok he⟩

/-- An object of two entries and an array of one element. -/
def shelf : Machine where
  store := { Store.empty with objects := #[⟨[("a", .null), ("1", .null)], none⟩], arrays := #[#[.number 10]] }
  output := .empty
  schedule := .idle
  random := .ofSeed 0
  depth := 0
  limit := defaultCallLimit

theorem shelf_distinct : shelf.store.DistinctKeys := by
  intro ref o ho
  obtain ⟨href, rfl⟩ := Array.getElem?_eq_some_iff.mp ho
  obtain rfl : ref = 0 := Nat.lt_one_iff.mp href
  exact (by decide : ["a", "1"].Nodup)

/-- A text that spells the length adds an element; the name of the length, which can be read, cannot be
written. -/
theorem member_writes_obey_store_laws_shelf :
    shelf.store.DistinctKeys ∧ shelf.store.Refers (.array 0) ∧
    (∃ m', Action.update (fun s => s.setMember (.array 0) (.text "1") (.number 20)) shelf = .done () m' ∧
      Action.read (fun s => s.getMember (.array 0) (.text "1")) m' = .done (.number 20) m') ∧
    shelf.store.Placeless (.array 0) (.text "length") := by
  have hrefers : shelf.store.Refers (.array 0) := Nat.one_pos
  have hadd := member_writes_obey_store_laws shelf shelf_distinct (.array 0) (.text "1") (.number 20) hrefers
    (by decide) (by decide)
  have hname := member_writes_obey_store_laws shelf shelf_distinct (.array 0) (.text "length")
    (.number 20) hrefers
    (by decide) (by decide)
  have hindex : (Value.text "1").index? = some 1 := by decide +kernel
  have hedit : shelf.store.setMember (.array 0) (.text "1") (.number 20) =
      .ok (.pushElement 0 (.number 20)) := by
    simp only [Store.setMember, hindex]
    rfl
  have hdone := update_ok (f := fun s => s.setMember (.array 0) (.text "1") (.number 20)) hedit
  refine ⟨shelf_distinct, hrefers, ⟨_, hdone, (hadd.1 _ hdone).1⟩, ?_⟩
  have hfault : shelf.store.setMember (.array 0) (.text "length") (.number 20) =
      .error (.mismatch (.indexNotWhole "length")) := by
    simp only [Store.setMember, index?_length]
    rfl
  exact hname.2.2.1.mp ⟨_, shelf, update_error hfault⟩

end Machines

end Proofs.Members
end Scriptlet
