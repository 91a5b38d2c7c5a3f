import Scriptlet.Store.Display

namespace Scriptlet
open Store

/-- The array or object that a value refers to. -/
def Value.cell? : Value → Option Cell
  | .array ref => some (.array ref)
  | .object ref => some (.object ref)
  | _ => none

/-- What an array or object holds, in order. -/
def Store.parts (s : Store) : Cell → List Value
  | .array ref => (s.elements ref).toList
  | .object ref => (s.objectAt ref).entries.map Prod.snd

/-- The steps lead from a value to another one, through the arrays and objects of `above`, the nearest first.
A step is the position of a part, so that a place in the value and the place in its JSON have one name. -/
inductive Store.Leads (s : Store) (root : Value) : List Nat → List Cell → Value → Prop where
  | here : s.Leads root [] [] root
  | part {steps : List Nat} {above : List Cell} {v w : Value} {c : Cell} {i : Nat}
      (h : s.Leads root steps above v) (hcell : v.cell? = some c) (hpart : (s.parts c)[i]? = some w) :
      s.Leads root (steps ++ [i]) (c :: above) w

/-- Nothing that a value leads to leads back to itself. -/
def Store.NoCycle (s : Store) (root : Value) : Prop :=
  ∀ steps above v, s.Leads root steps above v → ∀ back cells, s.Leads v back cells v → back = []

/-- The JSON of a value that is no array and no object. -/
def Store.leafJson (s : Store) : Value → Json
  | .boolean b => .bool b
  | .text t => .text t
  | .number x => numberJson x
  | .structType ref => .text (describeStruct (s.structAt ref))
  | .native _ => .object [("NativeFunction", .bool true)]
  | .function _ => .object [("FunctionValue", .bool true)]
  | _ => .null

/-- Unfolding with nothing to stop it but the arrays and objects above: an array or object is replaced if it
stands among them, and otherwise all its parts are unfolded below it. Every derivation is an unfolding that
ends. -/
inductive Store.Unfolds (s : Store) : List Cell → Value → Json → Prop where
  | leaf {above : List Cell} {v : Value} (h : v.cell? = none) : s.Unfolds above v (s.leafJson v)
  | cut {above : List Cell} {v : Value} {c : Cell} (hcell : v.cell? = some c) (h : c ∈ above) :
      s.Unfolds above v circular
  | array {above : List Cell} {ref : Nat} {items : List Json} (hnew : .array ref ∉ above)
      (hlength : items.length = (s.elements ref).size)
      (hitems : ∀ (i : Nat) v j, (s.elements ref)[i]? = some v → items[i]? = some j →
        s.Unfolds (.array ref :: above) v j) :
      s.Unfolds above (.array ref) (.array items)
  | object {above : List Cell} {ref : Nat} {entries : List (String × Json)} (hnew : .object ref ∉ above)
      (hkeys : entries.map Prod.fst = (s.objectAt ref).entries.map Prod.fst)
      (hentries : ∀ (i : Nat) e f, (s.objectAt ref).entries[i]? = some e → entries[i]? = some f →
        s.Unfolds (.object ref :: above) e.2 f.2) :
      s.Unfolds above (.object ref) (.object entries)

/-- The JSON shows a value and not a replacement: an array with all its items, an object with all its keys in
order. -/
def Store.ShowsInFull (s : Store) : Value → Json → Prop
  | .array ref, j => ∃ items, j = .array items ∧ items.length = (s.elements ref).size
  | .object ref, j => ∃ entries, j = .object entries ∧
      entries.map Prod.fst = (s.objectAt ref).entries.map Prod.fst
  | v, j => j = s.leafJson v

/-- The items of an array, and the values of an object, in order. -/
def Json.parts : Json → List Json
  | .array items => items
  | .object entries => entries.map Prod.snd
  | _ => []

/-- What stands at a place, if there is such a place. -/
def Json.at? (j : Json) : List Nat → Option Json
  | [] => some j
  | i :: steps => j.parts[i]?.bind (·.at? steps)

namespace Proofs.Unfolding

variable {s : Store} {above path : List Cell} {steps : List Nat} {root v w : Value} {c : Cell} {i n : Nat}
    {j : Json}

section Endings

/-- The arrays and objects of a store. -/
def cells (s : Store) : List Cell :=
  (List.range s.arrays.size).map .array ++ (List.range s.objects.size).map .object

theorem length_cells (s : Store) : (cells s).length = s.arrays.size + s.objects.size := by
  simp [cells]

theorem array_mem_cells {ref : Nat} (h : (s.elements ref)[i]? = some v) : .array ref ∈ cells s := by
  have href : ref < s.arrays.size := array_lt_of_mem (Array.mem_toList_iff.mpr (Array.mem_of_getElem? h))
  simp [cells, href]

theorem object_mem_cells {ref : Nat} {e : String × Value} (h : (s.objectAt ref).entries[i]? = some e) :
    .object ref ∈ cells s := by
  have href : ref < s.objects.size := object_lt_of_mem (List.mem_of_getElem? h)
  simp [cells, href]

/-- Levels suffice below a path if there are more of them than arrays and objects that are not on it. -/
structure Suffices (s : Store) (n : Nat) (path : List Cell) : Prop where
  distinct : path.Nodup
  stored : path ⊆ cells s
  enough : (cells s).length < n + path.length

theorem suffices_start (s : Store) : Suffices s (s.arrays.size + s.objects.size + 1) [] where
  distinct := List.nodup_nil
  stored := List.nil_subset _
  enough := by
    rw [length_cells, List.length_nil]
    omega

theorem suffices_below (h : Suffices s (n + 1) path) (hc : c ∈ cells s) (hnew : c ∉ path) :
    Suffices s n (c :: path) where
  distinct := List.nodup_cons.mpr ⟨hnew, h.distinct⟩
  stored := List.cons_subset.mpr ⟨hc, h.stored⟩
  enough := by
    have := h.enough
    rw [List.length_cons]
    omega

theorem not_suffices_zero (h : Suffices s 0 path) : False := by
  have hfit := h.distinct.length_le_of_subset h.stored
  have := h.enough
  omega

theorem toJsonWithin_leaf (h : v.cell? = none) : s.toJsonWithin n path v = s.leafJson v := by
  cases v with
  | array ref | object ref => cases h
  | _ => cases n <;> rfl

theorem toJsonWithin_unfolds (h : Suffices s n path) : s.Unfolds path v (s.toJsonWithin n path v) := by
  induction n generalizing path v with
  | zero => exact (not_suffices_zero h).elim
  | succ n ih =>
    cases v with
    | array ref =>
      unfold toJsonWithin
      split
      · rename_i hmem
        exact .cut rfl hmem
      · rename_i hnew
        refine .array hnew (by simp) ?_
        intro i v j hv hj
        have hbelow := suffices_below h (array_mem_cells hv) hnew
        obtain rfl : s.toJsonWithin n (.array ref :: path) v = j := by simpa [hv] using hj
        exact ih hbelow
    | object ref =>
      unfold toJsonWithin
      split
      · rename_i hmem
        exact .cut rfl hmem
      · rename_i hnew
        refine .object hnew (by simp [Function.comp_def]) ?_
        intro i e f he hf
        have hbelow := suffices_below h (object_mem_cells he) hnew
        obtain rfl : (e.1, s.toJsonWithin n (.object ref :: path) e.2) = f := by simpa [he] using hf
        exact ih hbelow
    | _ =>
      rw [toJsonWithin_leaf rfl]
      exact .leaf rfl

theorem toJson_unfolds (s : Store) (v : Value) : s.Unfolds [] v (s.toJson v) :=
  toJsonWithin_unfolds (suffices_start s)

end Endings

section Places

theorem at_append (j : Json) (steps more : List Nat) :
    j.at? (steps ++ more) = (j.at? steps).bind (·.at? more) := by
  induction steps generalizing j with
  | nil => rfl
  | cons i steps ih => simp [Json.at?, Option.bind_assoc, ih]

theorem at_singleton (j : Json) (i : Nat) : j.at? [i] = j.parts[i]? := by
  simp [Json.at?]

/-- The parts of an array or object that is not above itself are unfolded below it, each at its own
position. -/
theorem unfolds_part (h : s.Unfolds above v j) (hcell : v.cell? = some c) (hnew : c ∉ above)
    (hpart : (s.parts c)[i]? = some w) : ∃ k, j.parts[i]? = some k ∧ s.Unfolds (c :: above) w k := by
  cases h with
  | leaf hleaf =>
    rw [hleaf] at hcell
    cases hcell
  | cut hown hmem =>
    rw [hown] at hcell
    cases hcell
    exact absurd hmem hnew
  | @array _ ref items _ hlength hitems =>
    cases hcell
    have hw : (s.elements ref)[i]? = some w := by simpa [Store.parts] using hpart
    obtain ⟨hi, _⟩ := Array.getElem?_eq_some_iff.mp hw
    have hk : items[i]? = some items[i] := List.getElem?_eq_getElem (hlength ▸ hi)
    exact ⟨items[i], hk, hitems i w _ hw hk⟩
  | @object _ ref entries _ hkeys hentries =>
    cases hcell
    obtain ⟨e, he, rfl⟩ : ∃ e, (s.objectAt ref).entries[i]? = some e ∧ e.2 = w := by
      simpa [Store.parts] using hpart
    obtain ⟨hi, _⟩ := List.getElem?_eq_some_iff.mp he
    have hlength : entries.length = (s.objectAt ref).entries.length := by
      simpa using congrArg List.length hkeys
    have hf : entries[i]? = some entries[i] := List.getElem?_eq_getElem (hlength ▸ hi)
    refine ⟨entries[i].2, ?_, hentries i e _ he hf⟩
    simp [Json.parts, hf]

theorem circular_iff (h : s.Unfolds above v j) (hcell : v.cell? = some c) : j = circular ↔ c ∈ above := by
  cases h with
  | leaf hleaf =>
    rw [hleaf] at hcell
    cases hcell
  | cut hown hmem =>
    rw [hown] at hcell
    cases hcell
    exact ⟨fun _ => hmem, fun _ => rfl⟩
  | array hnew | object hnew =>
    cases hcell
    exact ⟨fun heq => Json.noConfusion heq, fun hmem => absurd hmem hnew⟩

theorem unfolds_inFull (h : s.Unfolds above v j) (hnew : ∀ c ∈ above, v.cell? ≠ some c) :
    s.ShowsInFull v j := by
  cases h with
  | leaf hleaf =>
    cases v with
    | array ref | object ref => cases hleaf
    | _ => rfl
  | cut hown hmem => exact absurd hown (hnew _ hmem)
  | array _ hlength => exact ⟨_, rfl, hlength⟩
  | object _ hkeys => exact ⟨_, rfl, hkeys⟩

/-- A way through different arrays and objects leads to a place of the JSON, where the value is unfolded below
them. -/
theorem unfolds_of_leads (hroot : s.Unfolds [] root j) (h : s.Leads root steps above v)
    (hdistinct : above.Nodup) :
    ∃ k, j.at? steps = some k ∧ s.Unfolds above v k := by
  induction h with
  | here => exact ⟨j, rfl, hroot⟩
  | part h hcell hpart ih =>
    obtain ⟨hnew, habove⟩ := List.nodup_cons.mp hdistinct
    obtain ⟨k, hk, hunfolds⟩ := ih habove
    obtain ⟨l, hl, hpart⟩ := unfolds_part hunfolds hcell hnew hpart
    refine ⟨l, ?_, hpart⟩
    rw [at_append, hk, Option.bind_some, at_singleton, hl]

/-- A way that passes an array or object twice leads to no place: its second occurrence has no parts. -/
theorem at_of_repeated (hroot : s.Unfolds [] root j) (h : s.Leads root steps above v)
    (hrepeated : ¬ above.Nodup) :
    j.at? steps = none := by
  induction h with
  | here => simp at hrepeated
  | @part steps above v w c i h hcell hpart ih =>
    by_cases habove : above.Nodup
    · have hmem : c ∈ above := by simpa [habove] using hrepeated
      obtain ⟨k, hk, hunfolds⟩ := unfolds_of_leads hroot h habove
      obtain rfl := (circular_iff hunfolds hcell).mpr hmem
      rw [at_append, hk, Option.bind_some, at_singleton]
      rfl
    · rw [at_append, ih habove, Option.bind_none]

end Places

section Cycles

theorem cell_inj {v w : Value} (hv : v.cell? = some c) (hw : w.cell? = some c) : v = w := by
  cases v <;> cases hv
  all_goals
    cases w <;> cases hw
    rfl

/-- Whatever stands above a value leads to it by some steps. -/
theorem leads_from_above (h : s.Leads root steps above v) (hc : c ∈ above) :
    ∃ u front cells back between, s.Leads root front cells u ∧ u.cell? = some c ∧ s.Leads u back between v ∧
      back ≠ [] := by
  induction h with
  | here => cases hc
  | @part steps above v w d i h hcell hpart ih =>
    rcases List.mem_cons.mp hc with rfl | hmem
    · exact ⟨v, steps, above, [i], [c], h, hcell, .part .here hcell hpart, by simp⟩
    · obtain ⟨u, front, cells, back, between, hfront, hu, hback, hne⟩ := ih hmem
      exact ⟨u, front, cells, back ++ [i], d :: between, hfront, hu, .part hback hcell hpart, by simp⟩

theorem noCycle_above (hroot : s.NoCycle root) (h : s.Leads root steps above v) (hcell : v.cell? = some c) :
    c ∉ above := by
  intro hmem
  obtain ⟨u, front, cells, back, between, hfront, hu, hback, hne⟩ := leads_from_above h hmem
  obtain rfl := cell_inj hu hcell
  exact hne (hroot _ _ _ hfront _ _ hback)

theorem noCycle_distinct (hroot : s.NoCycle root) (h : s.Leads root steps above v) : above.Nodup := by
  induction h with
  | here => exact List.nodup_nil
  | part h hcell hpart ih => exact List.nodup_cons.mpr ⟨noCycle_above hroot h hcell, ih⟩

theorem leads_leaf (h : s.Leads root steps above v) (hleaf : root.cell? = none) : steps = [] ∧ v = root := by
  induction h with
  | here => exact ⟨rfl, rfl⟩
  | part h hcell hpart ih =>
    rw [ih.2, hleaf] at hcell
    cases hcell

/-- Each step leads to a lower rank if parts always rank lower. -/
theorem leads_descends {rank : Cell → Nat}
    (hrank : ∀ c v d, v ∈ s.parts c → v.cell? = some d → rank d < rank c)
    (h : s.Leads root steps above v) {d : Cell} (hroot : root.cell? = some c) (hv : v.cell? = some d) :
    rank d + steps.length ≤ rank c := by
  induction h generalizing d with
  | here =>
    cases hroot.symm.trans hv
    simp
  | part h hcell hpart ih =>
    have hfront := ih hcell
    have hlast := hrank _ _ d (List.mem_of_getElem? hpart) hv
    simp
    omega

/-- No cycle can be reached anywhere if the parts of an array or object always rank lower than it does. -/
theorem noCycle_of_rank (rank : Cell → Nat)
    (hrank : ∀ c v d, v ∈ s.parts c → v.cell? = some d → rank d < rank c) (root : Value) :
    s.NoCycle root := by
  intro steps above v _ back cells hback
  cases hcell : v.cell? with
  | none => exact (leads_leaf hback hcell).1
  | some c =>
    have hsame := leads_descends hrank hback hcell hcell
    exact List.length_eq_zero_iff.mp (by omega)

end Cycles

/-- The JSON of a value cuts its cycles and nothing else. It is an unfolding that ends. A way through
different arrays and objects leads to a place of it; what is found there is a replacement if and only if the
array or object there is one of those above it, and otherwise it is shown in full. A way that passes an array
or object twice leads nowhere. If no cycle can be reached, all is shown in full, however much of it is
shared. -/
theorem toJson_cuts_cycles (s : Store) (root : Value) :
    s.Unfolds [] root (s.toJson root) ∧
    (∀ steps above v, s.Leads root steps above v → above.Nodup → ∃ j, (s.toJson root).at? steps = some j ∧
      (∀ c, v.cell? = some c → (j = circular ↔ c ∈ above)) ∧
      ((∀ c ∈ above, v.cell? ≠ some c) → s.ShowsInFull v j)) ∧
    (∀ steps above v, s.Leads root steps above v → ¬ above.Nodup → (s.toJson root).at? steps = none) ∧
    (s.NoCycle root → ∀ steps above v, s.Leads root steps above v →
      ∃ j, (s.toJson root).at? steps = some j ∧ s.ShowsInFull v j) := by
  have hroot := toJson_unfolds s root
  refine ⟨hroot, ?_, ?_, ?_⟩
  · intro steps above v h hdistinct
    obtain ⟨j, hj, hunfolds⟩ := unfolds_of_leads hroot h hdistinct
    exact ⟨j, hj, fun c hcell => circular_iff hunfolds hcell, unfolds_inFull hunfolds⟩
  · intro steps above v h hrepeated
    exact at_of_repeated hroot h hrepeated
  · intro hfree steps above v h
    obtain ⟨j, hj, hunfolds⟩ := unfolds_of_leads hroot h (noCycle_distinct hfree h)
    refine ⟨j, hj, unfolds_inFull hunfolds ?_⟩
    intro c hmem hcell
    exact noCycle_above hfree h hcell hmem

/-- An array that holds another one twice, and itself. -/
def selfHolding : Store :=
  { Store.empty with arrays := #[#[.array 1, .array 1, .array 0], #[.boolean true]] }

/-- An array that holds another one twice. -/
def twiceHolding : Store :=
  { Store.empty with arrays := #[#[.array 1, .array 1], #[.boolean true]] }

theorem twiceHolding_noCycle : twiceHolding.NoCycle (.array 0) := by
  refine noCycle_of_rank (fun c => if c = .array 0 then 1 else 0) ?_ _
  intro c v d hv hd
  cases c with
  | array ref =>
    rcases ref with _ | _ | ref
    · obtain rfl : v = .array 1 := by simpa [twiceHolding, Store.parts, elements] using hv
      cases hd
      simp
    · obtain rfl : v = .boolean true := by simpa [twiceHolding, Store.parts, elements] using hv
      cases hd
    · simp [twiceHolding, Store.parts, elements] at hv
  | object ref => simp [twiceHolding, Store.parts, objectAt, Store.empty, Object.empty] at hv

theorem toJson_cuts_cycles_selfHolding :
    (∃ j, (selfHolding.toJson (.array 0)).at? [0] = some j ∧ selfHolding.ShowsInFull (.array 1) j) ∧
    (∃ j, (selfHolding.toJson (.array 0)).at? [1] = some j ∧ selfHolding.ShowsInFull (.array 1) j) ∧
    (selfHolding.toJson (.array 0)).at? [2] = some circular ∧
    (selfHolding.toJson (.array 0)).at? [2, 0] = none ∧
    (∃ j, (twiceHolding.toJson (.array 0)).at? [1] = some j ∧ twiceHolding.ShowsInFull (.array 1) j) := by
  have hfirst : selfHolding.Leads (.array 0) [0] [.array 0] (.array 1) := .part .here rfl rfl
  have hsecond : selfHolding.Leads (.array 0) [1] [.array 0] (.array 1) := .part .here rfl rfl
  have hitself : selfHolding.Leads (.array 0) [2] [.array 0] (.array 0) := .part .here rfl rfl
  have hagain : selfHolding.Leads (.array 0) [2, 0] [.array 0, .array 0] (.array 1) := .part hitself rfl rfl
  have htwice : twiceHolding.Leads (.array 0) [1] [.array 0] (.array 1) := .part .here rfl rfl
  obtain ⟨_, hplaces, hnowhere, _⟩ := toJson_cuts_cycles selfHolding (.array 0)
  obtain ⟨_, _, _, hfull⟩ := toJson_cuts_cycles twiceHolding (.array 0)
  obtain ⟨j, hj, _, hj'⟩ := hplaces _ _ _ hfirst (by simp)
  obtain ⟨k, hk, _, hk'⟩ := hplaces _ _ _ hsecond (by simp)
  obtain ⟨l, hl, hcut, _⟩ := hplaces _ _ _ hitself (by simp)
  obtain rfl := (hcut (.array 0) rfl).mpr (by simp)
  exact ⟨⟨j, hj, hj' (by simp [Value.cell?])⟩, ⟨k, hk, hk' (by simp [Value.cell?])⟩, hl,
    hnowhere _ _ _ hagain (by simp), hfull twiceHolding_noCycle _ _ _ htwice⟩

end Proofs.Unfolding

end Scriptlet
