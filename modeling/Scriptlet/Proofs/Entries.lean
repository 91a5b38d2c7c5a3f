import Scriptlet.Store

namespace Scriptlet

/-- The keys of an object, in the order of their first write. -/
def Object.keys (o : Object) : List String :=
  o.entries.map Prod.fst

/-- An object with more entries written, one after another. -/
def Object.setAll (o : Object) (entries : List (String × Value)) : Object :=
  entries.foldl (fun o e => o.set e.1 e.2) o

namespace Proofs.Entries
open Object

variable {o : Object} {key : String} {v : Value} {entries : List (String × Value)}

section Write

theorem lookup_cons_eq (k l : String) (v : Value) (entries : List (String × Value)) :
    ((l, v) :: entries).lookup k = if k = l then some v else entries.lookup k := by
  rw [List.lookup_cons]
  by_cases hk : k = l
  · simp [hk]
  · rw [beq_eq_false_iff_ne.mpr hk, if_neg hk]

theorem lookup_setEntry (key k : String) (v : Value) (entries : List (String × Value)) :
    (setEntry key v entries).lookup k = if k = key then some v else entries.lookup k := by
  induction entries with
  | nil => exact lookup_cons_eq k key v []
  | cons e es ih =>
    obtain ⟨l, w⟩ := e
    unfold setEntry
    split
    · rename_i hl
      subst hl
      by_cases hk : k = l <;> simp [lookup_cons_eq, hk]
    · rename_i hl
      rw [lookup_cons_eq, lookup_cons_eq, ih]
      by_cases hk : k = l
      · subst hk
        simp [hl]
      · simp [hk]

theorem keys_setEntry (key : String) (v : Value) (entries : List (String × Value)) :
    (setEntry key v entries).map Prod.fst =
      if key ∈ entries.map Prod.fst then entries.map Prod.fst else entries.map Prod.fst ++ [key] := by
  induction entries with
  | nil => simp [setEntry]
  | cons e es ih =>
    obtain ⟨l, w⟩ := e
    unfold setEntry
    split
    · rename_i hl
      simp [hl]
    · rename_i hl
      simp only [List.map_cons, ih, List.mem_cons, Ne.symm hl, false_or]
      split <;> rfl

theorem get?_set (o : Object) (key k : String) (v : Value) :
    (o.set key v).get? k = if k = key then some v else o.get? k :=
  lookup_setEntry key k v o.entries

theorem keys_set (o : Object) (key : String) (v : Value) :
    (o.set key v).keys = if key ∈ o.keys then o.keys else o.keys ++ [key] :=
  keys_setEntry key v o.entries

theorem nodup_keys_set (h : o.keys.Nodup) : (o.set key v).keys.Nodup := by
  rw [keys_set]
  split
  · exact h
  · rename_i hnew
    refine List.nodup_append.mpr ⟨h, by simp, fun k hk l hl heq => hnew ?_⟩
    rwa [← List.mem_singleton.mp hl, ← heq]

/-- A key that is not there is written behind all others. -/
theorem setEntry_new (hnew : key ∉ entries.map Prod.fst) :
    setEntry key v entries = entries ++ [(key, v)] := by
  induction entries with
  | nil => rfl
  | cons e es ih =>
    simp only [List.map_cons, List.mem_cons, not_or] at hnew
    rw [setEntry, if_neg (Ne.symm hnew.1), ih hnew.2, List.cons_append]

end Write

section WriteAll

theorem setAll_cons (o : Object) (e : String × Value) (entries : List (String × Value)) :
    o.setAll (e :: entries) = (o.set e.1 e.2).setAll entries := rfl

theorem nodup_keys_setAll (h : o.keys.Nodup) (entries : List (String × Value)) :
    (o.setAll entries).keys.Nodup := by
  induction entries generalizing o with
  | nil => exact h
  | cons e es ih => exact ih (nodup_keys_set h)

/-- A key shows the value that was written to it last. -/
theorem get?_setAll (o : Object) (entries : List (String × Value)) (k : String) :
    (o.setAll entries).get? k = (entries.reverse.lookup k).or (o.get? k) := by
  induction entries generalizing o with
  | nil => rfl
  | cons e es ih =>
    rw [setAll_cons, ih, get?_set, List.reverse_cons, List.lookup_append, Option.or_assoc, lookup_cons_eq]
    split <;> rfl

theorem eraseDups_of_nodup {keys : List String} (h : keys.Nodup) : keys.eraseDups = keys := by
  induction keys with
  | nil => rfl
  | cons k ks ih =>
    obtain ⟨hk, hks⟩ := List.nodup_cons.mp h
    have hfilter : ks.filter (fun l => !l == k) = ks := by
      apply List.filter_eq_self.mpr
      intro l hl
      simpa using fun heq : l = k => hk (heq ▸ hl)
    rw [List.eraseDups_cons, hfilter, ih hks]

theorem eraseDups_append_seen {keys more : List String} (h : key ∈ keys) :
    (keys ++ key :: more).eraseDups = (keys ++ more).eraseDups := by
  rw [List.eraseDups_append, List.eraseDups_append, List.cons_removeAll, if_neg (by simpa using h)]

/-- Keys come in the order of their first write, each of them once. -/
theorem keys_setAll (h : o.keys.Nodup) (entries : List (String × Value)) :
    (o.setAll entries).keys = (o.keys ++ entries.map Prod.fst).eraseDups := by
  induction entries generalizing o with
  | nil => rw [List.map_nil, List.append_nil, eraseDups_of_nodup h, setAll, List.foldl_nil]
  | cons e es ih =>
    rw [setAll_cons, ih (nodup_keys_set h), keys_set, List.map_cons]
    split
    · rename_i hseen
      rw [eraseDups_append_seen hseen]
    · rw [List.append_assoc, List.singleton_append]

/-- New keys, each written once, are put behind those that are there, with their values. -/
theorem entries_setAll_new (h : (o.keys ++ entries.map Prod.fst).Nodup) :
    (o.setAll entries).entries = o.entries ++ entries := by
  induction entries generalizing o with
  | nil => exact (List.append_nil _).symm
  | cons e es ih =>
    have hnew : e.1 ∉ o.keys := fun hmem => (List.nodup_append.mp h).2.2 e.1 hmem e.1 (by simp) rfl
    have hkeys : (o.set e.1 e.2).keys = o.keys ++ [e.1] := by rw [keys_set, if_neg hnew]
    have hentries : (o.set e.1 e.2).entries = o.entries ++ [e] := setEntry_new hnew
    rw [setAll_cons, ih (by simpa [hkeys] using h), hentries, List.append_assoc, List.singleton_append]

end WriteAll

end Proofs.Entries
end Scriptlet
