import Scriptlet.Program.Parse
import Scriptlet.Proofs.Entries
import Scriptlet.Store.Member
import Scriptlet.Token.Scan

namespace Scriptlet

/-- A value may stand in a field: it is of the kind that the field asks for, or a struct of that name built
it. -/
def Store.Fits (s : Store) (f : Field) (v : Value) : Prop :=
  v.kind.name = f.typeName ∨ s.tagOf v = some f.typeName

/-- There is an argument for every field, and each one fits. -/
def Store.Accepts (s : Store) (fields : List Field) (vs : List Value) : Prop :=
  fields.length ≤ vs.length ∧ ∀ (i : Nat) f v, fields[i]? = some f → vs[i]? = some v → s.Fits f v

/-- What is wrong with the argument for a field, and the fault that says so. -/
inductive Store.Refuses (s : Store) (struct : String) (f : Field) : Option Value → Fault → Prop where
  | missing : s.Refuses struct f none (.missingField struct f.name)
  | wrong {v : Value} (h : ¬ s.Fits f v) :
      s.Refuses struct f (some v) (.mismatch (.wrongField f.name struct f.typeName v.kind (s.display v)))

namespace Proofs.StructFields
open Store Entries

variable {s : Store} {struct : String} {f : Field} {fields : List Field} {v : Value} {vs : List Value}
    {o p : Object}
  {e : Fault}

theorem accepts_nil (vs : List Value) : s.Accepts [] vs :=
  ⟨Nat.zero_le _, fun i f v hf => by simp at hf⟩

theorem not_accepts_nil : ¬ s.Accepts (f :: fields) [] := by
  intro h
  exact absurd h.1 (by simp)

theorem accepts_cons : s.Accepts (f :: fields) (v :: vs) ↔ s.Fits f v ∧ s.Accepts fields vs := by
  constructor
  · rintro ⟨hlength, hfits⟩
    exact ⟨hfits 0 f v rfl rfl, by simpa using hlength, fun i g w hg hw => hfits (i + 1) g w hg hw⟩
  · rintro ⟨hfirst, hlength, hfits⟩
    refine ⟨by simpa using hlength, fun i g w hg hw => ?_⟩
    cases i with
    | zero =>
      cases hg
      cases hw
      exact hfirst
    | succ i => exact hfits i g w hg hw

/-- Binding gives an object exactly if the arguments are accepted: the entries that were there, with one write
for each field. -/
theorem bindFields_ok_iff : s.bindFields struct fields vs o = .ok p ↔ s.Accepts fields vs ∧
    p = { o.setAll ((fields.map Field.name).zip vs) with tag := some struct } := by
  induction fields generalizing vs o with
  | nil =>
    rw [bindFields, Except.ok.injEq, and_iff_right (accepts_nil vs), eq_comm]
    rfl
  | cons f fs ih =>
    cases vs with
    | nil => simp [bindFields, not_accepts_nil]
    | cons v vs =>
      rw [bindFields, accepts_cons]
      split
      · rename_i hfits
        rw [ih, and_iff_right (show s.Fits f v from hfits)]
        rfl
      · rename_i hwrong
        simp [show ¬ s.Fits f v from hwrong]

/-- Binding fails at the first field that has no fitting argument. -/
theorem bindFields_error (h : s.bindFields struct fields vs o = .error e) :
    ∃ (i : Nat) (f : Field), fields[i]? = some f ∧ s.Refuses struct f vs[i]? e ∧
      s.Accepts (fields.take i) (vs.take i) := by
  induction fields generalizing vs o with
  | nil => cases h
  | cons f fs ih =>
    cases vs with
    | nil =>
      cases h
      exact ⟨0, f, rfl, .missing, accepts_nil _⟩
    | cons v vs =>
      rw [bindFields] at h
      split at h
      · rename_i hfits
        obtain ⟨i, g, hg, hrefuses, hbefore⟩ := ih h
        exact ⟨i + 1, g, hg, hrefuses, accepts_cons.mpr ⟨hfits, hbefore⟩⟩
      · rename_i hwrong
        cases h
        exact ⟨0, f, rfl, .wrong hwrong, accepts_nil _⟩

/-- Behind the last pair of a name no pair has that name. -/
theorem zip_split {names : List String} {i : Nat} {k : String} (hk : names[i]? = some k)
    (hv : vs[i]? = some v) (hlast : ∀ j : Nat, names[j]? = some k → j ≤ i) :
    ∃ before after, names.zip vs = before ++ (k, v) :: after ∧ ∀ q ∈ after, k ≠ q.1 := by
  have hpair : (names.zip vs)[i]? = some (k, v) := List.getElem?_zip_eq_some.mpr ⟨hk, hv⟩
  obtain ⟨hi, hget⟩ := List.getElem?_eq_some_iff.mp hpair
  refine ⟨(names.zip vs).take i, (names.zip vs).drop (i + 1), ?_, ?_⟩
  · rw [← hget, List.getElem_cons_drop, List.take_append_drop]
  · intro q hq heq
    obtain ⟨j, hj⟩ := List.mem_iff_getElem?.mp hq
    rw [List.getElem?_drop] at hj
    have hname := (List.getElem?_zip_eq_some.mp hj).1
    have hle := hlast _ (heq ▸ hname)
    omega

/-- The last field of a name shows its own argument. -/
theorem get?_setAll_zip {names : List String} {i : Nat} {k : String} (hk : names[i]? = some k)
    (hv : vs[i]? = some v)
    (hlast : ∀ j : Nat, names[j]? = some k → j ≤ i) : (o.setAll (names.zip vs)).get? k = some v := by
  obtain ⟨before, after, hsplit, hafter⟩ := zip_split hk hv hlast
  have hfound : (names.zip vs).reverse.lookup k = some v :=
    List.lookup_eq_some_iff.mpr ⟨after.reverse, before.reverse, by simp [hsplit], by simpa using hafter⟩
  rw [get?_setAll, hfound, Option.some_or]

theorem getMember_addObject (s : Store) (o : Object) (k : String) :
    (s.addObject o).2.getMember (s.addObject o).1 (.text k) = .ok ((o.get? k).getD .null) := by
  simp [getMember, addObject, objectAt, display]

section Instances

variable {t : StructType}

theorem instantiate_ok_iff : s.instantiate t vs = .ok o ↔ s.Accepts t.fields vs ∧
    o = { Object.empty.setAll ((t.fields.map Field.name).zip vs) with tag := some t.name } :=
  bindFields_ok_iff

theorem keys_instantiate (h : s.instantiate t vs = .ok o) : o.keys = (t.fields.map Field.name).eraseDups := by
  obtain ⟨⟨hlength, _⟩, rfl⟩ := instantiate_ok_iff.mp h
  have hkeys := keys_setAll (o := .empty) List.nodup_nil ((t.fields.map Field.name).zip vs)
  rwa [List.map_fst_zip (by simpa using hlength)] at hkeys

/-- Field by field, an object has the arguments as its entries exactly if no two fields share a name. -/
theorem entries_instantiate_iff (h : s.instantiate t vs = .ok o) :
    o.entries = (t.fields.map Field.name).zip vs ↔ (t.fields.map Field.name).Nodup := by
  obtain ⟨⟨hlength, _⟩, rfl⟩ := instantiate_ok_iff.mp h
  have hnames : ((t.fields.map Field.name).zip vs).map Prod.fst = t.fields.map Field.name :=
    List.map_fst_zip (by simpa using hlength)
  constructor
  · intro hentries
    have hnodup := nodup_keys_setAll (o := .empty) List.nodup_nil ((t.fields.map Field.name).zip vs)
    rwa [Object.keys, hentries, hnames] at hnodup
  · intro hnodup
    exact entries_setAll_new (o := .empty) (hnames.symm ▸ hnodup)

theorem getMember_instantiate {i : Nat} (h : s.instantiate t vs = .ok o) (hf : t.fields[i]? = some f)
    (hlast : ∀ (j : Nat) g, t.fields[j]? = some g → g.name = f.name → j ≤ i) :
    ∃ v, vs[i]? = some v ∧ s.Fits f v ∧
      (s.addObject o).2.getMember (s.addObject o).1 (.text f.name) = .ok v := by
  obtain ⟨⟨hlength, hfits⟩, rfl⟩ := instantiate_ok_iff.mp h
  obtain ⟨hi, _⟩ := List.getElem?_eq_some_iff.mp hf
  have hv : vs[i]? = some vs[i] := List.getElem?_eq_getElem (by omega)
  refine ⟨vs[i], hv, hfits i f _ hf hv, ?_⟩
  have hname : (t.fields.map Field.name)[i]? = some f.name := by simp [hf]
  have hget := get?_setAll_zip (o := .empty) hname hv fun j hj => by
    obtain ⟨g, hg, hgname⟩ := List.getElem?_map.symm.trans hj |> Option.map_eq_some_iff.mp
    exact hlast j g hg hgname
  rw [getMember_addObject]
  exact congrArg (fun x => Except.ok (x.getD Value.null)) hget

end Instances

/-- A struct gives an object exactly if every field has a fitting argument. The object is tagged with the
struct's name, has the field names as keys, each once and in the order of the fields, and the last field of
each name reads as its own argument; the arguments are its entries, field by field, exactly if no two fields
share a name. Otherwise the fault is that of the first field without a fitting argument. -/
theorem instantiate_binds_last_fields (s : Store) (t : StructType) (vs : List Value) :
    ((∃ o, s.instantiate t vs = .ok o) ↔ s.Accepts t.fields vs) ∧
    (∀ o, s.instantiate t vs = .ok o →
      o.tag = some t.name ∧ o.keys = (t.fields.map Field.name).eraseDups ∧
      (o.entries = (t.fields.map Field.name).zip vs ↔ (t.fields.map Field.name).Nodup) ∧
      ∀ (i : Nat) f, t.fields[i]? = some f →
        (∀ (j : Nat) g, t.fields[j]? = some g → g.name = f.name → j ≤ i) →
        ∃ v, vs[i]? = some v ∧ s.Fits f v ∧
          (s.addObject o).2.getMember (s.addObject o).1 (.text f.name) = .ok v) ∧
    ∀ e, s.instantiate t vs = .error e → ∃ (i : Nat) (f : Field), t.fields[i]? = some f ∧
      s.Refuses t.name f vs[i]? e ∧ s.Accepts (t.fields.take i) (vs.take i) := by
  refine ⟨⟨?_, fun h => ⟨_, instantiate_ok_iff.mpr ⟨h, rfl⟩⟩⟩, ?_, ?_⟩
  · rintro ⟨o, ho⟩
    exact (instantiate_ok_iff.mp ho).1
  · intro o ho
    refine ⟨?_, keys_instantiate ho, entries_instantiate_iff ho,
      fun i f hf hlast => getMember_instantiate ho hf hlast⟩
    rw [(instantiate_ok_iff.mp ho).2]
  · intro e he
    exact bindFields_error he

/-- A store with one object, a point. -/
def onePoint : Store :=
  { Store.empty with objects := #[⟨[("x", .number 1), ("y", .number 2)], some "Point"⟩] }

/-- A field for a point, and one for a text. -/
def mark : StructType :=
  ⟨"Mark", [⟨"place", "Point"⟩, ⟨"label", "String"⟩]⟩

theorem instantiate_binds_last_fields_mark :
    (∃ o, onePoint.instantiate mark [.object 0, .text "a", .null] = .ok o ∧ o.tag = some "Mark" ∧
      o.entries = [("place", .object 0), ("label", .text "a")] ∧
      (onePoint.addObject o).2.getMember (onePoint.addObject o).1 (.text "label") = .ok (.text "a")) ∧
    onePoint.instantiate mark [.object 0] = .error (.missingField "Mark" "label") ∧
    ∃ (i : Nat) (f : Field), mark.fields[i]? = some f ∧
      onePoint.Refuses "Mark" f [Value.object 0][i]? (.missingField "Mark" "label") := by
  have haccepts : onePoint.Accepts mark.fields [.object 0, .text "a", .null] :=
    accepts_cons.mpr ⟨.inr rfl, accepts_cons.mpr ⟨.inl rfl, accepts_nil _⟩⟩
  obtain ⟨hgives, hmade, _⟩ := instantiate_binds_last_fields onePoint mark [.object 0, .text "a", .null]
  obtain ⟨o, ho⟩ := hgives.mpr haccepts
  obtain ⟨htag, _, hentries, hread⟩ := hmade o ho
  have hmissing : onePoint.instantiate mark [.object 0] = .error (.missingField "Mark" "label") := by rfl
  refine ⟨⟨o, ho, htag, hentries.mpr (by simp [mark]), ?_⟩, hmissing, ?_⟩
  · obtain ⟨v, hv, _, hget⟩ := hread 1 ⟨"label", "String"⟩ rfl fun j g hg _ => by
      obtain ⟨hj, _⟩ := List.getElem?_eq_some_iff.mp hg
      exact Nat.le_of_lt_succ hj
    cases hv
    exact hget
  · obtain ⟨i, f, hf, hrefuses, _⟩ := (instantiate_binds_last_fields onePoint mark [.object 0]).2.2 _ hmissing
    exact ⟨i, f, hf, hrefuses⟩

/-- A struct with one name for two fields. -/
def twice : StructType :=
  ⟨"P", [⟨"x", "Number"⟩, ⟨"x", "String"⟩]⟩

/-- The tokens of its declaration. -/
def twiceTokens : List Token :=
  [⟨.structWord, "struct", ⟨1, 1⟩⟩, ⟨.identifier, "P", ⟨1, 8⟩⟩, ⟨.openBrace, "\x7b", ⟨1, 10⟩⟩,
    ⟨.identifier, "x", ⟨1, 12⟩⟩, ⟨.colon, ":", ⟨1, 13⟩⟩, ⟨.identifier, "Number", ⟨1, 15⟩⟩,
      ⟨.comma, ",", ⟨1, 21⟩⟩,
    ⟨.identifier, "x", ⟨1, 23⟩⟩, ⟨.colon, ":", ⟨1, 24⟩⟩, ⟨.identifier, "String", ⟨1, 26⟩⟩,
    ⟨.closeBrace, "\x7d", ⟨1, 33⟩⟩, Token.eof ⟨1, 34⟩]

/-- A program may declare a name twice in a struct. Both arguments are asked for and checked, but the object
has one entry, and the first field reads as the argument of the second. -/
theorem repeated_field_loses_argument :
    Token.scan "struct P \x7b x: Number, x: String \x7d" = .ok twiceTokens ∧
    Program.parse twiceTokens = .ok ⟨[.structDecl twice.name twice.fields]⟩ ∧
    ∃ o, Store.empty.instantiate twice [.number 1, .text "a"] = .ok o ∧
      o.entries ≠ (twice.fields.map Field.name).zip [.number 1, .text "a"] ∧
      (Store.empty.addObject o).2.getMember (Store.empty.addObject o).1 (.text "x") = .ok (.text "a") := by
  have hscan : Token.scan "struct P \x7b x: Number, x: String \x7d" = .ok twiceTokens := by rfl
  have hparse : Program.parse twiceTokens = .ok ⟨[.structDecl twice.name twice.fields]⟩ := by rfl
  refine ⟨hscan, hparse, ⟨[("x", .text "a")], some "P"⟩, by rfl, ?_, by rfl⟩
  simp [twice]

end Proofs.StructFields
end Scriptlet
