import Scriptlet.Program.Tree

namespace Scriptlet

mutual

/-- The numbers in an expression, in order. -/
def Expr.numbers : Expr → List Float
  | .number x => [x]
  | .text _ | .identifier _ => []
  | .array es => Expr.numbersIn es
  | .object ps => Property.numbersIn ps
  | .assign _ value => value.numbers
  | .call callee arguments => callee.numbers ++ Expr.numbersIn arguments
  | .member object key _ none => object.numbers ++ key.numbers
  | .member object key _ (some value) => object.numbers ++ key.numbers ++ value.numbers
  | .boolean left _ right => left.numbers ++ right.numbers
  | .binary left _ right => left.numbers ++ right.numbers
  | .logical left _ _ right => left.numbers ++ right.numbers
  | .not operand => operand.numbers

/-- The numbers in some expressions. -/
def Expr.numbersIn : List Expr → List Float
  | [] => []
  | e :: es => e.numbers ++ Expr.numbersIn es

/-- The numbers in an entry. -/
def Property.numbers : Property → List Float
  | .shorthand _ => []
  | .valued _ value => value.numbers

/-- The numbers in some entries. -/
def Property.numbersIn : List Property → List Float
  | [] => []
  | p :: ps => p.numbers ++ Property.numbersIn ps

end

mutual

/-- The numbers in a statement, function bodies included. -/
def Stmt.numbers : Stmt → List Float
  | .structDecl .. => []
  | .fnDecl _ _ body => Stmt.numbersIn body
  | .ret value => value.numbers
  | .ifThen test body => test.numbers ++ Stmt.numbersIn body
  | .whileDo test body => test.numbers ++ Stmt.numbersIn body
  | .varDecl _ _ value => value.numbers
  | .expr value => value.numbers

/-- The numbers in some statements. -/
def Stmt.numbersIn : List Stmt → List Float
  | [] => []
  | s :: ss => s.numbers ++ Stmt.numbersIn ss

end

/-- The numbers in a program. -/
def Program.numbers (p : Program) : List Float :=
  Stmt.numbersIn p.body

namespace Proofs.TreeRoundTrip
open Json

-- the equations of mutual definitions are made here, once for all proofs below
attribute [local simp] Expr.numbers Expr.numbersIn Property.numbers Property.numbersIn Stmt.numbers
  Stmt.numbersIn Expr.toJson Expr.listToJson Property.toJson Property.listToJson Stmt.toJson
  Stmt.listToJson levels levelsOfItems levelsOfEntries

/-- Every number is finite. -/
def AllFinite (xs : List Float) : Prop :=
  ∀ x ∈ xs, x.isFinite = true

/-- A reading comes to `a` if `P` holds, and to nothing else. -/
def Yields {α : Type} (r : Option α) (P : Prop) (a : α) : Prop :=
  ∀ x, r = some x ↔ P ∧ a = x

section Readings

variable {α β γ δ : Type} {P Q R : Prop}

theorem yields_some (a : α) : Yields (some a) True a := by
  intro x
  simp

theorem yields_bind {r : Option α} {f : α → Option β} {a : α} {b : β} (h : Yields r P a)
    (g : Yields (f a) Q b) : Yields (r.bind f) (P ∧ Q) b := by
  intro x
  unfold Yields at h g
  simp [Option.bind_eq_some_iff, h, g, and_assoc]

/-- What is read for certain adds no condition. -/
theorem yields_choice {r : Option α} {f : α → Option β} {a : α} {b : β} (h : r = some a)
    (g : Yields (f a) P b) : Yields (r.bind f) P b := by
  rw [h]
  exact g

theorem yields_one (f : α → β) {r : Option α} {a : α} (h : Yields r P a) :
    Yields (r.bind fun x => some (f x)) P (f a) := by
  simpa using yields_bind (f := fun x => some (f x)) h (yields_some (f a))

theorem yields_two (f : α → β → γ) {r : Option α} {s : Option β} {a : α} {b : β} (h : Yields r P a)
    (g : Yields s Q b) : Yields (r.bind fun x => s.bind fun y => some (f x y)) (P ∧ Q) (f a b) :=
  yields_bind (f := fun x => s.bind fun y => some (f x y)) h (yields_one (f a) g)

theorem yields_three (f : α → β → γ → δ) {r : Option α} {s : Option β} {t : Option γ} {a : α} {b : β}
    {c : γ} (h : Yields r P a) (g : Yields s Q b) (k : Yields t R c) :
    Yields (r.bind fun x => s.bind fun y => t.bind fun z => some (f x y z)) (P ∧ Q ∧ R) (f a b c) :=
  yields_bind (f := fun x => s.bind fun y => t.bind fun z => some (f x y z)) h (yields_two (f a) g k)

end Readings

theorem allFinite_nil : AllFinite [] := by
  simp [AllFinite]

theorem allFinite_singleton (x : Float) : AllFinite [x] ↔ x.isFinite = true := by
  simp [AllFinite]

theorem allFinite_append (xs ys : List Float) :
    AllFinite (xs ++ ys) ↔ AllFinite xs ∧ AllFinite ys := by
  simp [AllFinite, or_imp, forall_and]

section Parts

/-- Items of a kind that is always read back. -/
theorem mapM_some {α : Type} (read : Json → Option α) (write : α → Json)
    (h : ∀ a, read (write a) = some a) (as : List α) : (as.map write).mapM read = some as := by
  induction as with
  | nil => rfl
  | cons a as ih =>
    rw [List.map_cons, List.mapM_cons, h a, ih]
    rfl

/-- A number that is not finite is written as null, which is no number. -/
theorem float_ofFloat (x : Float) : Yields (ofFloat x).float? (x.isFinite = true) x := by
  intro y
  unfold ofFloat
  split
  · simp_all [float?]
  · simp_all [float?]

theorem choice_boolean (op : BooleanOp) :
    choice? BooleanOp.name BooleanOp.all (.text op.name) = some op := by
  cases op <;> rfl

theorem choice_binary (op : BinaryOp) :
    choice? BinaryOp.name BinaryOp.all (.text op.name) = some op := by
  cases op <;> rfl

theorem choice_logical (op : LogicalOp) :
    choice? LogicalOp.name LogicalOp.all (.text op.name) = some op := by
  cases op <;> rfl

/-- A part that is left out is null, and an expression never is. -/
theorem toJson_object (e : Expr) : ∃ entries, e.toJson = .object entries := by
  cases e with
  | member object key computed assignment => cases assignment <;> simp [node, nodeOf]
  | _ => simp [node, nodeOf]

/-- How an entry of an object literal is read, given how its value is. -/
def property? (read : Json → Option Expr) (item : Json) : Option Property := do
  let parts ← item.record? ["key", "value"]
  let key ← (← part? parts "key").text?
  match part? parts "value" with
  | none | some .null => return .shorthand key
  | some value => return .valued key (← read value)

end Parts

section Expressions

variable {n : Nat}

/-- Expressions of at most `n` levels are read back as their numbers allow. -/
def ExprsReadBack (n : Nat) : Prop :=
  ∀ e : Expr, e.toJson.levels ≤ n → Yields (Expr.ofJsonWithin? n e.toJson) (AllFinite e.numbers) e

theorem exprs_readBack (h : ExprsReadBack n) (es : List Expr) (hn : levelsOfItems (Expr.listToJson es) ≤ n) :
    Yields ((Expr.listToJson es).mapM (Expr.ofJsonWithin? n)) (AllFinite (Expr.numbersIn es)) es := by
  induction es with
  | nil =>
    simp only [Expr.numbersIn, allFinite_nil]
    exact yields_some []
  | cons e es ih =>
    rw [Expr.listToJson, levelsOfItems] at hn
    rw [Expr.listToJson, List.mapM_cons, Expr.numbersIn, allFinite_append]
    exact yields_two List.cons (h e (by omega)) (ih (by omega))

theorem property_readBack (h : ExprsReadBack n) (p : Property) (hn : p.toJson.levels ≤ n) :
    Yields (property? (Expr.ofJsonWithin? n) p.toJson) (AllFinite p.numbers) p := by
  cases p with
  | shorthand key =>
    simp only [Property.numbers, allFinite_nil]
    exact yields_some _
  | valued key value =>
    simp at hn
    have hvalue := h value (by omega)
    obtain ⟨entries, hnode⟩ := toJson_object value
    rw [hnode] at hvalue
    rw [Property.toJson, hnode]
    exact yields_one (Property.valued key) hvalue

theorem properties_readBack (h : ExprsReadBack n) (ps : List Property)
    (hn : levelsOfItems (Property.listToJson ps) ≤ n) :
    Yields ((Property.listToJson ps).mapM (property? (Expr.ofJsonWithin? n)))
      (AllFinite (Property.numbersIn ps)) ps := by
  induction ps with
  | nil =>
    simp only [Property.numbersIn, allFinite_nil]
    exact yields_some []
  | cons p ps ih =>
    rw [Property.listToJson, levelsOfItems] at hn
    rw [Property.listToJson, List.mapM_cons, Property.numbersIn, allFinite_append]
    exact yields_two List.cons (property_readBack h p (by omega)) (ih (by omega))

/-- One case for each kind of node: how it is read, by unfolding, is how its parts are read. -/
theorem expr_readBack (n : Nat) : ExprsReadBack n := by
  induction n with
  | zero =>
    intro e h
    obtain ⟨entries, hnode⟩ := toJson_object e
    simp [hnode] at h
  | succ n ih =>
    intro e h
    cases e with
    | number x =>
      rw [Expr.numbers, allFinite_singleton]
      exact yields_one Expr.number (float_ofFloat x)
    | text s | identifier name =>
      simp only [Expr.numbers, allFinite_nil]
      exact yields_some _
    | array es =>
      simp only [Expr.toJson, node, levels, levelsOfEntries] at h
      rw [Expr.numbers]
      exact yields_one Expr.array (exprs_readBack ih es (by omega))
    | object ps =>
      simp only [Expr.toJson, node, levels, levelsOfEntries] at h
      rw [Expr.numbers]
      exact yields_one Expr.object (properties_readBack ih ps (by omega))
    | assign name value =>
      simp only [Expr.toJson, node, nodeOf, levels, levelsOfEntries] at h
      rw [Expr.numbers]
      exact yields_one (Expr.assign name) (ih value (by omega))
    | call callee arguments =>
      simp only [Expr.toJson, node, nodeOf, levels, levelsOfEntries] at h
      rw [Expr.numbers, allFinite_append]
      exact yields_two Expr.call (ih callee (by omega)) (exprs_readBack ih arguments (by omega))
    | member object key computed assignment =>
      cases assignment with
      | none =>
        simp only [Expr.toJson, node, nodeOf, levels, levelsOfEntries] at h
        rw [Expr.numbers, allFinite_append]
        exact yields_two (fun o k => Expr.member o k computed none) (ih object (by omega)) (ih key (by omega))
      | some value =>
        simp only [Expr.toJson, node, nodeOf, levels, levelsOfEntries] at h
        rw [Expr.numbers, allFinite_append, allFinite_append, and_assoc]
        have hvalue := ih value (by omega)
        obtain ⟨entries, hnode⟩ := toJson_object value
        rw [hnode] at hvalue
        rw [Expr.toJson, hnode]
        exact yields_three (fun o k v => Expr.member o k computed (some v)) (ih object (by omega))
          (ih key (by omega)) hvalue
    | boolean left op right =>
      simp only [Expr.toJson, node, nodeOf, levels, levelsOfEntries] at h
      rw [Expr.numbers, allFinite_append]
      exact yields_choice (choice_boolean op)
        (yields_two (fun l r => Expr.boolean l op r) (ih left (by omega)) (ih right (by omega)))
    | binary left op right =>
      simp only [Expr.toJson, node, nodeOf, levels, levelsOfEntries] at h
      rw [Expr.numbers, allFinite_append]
      exact yields_choice (choice_binary op)
        (yields_two (fun l r => Expr.binary l op r) (ih left (by omega)) (ih right (by omega)))
    | logical left op equals right =>
      simp only [Expr.toJson, node, nodeOf, levels, levelsOfEntries] at h
      rw [Expr.numbers, allFinite_append]
      exact yields_choice (choice_logical op)
        (yields_two (fun l r => Expr.logical l op equals r) (ih left (by omega)) (ih right (by omega)))
    | not operand =>
      simp only [Expr.toJson, node, levels, levelsOfEntries] at h
      rw [Expr.numbers]
      exact yields_one Expr.not (ih operand (by omega))

theorem ofJson_toJson (e : Expr) : Yields (Expr.ofJson? e.toJson) (AllFinite e.numbers) e :=
  expr_readBack e.toJson.levels e (Nat.le_refl _)

end Expressions

section Statements

variable {n : Nat}

/-- Statements of at most `n` levels are read back as their numbers allow. -/
def StmtsReadBack (n : Nat) : Prop :=
  ∀ s : Stmt, s.toJson.levels ≤ n → Yields (Stmt.ofJsonWithin? n s.toJson) (AllFinite s.numbers) s

theorem stmts_readBack (h : StmtsReadBack n) (ss : List Stmt) (hn : levelsOfItems (Stmt.listToJson ss) ≤ n) :
    Yields ((Stmt.listToJson ss).mapM (Stmt.ofJsonWithin? n)) (AllFinite (Stmt.numbersIn ss)) ss := by
  induction ss with
  | nil =>
    simp only [Stmt.numbersIn, allFinite_nil]
    exact yields_some []
  | cons s ss ih =>
    rw [Stmt.listToJson, levelsOfItems] at hn
    rw [Stmt.listToJson, List.mapM_cons, Stmt.numbersIn, allFinite_append]
    exact yields_two List.cons (h s (by omega)) (ih (by omega))

theorem stmt_readBack (n : Nat) : StmtsReadBack n := by
  induction n with
  | zero =>
    intro s h
    cases s <;> simp [node, nodeOf] at h
  | succ n ih =>
    intro s h
    cases s with
    | structDecl name fields =>
      simp only [Stmt.numbers, allFinite_nil]
      exact yields_choice (mapM_some Field.ofJson? Field.toJson (fun _ => rfl) fields) (yields_some _)
    | fnDecl name parameters body =>
      simp only [Stmt.toJson, node, nodeOf, levels, levelsOfEntries] at h
      rw [Stmt.numbers]
      exact yields_choice (mapM_some text? Json.text (fun _ => rfl) parameters)
        (yields_one (Stmt.fnDecl name parameters) (stmts_readBack ih body (by omega)))
    | ret value =>
      rw [Stmt.numbers]
      exact yields_one Stmt.ret (ofJson_toJson value)
    | ifThen test body =>
      simp only [Stmt.toJson, node, nodeOf, levels, levelsOfEntries] at h
      rw [Stmt.numbers, allFinite_append]
      exact yields_two Stmt.ifThen (ofJson_toJson test) (stmts_readBack ih body (by omega))
    | whileDo test body =>
      simp only [Stmt.toJson, node, nodeOf, levels, levelsOfEntries] at h
      rw [Stmt.numbers, allFinite_append]
      exact yields_two Stmt.whileDo (ofJson_toJson test) (stmts_readBack ih body (by omega))
    | varDecl name constant value =>
      rw [Stmt.numbers]
      exact yields_one (Stmt.varDecl name constant) (ofJson_toJson value)
    | expr value =>
      rw [Stmt.numbers]
      exact yields_one Stmt.expr (ofJson_toJson value)

theorem program_readBack (p : Program) :
    Yields (Program.ofJson? p.toJson) (AllFinite p.numbers) p := by
  have hbody := stmts_readBack (stmt_readBack p.toJson.levels) p.body (by
    simp [Program.toJson]
    omega)
  exact yields_one Program.mk hbody

/-- The JSON of a program is faithful: the program is read back from it if and only if all its
numbers are finite, and nothing but the program is ever read. -/
theorem ofJson_toJson_iff (p : Program) :
    (Program.ofJson? p.toJson = some p ↔ ∀ x ∈ p.numbers, x.isFinite = true) ∧
      ∀ q, Program.ofJson? p.toJson = some q → q = p := by
  constructor
  · rw [program_readBack p p]
    exact and_iff_left rfl
  · intro q hq
    exact ((program_readBack p q).mp hq).2.symm

end Statements

end Proofs.TreeRoundTrip

end Scriptlet
