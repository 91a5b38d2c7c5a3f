import Scriptlet.Proofs.GrammarStatements
import Scriptlet.Proofs.StoredCode

namespace Scriptlet

/-- Whether an expression is a name. -/
def Expr.isName : Expr → Bool
  | .identifier _ => true
  | _ => false

mutual

/-- Whether every member in an expression is computed or a name. -/
def Expr.isRegular : Expr → Bool
  | .number _ | .text _ | .identifier _ => true
  | .array es => Expr.areRegular es
  | .object ps => Property.areRegular ps
  | .assign _ value => value.isRegular
  | .call callee arguments => callee.isRegular && Expr.areRegular arguments
  | .member object key computed none => object.isRegular && key.isRegular && (computed || key.isName)
  | .member object key computed (some value) =>
    object.isRegular && key.isRegular && (computed || key.isName) && value.isRegular
  | .boolean left _ right => left.isRegular && right.isRegular
  | .binary left _ right => left.isRegular && right.isRegular
  | .logical left _ _ right => left.isRegular && right.isRegular
  | .not operand => operand.isRegular

/-- Whether some expressions are regular. -/
def Expr.areRegular : List Expr → Bool
  | [] => true
  | e :: es => e.isRegular && Expr.areRegular es

/-- Whether the value of an entry is regular. -/
def Property.isRegular : Property → Bool
  | .shorthand _ => true
  | .valued _ value => value.isRegular

/-- Whether some entries are regular. -/
def Property.areRegular : List Property → Bool
  | [] => true
  | p :: ps => p.isRegular && Property.areRegular ps

end

mutual

/-- Whether every expression in a statement is regular, function bodies included. -/
def Stmt.isRegular : Stmt → Bool
  | .structDecl .. => true
  | .fnDecl _ _ body => Stmt.areRegular body
  | .ret value => value.isRegular
  | .ifThen test body => test.isRegular && Stmt.areRegular body
  | .whileDo test body => test.isRegular && Stmt.areRegular body
  | .varDecl _ _ value => value.isRegular
  | .expr value => value.isRegular

/-- Whether some statements are regular. -/
def Stmt.areRegular : List Stmt → Bool
  | [] => true
  | s :: ss => s.isRegular && Stmt.areRegular ss

end

/-- Whether the code of a task is regular. -/
def Task.isRegular : Task → Bool
  | .eval _ e => e.isRegular
  | .evalAll _ es => Expr.areRegular es
  | .evalProperties _ ps => Property.areRegular ps
  | .evalKey _ e computed => e.isRegular && (computed || e.isName)
  | .execute _ stmt => stmt.isRegular
  | .executeBlock _ stmts | .executeAll _ stmts | .executeBody _ stmts => Stmt.areRegular stmts
  | .loop _ test body => test.isRegular && Stmt.areRegular body
  | .call .. => true

namespace Proofs.RegularTrees
open Grammar

/-- Trees of a nonterminal that are regular. Fields and parameters hold no expressions. -/
def RegularTree : {α : Type} → Symbol α → α → Prop
  | _, .expression, e | _, .logical, e | _, .boolean, e | _, .assignment, e | _, .array, e | _, .object, e
  | _, .additive, e | _, .multiplicative, e | _, .call, e | _, .member, e | _, .chain, e | _, .primary, e =>
    e.isRegular = true
  | _, .list, es => Expr.areRegular es = true
  | _, .entry, p => p.isRegular = true
  | _, .entries, ps => Property.areRegular ps = true
  | _, .fields, _ | _, .parameters, _ => True
  | _, .declarator _, s => s.isRegular = true
  | _, .declarators _, ss | _, .block, ss | _, .statement, ss | _, .statements, ss =>
    Stmt.areRegular ss = true

theorem exists_name {e : Expr} (h : e.isName = true) : ∃ name, e = .identifier name := by
  cases e with
  | identifier name => exact ⟨name, rfl⟩
  | _ => cases h

theorem areRegular_append (ss rest : List Stmt) :
    Stmt.areRegular (ss ++ rest) = (Stmt.areRegular ss && Stmt.areRegular rest) := by
  induction ss with
  | nil => rfl
  | cons s ss ih => simp only [List.cons_append, Stmt.areRegular, ih, Bool.and_assoc]

theorem isRegular_of_mem {ss : List Stmt} (h : Stmt.areRegular ss = true) {s : Stmt} (hs : s ∈ ss) :
    s.isRegular = true := by
  induction ss with
  | nil => cases hs
  | cons first rest ih =>
    obtain ⟨hfirst, hrest⟩ := Bool.and_eq_true_iff.mp h
    rcases List.mem_cons.mp hs with rfl | hmem
    · exact hfirst
    · exact ih hrest hmem

theorem written_regular {target value e : Expr} (h : Reading.Written target value e)
    (htarget : target.isRegular = true) (hvalue : value.isRegular = true) : e.isRegular = true := by
  cases h with
  | assign name value => exact hvalue
  | member object key value computed => exact Bool.and_eq_true_iff.mpr ⟨htarget, hvalue⟩

/-- Whatever the grammar spells is regular: the only members that are not computed follow a dot. -/
theorem derives_regular {α : Type} {s : Symbol α} {w : List Token} {x : α} (h : Derives s w x) :
    RegularTree s x := by
  induction h with
  | write _ _ _ hwritten htarget hvalue => exact written_regular hwritten htarget hvalue
  | memberWrite _ _ _ hwritten htarget hvalue => exact written_regular hwritten htarget hvalue
  | dot _ _ _ hobject => simp_all [RegularTree, Expr.isRegular, Expr.isName]
  | bare => rfl
  | bareReturn => rfl
  | _ =>
    simp_all [RegularTree, Expr.isRegular, Expr.areRegular, Property.isRegular, Property.areRegular,
      Stmt.isRegular, Stmt.areRegular, areRegular_append]

/-- The parser builds regular trees only. -/
theorem parse_regular {tokens : List Token} {p : Program} (h : Program.parse tokens = .ok p) :
    Stmt.areRegular p.body = true := by
  obtain ⟨c, hc⟩ := Reading.parse_ok.mp h
  obtain ⟨w, _, hderives, _⟩ := GrammarStatements.topLevel_sound _ (Nat.le_refl _) hc
  exact derives_regular hderives

theorem part_regular {size : Nat} {t t' : Task} (h : t.Part size t') (ht : t.isRegular = true) :
    t'.isRegular = true := by
  cases h with
  | @target frame object key computed assignment =>
    cases assignment <;> simp_all [Task.isRegular, Expr.isRegular]
  | @key frame object key computed assignment =>
    cases assignment <;> simp_all [Task.isRegular, Expr.isRegular]
  | _ =>
    simp_all [Task.isRegular, Expr.isRegular, Expr.areRegular, Property.isRegular, Property.areRegular,
      Stmt.isRegular, Stmt.areRegular]

theorem regular_inherited : Task.Inherited (·.isRegular = true) where
  parts ht h := part_regular h ht
  body h _ := h

end Proofs.RegularTrees

end Scriptlet
