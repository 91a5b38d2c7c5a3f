import Scriptlet.Proofs.Reading

namespace Scriptlet.Proofs.Reading
open Scriptlet.Program Scriptlet.Program.Parser

variable {α : Type} {c c' : Cursor} {t : Token} {k : Token.Kind}
variable {block : Parser (List Stmt)} {stmt : Stmt} {stmts : List Stmt} {n : Nat}

/-- A comma is passed if it is there. -/
def OptionalComma (c c' : Cursor) : Prop :=
  (∃ t, Past c [t] c' ∧ t.kind = .comma) ∨ c.current.kind ≠ .comma ∧ c' = c

theorem gives_skipComma_bind {f : Parser α} {x : α} :
    Gives (skip .comma >>= fun _ => f) c x c' ↔ ∃ d, OptionalComma c d ∧ Gives f d x c' := by
  rw [gives_skip_bind]
  unfold OptionalComma
  grind

theorem gives_fields_succ {fs : List Field} : Gives (fields (n + 1)) c fs c' ↔
    ((c.current.kind = .closeBrace ∨ c.current.kind = .eof) ∧ fs = [] ∧ c' = c) ∨
    (¬(c.current.kind = .closeBrace ∨ c.current.kind = .eof) ∧ ∃ t d u d₁ v d₂ d₃ others,
      Past c [t] d ∧ t.kind = .identifier ∧ Past d [u] d₁ ∧ u.kind = .colon ∧ Past d₁ [v] d₂ ∧
      v.kind = .identifier ∧ OptionalComma d₂ d₃ ∧ Gives (fields n) d₃ others c' ∧
      fs = ⟨t.text, v.text⟩ :: others) := by
  rw [fields, atEnd]
  simp only [↓gives_sees_bind, ↓gives_expect_bind, ↓gives_skipComma_bind, gives_bind, gives_ite,
    gives_pure, Bool.or_eq_true, beq_iff_eq]
  grind

theorem gives_structDeclaration : Gives structDeclaration c stmt c' ↔
    ∃ t d u d₁ v d₂ fs d₃ w, Past c [t] d ∧ t.kind = .structWord ∧ Past d [u] d₁ ∧
      u.kind = .identifier ∧ Past d₁ [v] d₂ ∧ v.kind = .openBrace ∧
      Gives (fields d₂.rest.length) d₂ fs d₃ ∧ fs ≠ [] ∧ Past d₃ [w] c' ∧ w.kind = .closeBrace ∧
      stmt = .structDecl u.text fs := by
  unfold structDeclaration
  simp only [↓gives_expect_bind, ↓gives_remaining_bind, gives_bind, gives_ite, gives_pure,
    gives_failHere, List.isEmpty_iff, and_false, false_or]
  grind

theorem gives_initializer {e : Expr} : Gives initializer c e c' ↔
    (∃ t d, Past c [t] d ∧ t.kind = .equals ∧ Gives expression d e c') ∨
    c.current.kind ≠ .equals ∧ e = .omitted ∧ c' = c := by
  unfold initializer
  simp only [↓gives_skip_bind, gives_ite, gives_pure]
  grind

theorem gives_declarations_succ {constant : Bool} :
    Gives (declarations constant (n + 1)) c stmts c' ↔
    ∃ t d value d₁, Past c [t] d ∧ t.kind = .identifier ∧ Gives initializer d value d₁ ∧
      ((∃ u d₂ others, Past d₁ [u] d₂ ∧ u.kind = .comma ∧
          Gives (declarations constant n) d₂ others c' ∧
          stmts = .varDecl t.text constant value :: others) ∨
        d₁.current.kind ≠ .comma ∧ stmts = [.varDecl t.text constant value] ∧ c' = d₁) := by
  rw [declarations]
  simp only [↓gives_expect_bind, ↓gives_skip_bind, gives_bind, gives_ite, gives_pure]
  grind

theorem gives_parameters_succ {names : List String} : Gives (parameters (n + 1)) c names c' ↔
    ((c.current.kind = .closeParen ∨ c.current.kind = .eof) ∧ names = [] ∧ c' = c) ∨
    (¬(c.current.kind = .closeParen ∨ c.current.kind = .eof) ∧ ∃ t d d₁ others,
      Past c [t] d ∧ t.kind = .identifier ∧ OptionalComma d d₁ ∧
      Gives (parameters n) d₁ others c' ∧ names = t.text :: others) := by
  rw [parameters, atEnd]
  simp only [↓gives_sees_bind, ↓gives_expect_bind, ↓gives_skipComma_bind, gives_bind, gives_ite,
    gives_pure, Bool.or_eq_true, beq_iff_eq]
  grind

theorem gives_functionDeclaration : Gives (functionDeclaration block) c stmt c' ↔
    ∃ t d u d₁ v d₂ names d₃ w d₄ body, Past c [t] d ∧ t.kind = .fnWord ∧ Past d [u] d₁ ∧
      u.kind = .identifier ∧ Past d₁ [v] d₂ ∧ v.kind = .openParen ∧
      Gives (parameters d₂.rest.length) d₂ names d₃ ∧ Past d₃ [w] d₄ ∧ w.kind = .closeParen ∧
      Gives block d₄ body c' ∧ stmt = .fnDecl u.text names body := by
  unfold functionDeclaration
  simp only [↓gives_expect_bind, ↓gives_remaining_bind, gives_bind, gives_pure]
  grind

theorem gives_returnStatement : Gives returnStatement c stmt c' ↔
    ∃ t d, Past c [t] d ∧ t.kind = .returnWord ∧
      (d.current.kind ∈ [.closeBrace, .semicolon, .eof] ∧ stmt = .ret .omitted ∧ c' = d ∨
        d.current.kind ∉ [.closeBrace, .semicolon, .eof] ∧
          ∃ value, Gives expression d value c' ∧ stmt = .ret value) := by
  unfold returnStatement
  simp only [↓gives_expect_bind, ↓gives_peek_bind]
  refine exists_congr fun t => exists_congr fun d => and_congr_right fun _ =>
    and_congr_right fun _ => ?_
  cases d.current.kind
  all_goals simp only [gives_bind, gives_pure]
  all_goals grind

theorem gives_condition {test : Expr} : Gives condition c test c' ↔
    ∃ t d d₁ u, Past c [t] d ∧ t.kind = .openParen ∧ Gives expression d test d₁ ∧
      Past d₁ [u] c' ∧ u.kind = .closeParen := by
  unfold condition
  simp only [↓gives_expect_bind, gives_bind, gives_pure]
  grind

theorem gives_ifStatement : Gives (ifStatement block) c stmt c' ↔
    ∃ t d test d₁ body, Past c [t] d ∧ t.kind = .ifWord ∧ Gives condition d test d₁ ∧
      Gives block d₁ body c' ∧ stmt = .ifThen test body := by
  unfold ifStatement
  simp only [↓gives_expect_bind, gives_bind, gives_pure]
  grind

theorem gives_whileStatement : Gives (whileStatement block) c stmt c' ↔
    ∃ t d test d₁ body, Past c [t] d ∧ t.kind = .whileWord ∧ Gives condition d test d₁ ∧
      Gives block d₁ body c' ∧ stmt = .whileDo test body := by
  unfold whileStatement
  simp only [↓gives_expect_bind, gives_bind, gives_pure]
  grind

/-- The kinds of tokens that begin no expression statement. -/
def reserved : List Token.Kind :=
  [.closeBrace, .eof, .classWord, .forWord, .structWord, .letWord, .constWord, .whileWord, .fnWord,
    .returnWord, .ifWord]

/-- What one statement of the source gives, its semicolons passed. -/
inductive StatementStep (block : Parser (List Stmt)) : Cursor → List Stmt → Cursor → Prop where
  | nothing {c : Cursor} (hk : c.current.kind = .closeBrace ∨ c.current.kind = .eof) :
      StatementStep block c [] c
  | struct {c c' : Cursor} {stmt : Stmt} (hk : c.current.kind = .structWord)
      (h : Gives structDeclaration c stmt c') : StatementStep block c [stmt] c'
  | letOne {c d c' : Cursor} {t : Token} {stmts : List Stmt} (ht : Past c [t] d)
      (hk : t.kind = .letWord) (h : Gives (declarations false (d.rest.length + 1)) d stmts c') :
      StatementStep block c stmts c'
  | constOne {c d c' : Cursor} {t : Token} {stmts : List Stmt} (ht : Past c [t] d)
      (hk : t.kind = .constWord) (h : Gives (declarations true (d.rest.length + 1)) d stmts c') :
      StatementStep block c stmts c'
  | whileOne {c c' : Cursor} {stmt : Stmt} (hk : c.current.kind = .whileWord)
      (h : Gives (whileStatement block) c stmt c') : StatementStep block c [stmt] c'
  | function {c c' : Cursor} {stmt : Stmt} (hk : c.current.kind = .fnWord)
      (h : Gives (functionDeclaration block) c stmt c') : StatementStep block c [stmt] c'
  | returned {c c' : Cursor} {stmt : Stmt} (hk : c.current.kind = .returnWord)
      (h : Gives returnStatement c stmt c') : StatementStep block c [stmt] c'
  | ifOne {c c' : Cursor} {stmt : Stmt} (hk : c.current.kind = .ifWord)
      (h : Gives (ifStatement block) c stmt c') : StatementStep block c [stmt] c'
  | plain {c c' : Cursor} {e : Expr} (hk : c.current.kind ∉ reserved)
      (h : Gives expression c e c') : StatementStep block c [.expr e] c'

theorem gives_statementWith : Gives (statementWith block) c stmts c' ↔
    StatementStep block { c with rest := c.rest.dropWhile fun t => t.kind == .semicolon } stmts c' := by
  unfold statementWith semicolons
  rw [gives_bind]
  simp only [gives_modify, exists_eq_left, exists_const]
  generalize { c with rest := c.rest.dropWhile fun t => t.kind == Token.Kind.semicolon } = d
  rw [gives_peek_bind]
  constructor
  · intro h
    split at h
    all_goals simp only [↓gives_eat_bind, ↓gives_remaining_bind, gives_bind, gives_pure,
      gives_failHere] at h
    · rename_i hk
      obtain ⟨rfl, rfl⟩ := h
      exact .nothing (.inl hk)
    · rename_i hk
      obtain ⟨rfl, rfl⟩ := h
      exact .nothing (.inr hk)
    · rename_i hk
      obtain ⟨_, _, h, rfl, rfl⟩ := h
      exact .struct hk h
    · rename_i hk
      obtain ⟨t, _, ht, h⟩ := h
      exact .letOne ht (ht.current_eq ▸ hk) h
    · rename_i hk
      obtain ⟨t, _, ht, h⟩ := h
      exact .constOne ht (ht.current_eq ▸ hk) h
    · rename_i hk
      obtain ⟨_, _, h, rfl, rfl⟩ := h
      exact .whileOne hk h
    · rename_i hk
      obtain ⟨_, _, h, rfl, rfl⟩ := h
      exact .function hk h
    · rename_i hk
      obtain ⟨_, _, h, rfl, rfl⟩ := h
      exact .returned hk h
    · rename_i hk
      obtain ⟨_, _, h, rfl, rfl⟩ := h
      exact .ifOne hk h
    · obtain ⟨_, _, h, rfl, rfl⟩ := h
      exact .plain (by simp only [reserved, List.mem_cons, List.not_mem_nil, or_false]; grind) h
  · intro h
    cases h with
    | nothing hk =>
      rcases hk with hk | hk
      all_goals
        simp only [hk]
        exact gives_pure.mpr ⟨rfl, rfl⟩
    | letOne ht hk h | constOne ht hk h =>
      rw [ht.current_eq, hk]
      simp only [↓gives_eat_bind, ↓gives_remaining_bind]
      exact ⟨_, _, ht, h⟩
    | plain hk h =>
      simp only [reserved] at hk
      split
      all_goals try simp_all only [List.mem_cons, true_or, or_true, not_true_eq_false]
      simp only [gives_bind, gives_pure]
      exact ⟨_, _, h, rfl, rfl⟩
    | struct hk h | whileOne hk h | function hk h | returned hk h | ifOne hk h =>
      rw [hk]
      simp only [gives_bind, gives_pure]
      exact ⟨_, _, h, rfl, rfl⟩

theorem gives_statements_succ {statement : Parser (List Stmt)} :
    Gives (statements statement (n + 1)) c stmts c' ↔
    ((c.current.kind = .closeBrace ∨ c.current.kind = .eof) ∧ stmts = [] ∧ c' = c) ∨
    (¬(c.current.kind = .closeBrace ∨ c.current.kind = .eof) ∧ ∃ first d others,
      Gives statement c first d ∧ Gives (statements statement n) d others c' ∧
      stmts = first ++ others) := by
  rw [statements, atEnd]
  simp only [↓gives_sees_bind, gives_bind, gives_ite, gives_pure, Bool.or_eq_true, beq_iff_eq]
  grind

theorem gives_blockOf {statement : Parser (List Stmt)} : Gives (blockOf statement) c stmts c' ↔
    c.depth < maxNesting ∧ ∃ t d d₁ u d₂, Past { c with depth := c.depth + 1 } [t] d ∧
      t.kind = .openBrace ∧ Gives (statements statement d.rest.length) d stmts d₁ ∧
      Past d₁ [u] d₂ ∧ u.kind = .closeBrace ∧ c' = { d₂ with depth := d₂.depth - 1 } := by
  unfold blockOf
  rw [gives_nested]
  simp only [↓gives_expect_bind, ↓gives_remaining_bind, gives_bind, gives_pure]
  grind

theorem gives_topLevel_succ : Gives (topLevel (n + 1)) c stmts c' ↔
    (c.current.kind = .eof ∧ stmts = [] ∧ c' = c) ∨
    (c.current.kind ≠ .eof ∧ c.current.kind ≠ .closeBrace ∧ ∃ first d others,
      Gives statement c first d ∧ Gives (topLevel n) d others c' ∧ stmts = first ++ others) := by
  rw [topLevel]
  simp only [↓gives_peek_bind, gives_bind, gives_ite, gives_pure, gives_failAt]
  grind

/-- A program is what the readers give from the first token on. -/
theorem parse_ok {tokens : List Token} {p : Program} : parse tokens = .ok p ↔
    ∃ c, Gives (topLevel (Cursor.ofTokens tokens).rest.length) (Cursor.ofTokens tokens) p.body c := by
  unfold parse Gives
  cases h : (topLevel (Cursor.ofTokens tokens).rest.length).run (Cursor.ofTokens tokens) with
  | error e => simp [h]
  | ok r =>
    obtain ⟨body, c⟩ := r
    obtain ⟨stmts⟩ := p
    simp [h]

end Scriptlet.Proofs.Reading
