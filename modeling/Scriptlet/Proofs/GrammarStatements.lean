import Scriptlet.Proofs.GrammarSound
import Scriptlet.Proofs.ReadingStatements

namespace Scriptlet.Proofs.GrammarStatements
open Scriptlet.Program Scriptlet.Program.Parser Reading Grammar GrammarSound

theorem optionalComma_sound {c c' : Cursor} (h : OptionalComma c c') : ∃ w, Past c w c' ∧ Comma w := by
  rcases h with ⟨t, ht, hk⟩ | ⟨_, rfl⟩
  · exact ⟨[t], ht, .inr ⟨t, rfl, hk⟩⟩
  · exact ⟨[], .refl _, .inl rfl⟩

theorem fields_sound (n : Nat) : Sound (fields n) .fields := by
  induction n with
  | zero =>
    intro c fs c' h
    obtain ⟨rfl, rfl⟩ := gives_pure.mp h
    exact ⟨[], .refl _, .noFields⟩
  | succ n ih =>
    intro c fs c' h
    rcases gives_fields_succ.mp h with ⟨_, rfl, rfl⟩ |
      ⟨_, t, d, u, d₁, v, d₂, d₃, others, ht, hk, hu, huk, hv, hvk, hcomma, hothers, rfl⟩
    · exact ⟨[], .refl _, .noFields⟩
    · obtain ⟨k, hpast, hcomma⟩ := optionalComma_sound hcomma
      obtain ⟨w, hw, hd⟩ := ih _ _ _ hothers
      have hword := (((ht.trans hu).trans hv).trans hpast).trans hw
      exact ⟨_, hword, .moreFields hk huk hvk hcomma hd⟩

theorem parameters_sound (n : Nat) : Sound (parameters n) .parameters := by
  induction n with
  | zero =>
    intro c names c' h
    obtain ⟨rfl, rfl⟩ := gives_pure.mp h
    exact ⟨[], .refl _, .noParameters⟩
  | succ n ih =>
    intro c names c' h
    rcases gives_parameters_succ.mp h with ⟨_, rfl, rfl⟩ |
      ⟨_, t, d, d₁, others, ht, hk, hcomma, hothers, rfl⟩
    · exact ⟨[], .refl _, .noParameters⟩
    · obtain ⟨k, hpast, hcomma⟩ := optionalComma_sound hcomma
      obtain ⟨w, hw, hd⟩ := ih _ _ _ hothers
      exact ⟨_, (ht.trans hpast).trans hw, .moreParameters hk hcomma hd⟩

/-- One declared name with what it starts as. -/
theorem declarator_sound (constant : Bool) {c d c' : Cursor} {t : Token} {value : Expr}
    (ht : Past c [t] d) (hk : t.kind = .identifier) (h : Gives initializer d value c') :
    ∃ w, Past c w c' ∧ Derives (.declarator constant) w (.varDecl t.text constant value) := by
  rcases gives_initializer.mp h with ⟨u, d', hu, huk, hvalue⟩ | ⟨_, rfl, rfl⟩
  · obtain ⟨w, hw, hd⟩ := expression_sound _ _ _ hvalue
    exact ⟨_, (ht.trans hu).trans hw, .initialized hk huk hd⟩
  · exact ⟨_, ht, .bare hk⟩

theorem declarations_sound {constant : Bool} (n : Nat) {stmts : List Stmt} {c c' : Cursor}
    (hn : c.rest.length < n) (h : Gives (declarations constant n) c stmts c') :
    ∃ w, Past c w c' ∧ Derives (.declarators constant) w stmts := by
  induction n generalizing stmts c with
  | zero => omega
  | succ n ih =>
    obtain ⟨t, d, value, d₁, ht, hk, hvalue, h⟩ := gives_declarations_succ.mp h
    obtain ⟨u, hu, hdecl⟩ := declarator_sound constant ht hk hvalue
    rcases h with ⟨v, d₂, others, hv, hvk, hothers, rfl⟩ | ⟨_, rfl, rfl⟩
    · have hlength := hu.length_eq
      have hcomma := hv.length_eq
      rw [List.length_singleton] at hcomma
      obtain ⟨w, hw, hrest⟩ := ih (by omega) hothers
      exact ⟨_, (hu.trans hv).trans hw, .moreDeclarators hdecl hvk hrest⟩
    · exact ⟨u, hu, .lastDeclarator hdecl⟩

theorem structDeclaration_sound {c c' : Cursor} {stmt : Stmt} (h : Gives structDeclaration c stmt c') :
    ∃ w, Past c w c' ∧ Derives .statement w [stmt] := by
  obtain ⟨t, d, u, d₁, v, d₂, fs, d₃, x, ht, hk, hu, huk, hv, hvk, hfs, hne, hx, hxk, rfl⟩ :=
    gives_structDeclaration.mp h
  obtain ⟨w, hw, hd⟩ := fields_sound _ _ _ _ hfs
  exact ⟨_, (((ht.trans hu).trans hv).trans hw).trans hx, .structDecl hk huk hvk hd hne hxk⟩

theorem returnStatement_sound {c c' : Cursor} {stmt : Stmt} (h : Gives returnStatement c stmt c') :
    ∃ w, Past c w c' ∧ Derives .statement w [stmt] := by
  obtain ⟨t, d, ht, hk, h⟩ := gives_returnStatement.mp h
  rcases h with ⟨_, rfl, rfl⟩ | ⟨_, value, hvalue, rfl⟩
  · exact ⟨_, ht, .bareReturn hk⟩
  · obtain ⟨w, hw, hd⟩ := expression_sound _ _ _ hvalue
    exact ⟨_, ht.trans hw, .returnOf hk hd⟩

theorem semicolons_past (c : Cursor) :
    ∃ u, Past c u { c with rest := c.rest.dropWhile fun t => t.kind == .semicolon } ∧
      ∀ t ∈ u, t.kind = .semicolon := by
  refine ⟨c.rest.takeWhile fun t => t.kind == .semicolon, .of_rest ?_, ?_⟩
  · rw [List.takeWhile_append_dropWhile]
  · intro t ht
    simpa using List.all_eq_true.mp List.all_takeWhile t ht

theorem derives_semicolons {u w : List Token} {ss : List Stmt} (hu : ∀ t ∈ u, t.kind = .semicolon)
    (h : Derives .statements w ss) : Derives .statements (u ++ w) ss := by
  induction u with
  | nil => exact h
  | cons t u ih =>
    exact .semicolon (hu t List.mem_cons_self) (ih fun t' ht' => hu t' (List.mem_cons_of_mem _ ht'))

/-- The nonterminals with an empty word. -/
def Nullable {α : Type} : Symbol α → Bool
  | .entries | .fields | .parameters | .statements => true
  | _ => false

theorem derives_ne_nil {α : Type} {s : Symbol α} {w : List Token} {x : α} (h : Derives s w x)
    (hs : Nullable s = false) : w ≠ [] := by
  induction h <;> simp_all [Nullable]

/-- A reader of one statement: what it takes goes in front of any other statements, and it takes
nothing only where there is none. -/
def Leading (p : Parser (List Stmt)) : Prop :=
  ∀ c first c', Gives p c first c' → ∃ u, Past c u c' ∧
    (u = [] → c.current.kind = .closeBrace ∨ c.current.kind = .eof) ∧
    ∀ w rest, Derives .statements w rest → Derives .statements (u ++ w) (first ++ rest)

section Blocks

variable {block : Parser (List Stmt)}

theorem functionDeclaration_sound (hblock : Sound block .block) {c c' : Cursor} {stmt : Stmt}
    (h : Gives (functionDeclaration block) c stmt c') :
    ∃ w, Past c w c' ∧ Derives .statement w [stmt] := by
  obtain ⟨t, d, u, d₁, v, d₂, names, d₃, x, d₄, body, ht, hk, hu, huk, hv, hvk, hnames, hx, hxk,
    hbody, rfl⟩ := gives_functionDeclaration.mp h
  obtain ⟨w, hw, hp⟩ := parameters_sound _ _ _ _ hnames
  obtain ⟨b, hb, hd⟩ := hblock _ _ _ hbody
  exact ⟨_, ((((ht.trans hu).trans hv).trans hw).trans hx).trans hb, .fnDecl hk huk hvk hp hxk hd⟩

/-- A condition in its parentheses and the block behind it. -/
theorem guarded_sound (hblock : Sound block .block) {c d c' : Cursor} {test : Expr}
    {body : List Stmt} (htest : Gives condition c test d) (hbody : Gives block d body c') :
    ∃ t u w b, Past c ([t] ++ w ++ [u] ++ b) c' ∧ t.kind = .openParen ∧ u.kind = .closeParen ∧
      Derives .expression w test ∧ Derives .block b body := by
  obtain ⟨t, d₁, d₂, u, ht, hk, htest, hu, huk⟩ := gives_condition.mp htest
  obtain ⟨w, hw, he⟩ := expression_sound _ _ _ htest
  obtain ⟨b, hb, hd⟩ := hblock _ _ _ hbody
  exact ⟨t, u, w, b, ((ht.trans hw).trans hu).trans hb, hk, huk, he, hd⟩

theorem ifStatement_sound (hblock : Sound block .block) {c c' : Cursor} {stmt : Stmt}
    (h : Gives (ifStatement block) c stmt c') : ∃ w, Past c w c' ∧ Derives .statement w [stmt] := by
  obtain ⟨t, d, test, d₁, body, ht, hk, htest, hbody, rfl⟩ := gives_ifStatement.mp h
  obtain ⟨u, v, w, b, hw, huk, hvk, he, hd⟩ := guarded_sound hblock htest hbody
  exact ⟨_, ht.trans hw, .ifThen hk huk he hvk hd⟩

theorem whileStatement_sound (hblock : Sound block .block) {c c' : Cursor} {stmt : Stmt}
    (h : Gives (whileStatement block) c stmt c') : ∃ w, Past c w c' ∧ Derives .statement w [stmt] := by
  obtain ⟨t, d, test, d₁, body, ht, hk, htest, hbody, rfl⟩ := gives_whileStatement.mp h
  obtain ⟨u, v, w, b, hw, huk, hvk, he, hd⟩ := guarded_sound hblock htest hbody
  exact ⟨_, ht.trans hw, .whileDo hk huk he hvk hd⟩

/-- Past its semicolons, a statement is nothing before a brace or the end, or a word of its own. -/
theorem statementStep_sound (hblock : Sound block .block) {c c' : Cursor} {stmts : List Stmt}
    (h : StatementStep block c stmts c') :
    (c.current.kind = .closeBrace ∨ c.current.kind = .eof) ∧ stmts = [] ∧ c' = c ∨
      ∃ w, Past c w c' ∧ Derives .statement w stmts := by
  cases h with
  | nothing hk => exact .inl ⟨hk, rfl, rfl⟩
  | struct _ h => exact .inr (structDeclaration_sound h)
  | letOne ht hk h =>
    obtain ⟨w, hw, hd⟩ := declarations_sound _ (Nat.lt_succ_self _) h
    exact .inr ⟨_, ht.trans hw, .letDecl hk hd⟩
  | constOne ht hk h =>
    obtain ⟨w, hw, hd⟩ := declarations_sound _ (Nat.lt_succ_self _) h
    exact .inr ⟨_, ht.trans hw, .constDecl hk hd⟩
  | whileOne _ h => exact .inr (whileStatement_sound hblock h)
  | function _ h => exact .inr (functionDeclaration_sound hblock h)
  | returned _ h => exact .inr (returnStatement_sound h)
  | ifOne _ h => exact .inr (ifStatement_sound hblock h)
  | plain _ h =>
    obtain ⟨w, hw, hd⟩ := expression_sound _ _ _ h
    exact .inr ⟨w, hw, .plain hd⟩

theorem statementWith_leading (hblock : Sound block .block) : Leading (statementWith block) := by
  intro c first c' h
  obtain ⟨s, hs, hsemi⟩ := semicolons_past c
  rcases statementStep_sound hblock (gives_statementWith.mp h) with ⟨hk, rfl, rfl⟩ | ⟨v, hv, hd⟩
  · refine ⟨s, hs, ?_, fun w rest hw => derives_semicolons hsemi hw⟩
    rintro rfl
    rw [hs]
    exact hk
  · refine ⟨s ++ v, hs.trans hv, ?_, fun w rest hw => ?_⟩
    · intro hnil
      exact (derives_ne_nil hd rfl (List.append_eq_nil_iff.mp hnil).2).elim
    · rw [List.append_assoc]
      exact derives_semicolons hsemi (.moreStatements hd hw)

theorem statements_sound {statement : Parser (List Stmt)} (hstatement : Leading statement) (n : Nat) :
    Sound (statements statement n) .statements := by
  induction n with
  | zero =>
    intro c stmts c' h
    obtain ⟨rfl, rfl⟩ := gives_pure.mp h
    exact ⟨[], .refl _, .noStatements⟩
  | succ n ih =>
    intro c stmts c' h
    rcases gives_statements_succ.mp h with ⟨_, rfl, rfl⟩ | ⟨_, first, d, others, hfirst, hothers, rfl⟩
    · exact ⟨[], .refl _, .noStatements⟩
    · obtain ⟨u, hu, _, hfront⟩ := hstatement _ _ _ hfirst
      obtain ⟨w, hw, hd⟩ := ih _ _ _ hothers
      exact ⟨_, hu.trans hw, hfront _ _ hd⟩

theorem blockOf_sound {statement : Parser (List Stmt)} (hstatement : Leading statement) :
    Sound (blockOf statement) .block := by
  apply nested_sound
  intro c stmts c' h
  simp only [gives_bind, gives_expect, gives_remaining, gives_pure] at h
  obtain ⟨t, d, ⟨ht, hk⟩, _, _, ⟨rfl, rfl⟩, body, d₁, hbody, u, _, ⟨hu, huk⟩, rfl, rfl⟩ := h
  obtain ⟨w, hw, hd⟩ := statements_sound hstatement _ _ _ _ hbody
  exact ⟨_, (ht.trans hw).trans hu, .blockOf hk hd huk⟩

theorem statementWithin_leading (n : Nat) : Leading (statementWithin n) := by
  induction n with
  | zero =>
    intro c first c' h
    exact (gives_failHere.mp h).elim
  | succ n ih => exact statementWith_leading (blockOf_sound ih)

end Blocks

/-- The count of the outermost loop does not run out: every turn takes a token. -/
theorem topLevel_sound (n : Nat) {stmts : List Stmt} {c c' : Cursor} (hn : c.rest.length ≤ n)
    (h : Gives (topLevel n) c stmts c') :
    ∃ w, Past c w c' ∧ Derives .statements w stmts ∧ (c'.rest = [] ∨ c'.current.kind = .eof) := by
  induction n generalizing stmts c with
  | zero =>
    obtain ⟨rfl, rfl⟩ := gives_pure.mp h
    exact ⟨[], .refl _, .noStatements, .inl (List.length_eq_zero_iff.mp (Nat.le_zero.mp hn))⟩
  | succ n ih =>
    rcases gives_topLevel_succ.mp h with ⟨hk, rfl, rfl⟩ |
      ⟨heof, hbrace, first, d, others, hfirst, hothers, rfl⟩
    · exact ⟨[], .refl _, .noStatements, .inr hk⟩
    · obtain ⟨u, hu, htake, hfront⟩ := statementWithin_leading _ _ _ _ hfirst
      have hpos : 0 < u.length := by
        rw [List.length_pos_iff]
        intro hnil
        exact (htake hnil).elim hbrace heof
      have hlength := hu.length_eq
      obtain ⟨w, hw, hd, hend⟩ := ih (by omega) hothers
      exact ⟨_, hu.trans hw, hfront _ _ hd, hend⟩

/-- The parser accepts only its grammar: a program is the tree of the whole word of tokens before
the end, none of them dropped and none made up. -/
theorem parse_derives (tokens : List Token) (p : Program) (h : parse tokens = .ok p) :
    Derives .statements (tokens.takeWhile fun t => t.kind ≠ .eof) p.body := by
  obtain ⟨c, hc⟩ := parse_ok.mp h
  obtain ⟨w, hw, hd, hend⟩ := topLevel_sound _ (Nat.le_refl _) hc
  have hword : tokens.takeWhile (fun t => t.kind ≠ .eof) = w ++ c.rest := hw.rest_eq
  cases hrest : c.rest with
  | nil =>
    rw [hword, hrest, List.append_nil]
    exact hd
  | cons t ts =>
    -- the last turn saw the end, yet a token before the end is left
    have hmem : t ∈ tokens.takeWhile fun t => t.kind ≠ .eof := by
      rw [hword, hrest]
      exact List.mem_append_right _ List.mem_cons_self
    have hne := List.all_eq_true.mp List.all_takeWhile t hmem
    simp only [Cursor.current, hrest, List.headD_cons, reduceCtorEq, false_or] at hend
    simp only [hend, ne_eq, not_true_eq_false, decide_false, Bool.false_eq_true] at hne

/-- `while (a < b) { ; a.k = x - y - z } f ()`, with a token behind the end. -/
def loopAndCallTokens : List Token :=
  [(.whileWord, "while"), (.openParen, "("), (.identifier, "a"), (.logicalOperator, "<"),
    (.identifier, "b"), (.closeParen, ")"), (.openBrace, "\x7b"), (.semicolon, ";"), (.identifier, "a"),
    (.dot, "."), (.identifier, "k"), (.equals, "="), (.identifier, "x"), (.binaryOperator, "-"),
    (.identifier, "y"), (.binaryOperator, "-"), (.identifier, "z"), (.closeBrace, "\x7d"),
    (.identifier, "f"), (.openParen, "("), (.closeParen, ")"), (.eof, "EOF"),
    (.dot, ".")].map fun (k, s) => Token.mk k s .start

@[match_pattern]
def loopAndCall : Program :=
  ⟨[.whileDo (.logical (.identifier "a") .less false (.identifier "b"))
      [.expr (.member (.identifier "a") (.identifier "k") false
        (some (.binary (.binary (.identifier "x") .sub (.identifier "y")) .sub (.identifier "z"))))],
    .expr (.call (.identifier "f") [])]⟩

/-- Whether reading gives `loopAndCall`. Trees have no decidable equality, but one tree is recognised by
running. -/
def isLoopAndCall : Except ParseError Program → Bool
  | .ok loopAndCall => true
  | _ => false

theorem eq_of_isLoopAndCall {x : Except ParseError Program} (h : isLoopAndCall x = true) :
    x = .ok loopAndCall := by
  unfold isLoopAndCall at h
  split at h
  · rfl
  · cases h

theorem parse_derives_loop_and_call : parse loopAndCallTokens = .ok loopAndCall ∧
    Derives .statements (loopAndCallTokens.takeWhile fun t => t.kind ≠ .eof) loopAndCall.body := by
  have h : parse loopAndCallTokens = .ok loopAndCall := eq_of_isLoopAndCall (by decide +kernel)
  exact ⟨h, parse_derives loopAndCallTokens loopAndCall h⟩

end Scriptlet.Proofs.GrammarStatements
