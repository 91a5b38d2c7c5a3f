import Scriptlet.Proofs.ReadingStatements

namespace Scriptlet.Proofs.Layers
open Scriptlet.Program Scriptlet.Program.Parser Reading

variable {expr : Parser Expr} {e : Expr} {c c' : Cursor}

/-- The token at the cursor goes on with no expression: it closes one, parts it from the next or ends
its statement. -/
def AtEnd (c : Cursor) : Prop :=
  c.current.kind ∈ [.closeParen, .closeBracket, .closeBrace, .comma, .semicolon, .eof]

instance (c : Cursor) : Decidable (AtEnd c) :=
  inferInstanceAs (Decidable (_ ∈ _))

theorem AtEnd.ne (h : AtEnd c) {k : Token.Kind}
    (hk : k ∉ [.closeParen, .closeBracket, .closeBrace, .comma, .semicolon, .eof]) :
    c.current.kind ≠ k := by
  intro heq
  unfold AtEnd at h
  rw [heq] at h
  exact hk h

theorem ne_of_kind {j k : Token.Kind} (h : c.current.kind = k) (hjk : j ≠ k) : c.current.kind ≠ j :=
  fun heq => hjk (heq.symm.trans h)

theorem AtEnd.not_assignment (h : AtEnd c) : ¬AtAssignment c :=
  fun ha => h.ne (by decide) ha.1

theorem AtEnd.not_comparison (h : AtEnd c) : ¬AtComparison c := by
  rintro (hk | ⟨hk | hk, _⟩)
  · exact h.ne (by decide) hk
  · exact h.ne (by decide) hk
  · exact h.ne (by decide) hk

theorem operatorAt_eq_none {accepted : BinaryOp → Bool} (h : c.current.kind ≠ .binaryOperator) :
    operatorAt accepted c = none :=
  if_neg h

theorem not_atAssignment (h : c.current.kind ≠ .equals) : ¬AtAssignment c :=
  fun ha => h ha.1

/-- The tokens that a primary expression begins with. -/
def primaryStarts : List Token.Kind :=
  [.identifier, .number, .string, .openParen]

theorem starts_of_primary (h : Gives (primary expr) c e c') : c.current.kind ∈ primaryStarts := by
  obtain ⟨t, d, ht, h⟩ := gives_primary.mp h
  rw [ht.current_eq]
  rcases h with ⟨hk, _⟩ | ⟨hk, _⟩ | ⟨hk, _⟩ | ⟨hk, _⟩
  all_goals
    rw [hk]
    decide

theorem ne_of_starts (h : c.current.kind ∈ primaryStarts) {k : Token.Kind} (hk : k ∉ primaryStarts) :
    c.current.kind ≠ k := by
  intro heq
  rw [heq] at h
  exact hk h

/-- A chain of members, nothing assigned to it. -/
theorem memberChain_of_tail {first object : Expr} {d d' : Cursor} (hfirst : Gives (primary expr) c first d)
    (htail : Gives (memberTail expr levels first) d object d') (ha : ¬AtAssignment d') :
    Gives (memberChain expr) c object { d' with depth := d.depth } :=
  gives_memberChain.mpr ⟨first, d, object, _, hfirst, gives_leveled.mpr ⟨d', htail, rfl⟩,
    .inr ⟨ha, rfl, rfl⟩⟩

theorem memberTail_stops {n : Nat} {object : Expr} (hdot : c.current.kind ≠ .dot)
    (hopen : c.current.kind ≠ .openBracket) : Gives (memberTail expr (n + 1) object) c object c :=
  gives_memberTail_succ.mpr (.inr ⟨hdot, hopen, rfl, rfl⟩)

theorem memberChain_of_primary (h : Gives (primary expr) c e c') (hdot : c'.current.kind ≠ .dot)
    (hopen : c'.current.kind ≠ .openBracket) (ha : ¬AtAssignment c') :
    Gives (memberChain expr) c e c' :=
  memberChain_of_tail h (memberTail_stops hdot hopen) ha

theorem callTail_stops {n : Nat} {callee : Expr} (hopen : c.current.kind ≠ .openParen) :
    Gives (callTail expr (n + 1) callee) c callee c :=
  gives_callTail_succ.mpr (.inr ⟨hopen, rfl, rfl⟩)

theorem callChain_of_tail {first : Expr} {d d' : Cursor} (hfirst : Gives (memberChain expr) c first d)
    (htail : Gives (callTail expr levels first) d e d') :
    Gives (callChain expr) c e { d' with depth := d.depth } :=
  gives_bind.mpr ⟨first, d, hfirst, gives_leveled.mpr ⟨d', htail, rfl⟩⟩

theorem callChain_of_member (h : Gives (memberChain expr) c e c')
    (hopen : c'.current.kind ≠ .openParen) : Gives (callChain expr) c e c' :=
  callChain_of_tail h (callTail_stops hopen)

theorem callChain_of_primary (h : Gives (primary expr) c e c') (hdot : c'.current.kind ≠ .dot)
    (hbracket : c'.current.kind ≠ .openBracket) (hparen : c'.current.kind ≠ .openParen)
    (ha : ¬AtAssignment c') : Gives (callChain expr) c e c' :=
  callChain_of_member (memberChain_of_primary h hdot hbracket ha) hparen

theorem foldTail_stops {accepted : BinaryOp → Bool} {operand : Parser Expr} {n : Nat} {first : Expr}
    (hop : operatorAt accepted c = none) : Gives (foldTail accepted operand (n + 1) first) c first c :=
  gives_foldTail_succ.mpr (.inr ⟨hop, rfl, rfl⟩)

theorem leftFold_of_tail {accepted : BinaryOp → Bool} {operand : Parser Expr} {first : Expr}
    {d d' : Cursor} (hfirst : Gives operand c first d)
    (htail : Gives (foldTail accepted operand levels first) d e d') :
    Gives (leftFold accepted operand) c e { d' with depth := d.depth } :=
  gives_bind.mpr ⟨first, d, hfirst, gives_leveled.mpr ⟨d', htail, rfl⟩⟩

theorem leftFold_of_operand {accepted : BinaryOp → Bool} {operand : Parser Expr}
    (h : Gives operand c e c') (hop : operatorAt accepted c' = none) :
    Gives (leftFold accepted operand) c e c' :=
  leftFold_of_tail h (foldTail_stops hop)

theorem arrayLiteral_of_additive (h : Gives (additive expr) c e c')
    (hbrace : c.current.kind ≠ .openBrace) (hopen : c.current.kind ≠ .openBracket) :
    Gives (arrayLiteral expr) c e c' :=
  gives_arrayLiteral.mpr (.inr ⟨hopen, gives_objectLiteral.mpr (.inr ⟨hbrace, h⟩)⟩)

theorem assignment_of_array {n : Nat} (h : Gives (arrayLiteral expr) c e c') (ha : ¬AtAssignment c') :
    Gives (assignment expr (n + 1)) c e c' :=
  gives_assignment_succ.mpr ⟨e, c', h, .inr ⟨ha, rfl, rfl⟩⟩

theorem assignment_of_primary (h : Gives (primary expr) c e c') (hdot : c'.current.kind ≠ .dot)
    (hbracket : c'.current.kind ≠ .openBracket) (hparen : c'.current.kind ≠ .openParen)
    (hop : c'.current.kind ≠ .binaryOperator) (ha : ¬AtAssignment c') :
    Gives (assignment expr levels) c e c' := by
  have hcall := callChain_of_primary h hdot hbracket hparen ha
  have hsum : Gives (additive expr) c e c' := leftFold_of_operand
    (leftFold_of_operand hcall (operatorAt_eq_none hop)) (operatorAt_eq_none hop)
  have hstart := starts_of_primary h
  exact assignment_of_array (arrayLiteral_of_additive hsum (ne_of_starts hstart (by decide))
    (ne_of_starts hstart (by decide))) ha

theorem boolean_of_assignment (h : Gives (assignment expr levels) c e c')
    (hk : c'.current.kind ≠ .booleanOperator) : Gives (boolean expr) c e c' :=
  gives_boolean.mpr ⟨e, c', h, .inr ⟨hk, rfl, rfl⟩⟩

theorem logical_of_boolean (h : Gives (boolean expr) c e c') (hn : ¬AtComparison c') :
    Gives (logical expr) c e c' :=
  gives_logical.mpr ⟨e, c', h, .inr ⟨hn, rfl, rfl⟩⟩

theorem negation_of_logical (h : Gives (logical expr) c e c') (hnot : c.current.kind ≠ .not) :
    Gives (negation expr) c e c' :=
  gives_negation.mpr (.inr ⟨hnot, h⟩)

/-- Where an expression ends, an array literal or anything tighter is all of it. -/
theorem negation_of_array (h : Gives (arrayLiteral expr) c e c') (hnot : c.current.kind ≠ .not)
    (hend : AtEnd c') : Gives (negation expr) c e c' := by
  have hassign : Gives (assignment expr levels) c e c' := assignment_of_array h hend.not_assignment
  have hboolean := boolean_of_assignment hassign (hend.ne (by decide))
  exact negation_of_logical (logical_of_boolean hboolean hend.not_comparison) hnot

theorem negation_of_additive (h : Gives (additive expr) c e c')
    (hstart : c.current.kind ∈ primaryStarts) (hend : AtEnd c') : Gives (negation expr) c e c' := by
  have harray := arrayLiteral_of_additive h (ne_of_starts hstart (by decide))
    (ne_of_starts hstart (by decide))
  exact negation_of_array harray (ne_of_starts hstart (by decide)) hend

theorem negation_of_call (h : Gives (callChain expr) c e c') (hstart : c.current.kind ∈ primaryStarts)
    (hend : AtEnd c') : Gives (negation expr) c e c' := by
  have hnone : ∀ accepted, operatorAt accepted c' = none := fun _ =>
    operatorAt_eq_none (hend.ne (by decide))
  exact negation_of_additive (leftFold_of_operand (leftFold_of_operand h (hnone _)) (hnone _)) hstart hend

theorem negation_of_member (h : Gives (memberChain expr) c e c')
    (hstart : c.current.kind ∈ primaryStarts) (hend : AtEnd c') : Gives (negation expr) c e c' :=
  negation_of_call (callChain_of_member h (hend.ne (by decide))) hstart hend

theorem negation_of_primary (h : Gives (primary expr) c e c') (hend : AtEnd c') :
    Gives (negation expr) c e c' :=
  negation_of_member
    (memberChain_of_primary h (hend.ne (by decide)) (hend.ne (by decide)) hend.not_assignment)
    (starts_of_primary h) hend

/-- A full expression is a negation one level down. -/
theorem expressionWithin_of_negation {n : Nat} {ts ts' : List Token} {close : Token} {depth : Nat}
    (hdepth : depth < maxNesting)
    (h : Gives (negation (expressionWithin n)) ⟨ts, close, depth + 1⟩ e ⟨ts', close, depth + 1⟩) :
    Gives (expressionWithin (n + 1)) ⟨ts, close, depth⟩ e ⟨ts', close, depth⟩ :=
  gives_nested.mpr ⟨hdepth, _, h, rfl⟩

/-- The cursor before a word that an end closes. -/
theorem ofTokens_append {w ts : List Token} {z : Token} (hw : ∀ t ∈ w, t.kind ≠ .eof)
    (hz : z.kind = .eof) : Cursor.ofTokens (w ++ z :: ts) = ⟨w, z, 0⟩ := by
  have hrest : (w ++ z :: ts).takeWhile (fun t => t.kind ≠ .eof) = w := by
    rw [List.takeWhile_append_of_pos fun t ht => decide_eq_true (hw t ht), List.takeWhile_cons_of_neg,
      List.append_nil]
    simp [hz]
  have hfind : (w ++ z :: ts).find? (fun t => t.kind == .eof) = some z := by
    rw [List.find?_append, List.find?_eq_none.mpr (fun t ht => by simpa using hw t ht)]
    simp [hz]
  simp only [Cursor.ofTokens, hrest, hfind, Option.getD_some]

theorem parse_of_topLevel {w ts : List Token} {z : Token} {body : List Stmt}
    (hw : ∀ t ∈ w, t.kind ≠ .eof) (hz : z.kind = .eof)
    (h : Gives (topLevel w.length) ⟨w, z, 0⟩ body ⟨[], z, 0⟩) : parse (w ++ z :: ts) = .ok ⟨body⟩ := by
  rw [parse_ok, ofTokens_append hw hz]
  exact ⟨_, h⟩

/-- No loop over statements starts at the end. -/
theorem topLevel_end {n : Nat} {z : Token} (hz : z.kind = .eof) :
    Gives (topLevel n) ⟨[], z, 0⟩ [] ⟨[], z, 0⟩ := by
  cases n with
  | zero => exact gives_pure.mpr ⟨rfl, rfl⟩
  | succ n => exact gives_topLevel_succ.mpr (.inl ⟨hz, rfl, rfl⟩)

/-- An expression that begins with a primary one is a statement. -/
theorem statementWith_of_expression {block : Parser (List Stmt)} (hstart : c.current.kind ∈ primaryStarts)
    (h : Gives expression c e c') : Gives (statementWith block) c [.expr e] c' := by
  have hreserved : c.current.kind ∉ reserved := by
    simp only [primaryStarts, List.mem_cons, List.not_mem_nil, or_false] at hstart
    rcases hstart with hk | hk | hk | hk
    all_goals
      rw [hk]
      decide
  have hdrop : c.rest.dropWhile (fun t => t.kind == .semicolon) = c.rest := by
    have hk := ne_of_starts hstart (k := .semicolon) (by decide)
    cases hrest : c.rest with
    | nil => rfl
    | cons t ts =>
      rw [List.dropWhile_cons_of_neg]
      simpa [Cursor.current, hrest] using hk
  rw [gives_statementWith, hdrop]
  exact .plain hreserved h

end Scriptlet.Proofs.Layers
