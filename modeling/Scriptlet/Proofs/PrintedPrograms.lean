import Scriptlet.Proofs.PrintedReads

namespace Scriptlet.Proofs.PrintedPrograms
open Scriptlet.Program Scriptlet.Program.Parser Spelling Reading Layers PrintedTokens PrintedReads

variable {block : Parser (List Stmt)} {depth : Nat}

/-- A statement reads back in front of the semicolon behind it. -/
def ReadsStatement (block : Parser (List Stmt)) (depth : Nat) (s : Stmt) : Prop :=
  ∀ ts us close, Spells ts s.words → (Cursor.mk us close depth).current.kind = .semicolon →
    StatementStep block ⟨ts ++ us, close, depth⟩ [s] ⟨us, close, depth⟩

/-- Statements in braces read back, whatever follows. -/
def ReadsBlock (block : Parser (List Stmt)) (depth : Nat) (ss : List Stmt) : Prop :=
  ∀ ts us close, Spells ts (openBrace :: (Stmt.listWords ss ++ [closeBrace])) →
    Gives block ⟨ts ++ us, close, depth⟩ ss ⟨us, close, depth⟩

theorem expression_reads {e : Expr} (he : e.Printable) (hdepth : depth + 2 * e.height ≤ maxNesting + 1) :
    Reads expression depth e := by
  have hlevels : levels = maxNesting + 1 := rfl
  exact expr_reads e.height (Nat.le_refl _) he (by omega) hdepth

/-- The comma behind an item of a list that needs none. -/
theorem Spells.optionalComma {ts us : List Token} {w : List Spelling} {ws : List (List Spelling)}
    {close : Token} (h : Spells ts (continued (w :: ws))) :
    ∃ vs, OptionalComma ⟨ts ++ us, close, depth⟩ ⟨vs ++ us, close, depth⟩ ∧
      Spells vs (separated (w :: ws)) ∧ ts.length = vs.length + 1 := by
  obtain ⟨t, vs, rfl, hk, _, hvs⟩ := Spells.cons_inv h
  exact ⟨vs, .inl ⟨t, .cons .., hk⟩, hvs, rfl⟩

theorem fields_reads {fs : List Field} {n : Nat} {ts us : List Token} {close : Token}
    (h : Spells ts (separated (fs.map Field.words))) (hn : ts.length ≤ n)
    (hus : (Cursor.mk us close depth).current.kind = .closeBrace) :
    Gives (fields n) ⟨ts ++ us, close, depth⟩ fs ⟨us, close, depth⟩ := by
  induction fs generalizing n ts with
  | nil =>
    obtain rfl := Spells.nil_inv h
    cases n with
    | zero => exact gives_pure.mpr ⟨rfl, rfl⟩
    | succ n => exact gives_fields_succ.mpr (.inl ⟨.inl hus, rfl, rfl⟩)
  | cons f fs ih =>
    obtain ⟨vs, ws, rfl, hvs, hws⟩ := Spells.append_inv h
    obtain ⟨t, vs, rfl, hk, htext, hvs⟩ := Spells.cons_inv hvs
    obtain ⟨u, vs, rfl, huk, _, hvs⟩ := hvs.cons_inv
    obtain ⟨v, vs, rfl, hvk, hvtext, hvs⟩ := hvs.cons_inv
    obtain rfl := hvs.nil_inv
    have hf : f = ⟨t.text, v.text⟩ := by
      obtain ⟨name, typeName⟩ := f
      exact congr (congrArg Field.mk htext.symm) hvtext.symm
    have hkind : (Cursor.mk (t :: u :: v :: (ws ++ us)) close depth).current.kind = .identifier := hk
    have hmore := not_or.mpr ⟨ne_of_kind (j := .closeBrace) hkind (by decide),
      ne_of_kind (j := .eof) hkind (by decide)⟩
    simp only [List.cons_append, List.nil_append, List.length_cons] at hn ⊢
    obtain ⟨m, rfl⟩ : ∃ m, n = m + 1 := ⟨n - 1, by omega⟩
    obtain ⟨d, hcomma, hothers⟩ : ∃ d, OptionalComma ⟨ws ++ us, close, depth⟩ d ∧
        Gives (fields m) d fs ⟨us, close, depth⟩ := by
      cases fs with
      | nil =>
        obtain rfl := Spells.nil_inv hws
        exact ⟨_, .inr ⟨ne_of_kind hus (by decide), rfl⟩, @ih m [] rfl (Nat.zero_le _)⟩
      | cons f' fs =>
        obtain ⟨xs, hcomma, hxs, hlength⟩ := Spells.optionalComma hws
        exact ⟨_, hcomma, @ih m xs hxs (by omega)⟩
    exact gives_fields_succ.mpr (.inr ⟨hmore, t, _, u, _, v, _, d, fs, .cons .., hk, .cons .., huk,
      .cons .., hvk, hcomma, hothers, by rw [hf]⟩)

theorem parameters_reads {names : List String} {n : Nat} {ts us : List Token} {close : Token}
    (h : Spells ts (separated (names.map fun q => [(.identifier, q)]))) (hn : ts.length ≤ n)
    (hus : (Cursor.mk us close depth).current.kind = .closeParen) :
    Gives (parameters n) ⟨ts ++ us, close, depth⟩ names ⟨us, close, depth⟩ := by
  induction names generalizing n ts with
  | nil =>
    obtain rfl := Spells.nil_inv h
    cases n with
    | zero => exact gives_pure.mpr ⟨rfl, rfl⟩
    | succ n => exact gives_parameters_succ.mpr (.inl ⟨.inl hus, rfl, rfl⟩)
  | cons q names ih =>
    obtain ⟨vs, ws, rfl, hvs, hws⟩ := Spells.append_inv h
    obtain ⟨t, vs, rfl, hk, htext, hvs⟩ := Spells.cons_inv hvs
    obtain rfl := hvs.nil_inv
    obtain rfl : t.text = q := htext
    have hkind : (Cursor.mk (t :: (ws ++ us)) close depth).current.kind = .identifier := hk
    have hmore := not_or.mpr ⟨ne_of_kind (j := .closeParen) hkind (by decide),
      ne_of_kind (j := .eof) hkind (by decide)⟩
    simp only [List.cons_append, List.nil_append, List.length_cons] at hn ⊢
    obtain ⟨m, rfl⟩ : ∃ m, n = m + 1 := ⟨n - 1, by omega⟩
    obtain ⟨d, hcomma, hothers⟩ : ∃ d, OptionalComma ⟨ws ++ us, close, depth⟩ d ∧
        Gives (parameters m) d names ⟨us, close, depth⟩ := by
      cases names with
      | nil =>
        obtain rfl := Spells.nil_inv hws
        exact ⟨_, .inr ⟨ne_of_kind hus (by decide), rfl⟩, @ih m [] rfl (Nat.zero_le _)⟩
      | cons q' names =>
        obtain ⟨xs, hcomma, hxs, hlength⟩ := Spells.optionalComma hws
        exact ⟨_, hcomma, @ih m xs hxs (by omega)⟩
    exact gives_parameters_succ.mpr (.inr ⟨hmore, t, _, d, names, .cons .., hk, hcomma, hothers, rfl⟩)

theorem struct_reads {name : String} {fs : List Field} (hfs : fs ≠ []) :
    ReadsStatement block depth (.structDecl name fs) := by
  intro ts us close h hus
  obtain ⟨t, ts, rfl, hk, _, hts⟩ := Spells.cons_inv h
  obtain ⟨u, ts, rfl, huk, hutext, hts⟩ := hts.cons_inv
  obtain ⟨v, ts, rfl, hvk, _, hts⟩ := hts.cons_inv
  obtain ⟨vs, ws, rfl, hvs, hws⟩ := hts.append_inv
  obtain ⟨x, ws, rfl, hxk, _, hws⟩ := hws.cons_inv
  obtain rfl := hws.nil_inv
  obtain rfl : u.text = name := hutext
  have hclose : (Cursor.mk (x :: us) close depth).current.kind = .closeBrace := hxk
  have hfields := fields_reads (n := (vs ++ x :: us).length) hvs (by simp) hclose
  have hcursor : t :: u :: v :: (vs ++ [x]) ++ us = t :: u :: v :: (vs ++ x :: us) := by simp
  rw [hcursor]
  exact .struct hk (gives_structDeclaration.mpr ⟨t, _, u, _, v, _, fs, _, x, .cons .., hk, .cons .., huk,
    .cons .., hvk, hfields, hfs, .cons .., hxk, rfl⟩)

theorem function_reads {name : String} {names : List String} {body : List Stmt}
    (hbody : ReadsBlock block depth body) : ReadsStatement block depth (.fnDecl name names body) := by
  intro ts us close h hus
  obtain ⟨t, ts, rfl, hk, _, hts⟩ := Spells.cons_inv h
  obtain ⟨u, ts, rfl, huk, hutext, hts⟩ := hts.cons_inv
  obtain ⟨ps, bs, rfl, hps, hbs⟩ := hts.append_inv
  obtain ⟨v, ps, rfl, hvk, _, hps⟩ := hps.cons_inv
  obtain ⟨vs, ws, rfl, hvs, hws⟩ := hps.append_inv
  obtain ⟨x, ws, rfl, hxk, _, hws⟩ := hws.cons_inv
  obtain rfl := hws.nil_inv
  obtain rfl : u.text = name := hutext
  have hclose : (Cursor.mk (x :: (bs ++ us)) close depth).current.kind = .closeParen := hxk
  have hparameters := parameters_reads (n := (vs ++ x :: (bs ++ us)).length) hvs (by simp) hclose
  have hcursor : t :: u :: (v :: (vs ++ [x]) ++ bs) ++ us = t :: u :: v :: (vs ++ x :: (bs ++ us)) := by
    simp
  rw [hcursor]
  exact .function hk (gives_functionDeclaration.mpr ⟨t, _, u, _, v, _, names, _, x, _, body, .cons .., hk,
    .cons .., huk, .cons .., hvk, hparameters, .cons .., hxk, hbody bs us close hbs, rfl⟩)

theorem condition_reads {test : Expr} (htest : Reads expression depth test) {ts us : List Token}
    {close : Token} (h : Spells ts (enclosed test.words)) :
    Gives condition ⟨ts ++ us, close, depth⟩ test ⟨us, close, depth⟩ := by
  obtain ⟨t, ts, rfl, hk, _, hts⟩ := Spells.cons_inv h
  obtain ⟨vs, ws, rfl, hvs, hws⟩ := hts.append_inv
  obtain ⟨u, ws, rfl, huk, _, hws⟩ := hws.cons_inv
  obtain rfl := hws.nil_inv
  have hclose : (Cursor.mk (u :: us) close depth).current.kind = .closeParen := huk
  have hinner := htest vs (u :: us) close hvs (atEnd_of_kind hclose (by decide))
  have hcursor : t :: (vs ++ [u]) ++ us = t :: (vs ++ u :: us) := by simp
  rw [hcursor]
  exact gives_condition.mpr ⟨t, _, _, u, .cons .., hk, hinner, .cons .., huk⟩

theorem if_reads {test : Expr} {body : List Stmt} (htest : Reads expression depth test)
    (hbody : ReadsBlock block depth body) : ReadsStatement block depth (.ifThen test body) := by
  intro ts us close h hus
  obtain ⟨t, ts, rfl, hk, _, hts⟩ := Spells.cons_inv h
  obtain ⟨vs, bs, rfl, hvs, hbs⟩ := hts.append_inv
  have hcursor : t :: (vs ++ bs) ++ us = t :: (vs ++ (bs ++ us)) := by simp
  rw [hcursor]
  exact .ifOne hk (gives_ifStatement.mpr ⟨t, _, test, _, body, .cons .., hk, condition_reads htest hvs,
    hbody bs us close hbs, rfl⟩)

theorem while_reads {test : Expr} {body : List Stmt} (htest : Reads expression depth test)
    (hbody : ReadsBlock block depth body) : ReadsStatement block depth (.whileDo test body) := by
  intro ts us close h hus
  obtain ⟨t, ts, rfl, hk, _, hts⟩ := Spells.cons_inv h
  obtain ⟨vs, bs, rfl, hvs, hbs⟩ := hts.append_inv
  have hcursor : t :: (vs ++ bs) ++ us = t :: (vs ++ (bs ++ us)) := by simp
  rw [hcursor]
  exact .whileOne hk (gives_whileStatement.mpr ⟨t, _, test, _, body, .cons .., hk,
    condition_reads htest hvs, hbody bs us close hbs, rfl⟩)

theorem return_reads {value : Expr} (h : Reads expression depth value) :
    ReadsStatement block depth (.ret value) := by
  intro ts us close hts hus
  obtain ⟨t, ts, rfl, hk, _, hts⟩ := Spells.cons_inv hts
  have hvalue := h ts us close hts (atEnd_of_kind hus (by decide))
  have hstart := hts.start us close depth
  have hends : ∀ k ∈ expressionStarts, k ∉ [Token.Kind.closeBrace, .semicolon, .eof] := by decide
  have hmore := hends _ hstart
  exact .returned hk (gives_returnStatement.mpr ⟨t, _, .cons .., hk, .inr ⟨hmore, value, hvalue, rfl⟩⟩)

theorem declaration_reads {name : String} {constant : Bool} {value : Expr}
    (h : Reads expression depth value) : ReadsStatement block depth (.varDecl name constant value) := by
  intro ts us close hwords hus
  obtain ⟨t, ts, rfl, hk, _, hafter⟩ := Spells.cons_inv hwords
  obtain ⟨u, ts, rfl, huk, hutext, hafter⟩ := hafter.cons_inv
  obtain ⟨v, ts, rfl, hvk, _, hts⟩ := hafter.cons_inv
  obtain rfl : u.text = name := hutext
  have hvalue := h ts us close hts (atEnd_of_kind hus (by decide))
  have hinitial : Gives initializer ⟨v :: (ts ++ us), close, depth⟩ value ⟨us, close, depth⟩ :=
    gives_initializer.mpr (.inl ⟨v, _, .cons .., hvk, hvalue⟩)
  have hdeclared : ∀ n, Gives (declarations constant (n + 1)) ⟨u :: v :: (ts ++ us), close, depth⟩
      [.varDecl u.text constant value] ⟨us, close, depth⟩ := fun n =>
    gives_declarations_succ.mpr ⟨u, _, value, _, .cons .., huk, hinitial,
      .inr ⟨ne_of_kind hus (by decide), rfl, rfl⟩⟩
  cases constant with
  | false => exact .letOne (.cons ..) hk (hdeclared _)
  | true => exact .constOne (.cons ..) hk (hdeclared _)

theorem plain_reads {value : Expr} (h : Reads expression depth value) :
    ReadsStatement block depth (.expr value) := by
  intro ts us close hts hus
  have hstart := Spells.start hts us close depth
  have hreserved : ∀ k ∈ expressionStarts, k ∉ reserved := by decide
  exact .plain (hreserved _ hstart) (h ts us close hts (atEnd_of_kind hus (by decide)))

/-- Every form of statement reads back, given that the blocks in it do. -/
theorem stmt_reads_of_blocks {s : Stmt} (hs : s.Printable)
    (hdepth : depth + 2 * s.height ≤ maxNesting + 1)
    (hblock : ∀ body, 1 + Stmt.heightOfList body ≤ s.height → Stmt.AllPrintable body →
      ReadsBlock block depth body) : ReadsStatement block depth s := by
  cases s with
  | structDecl name fs => exact struct_reads hs.2.1
  | fnDecl name names body => exact function_reads (hblock body (Nat.le_refl _) hs.2.2)
  | ret value => exact return_reads (expression_reads hs hdepth)
  | ifThen test body =>
    simp only [Stmt.height] at hdepth hblock
    exact if_reads (expression_reads hs.1 (by omega)) (hblock body (Nat.le_max_right _ _) hs.2)
  | whileDo test body =>
    simp only [Stmt.height] at hdepth hblock
    exact while_reads (expression_reads hs.1 (by omega)) (hblock body (Nat.le_max_right _ _) hs.2)
  | varDecl name constant value => exact declaration_reads (expression_reads hs.2 hdepth)
  | expr value => exact plain_reads (expression_reads hs hdepth)

def statementStarts : List Token.Kind :=
  [.structWord, .fnWord, .returnWord, .ifWord, .whileWord, .letWord, .constWord] ++ expressionStarts

theorem stmt_words_start (s : Stmt) : ∃ w ws, s.words = w :: ws ∧ w.1 ∈ statementStarts := by
  cases s with
  | structDecl name fs => exact ⟨_, _, rfl, by simp [statementStarts]⟩
  | fnDecl name names body => exact ⟨_, _, rfl, by simp [statementStarts]⟩
  | ret value => exact ⟨_, _, rfl, by simp [statementStarts]⟩
  | ifThen test body => exact ⟨_, _, rfl, by simp [statementStarts]⟩
  | whileDo test body => exact ⟨_, _, rfl, by simp [statementStarts]⟩
  | varDecl name constant value =>
    refine ⟨_, _, rfl, ?_⟩
    cases constant <;> decide
  | expr value =>
    obtain ⟨w, ws, hw, hmem⟩ := words_start value
    exact ⟨w, ws, hw, List.mem_append_right _ hmem⟩

theorem Spells.statement_start {ts : List Token} {s : Stmt} (h : Spells ts s.words) :
    ∃ t vs, ts = t :: vs ∧ t.kind ∈ statementStarts := by
  obtain ⟨w, ws, hw, hmem⟩ := stmt_words_start s
  rw [hw] at h
  obtain ⟨t, vs, rfl, hk, _, _⟩ := h.cons_inv
  exact ⟨t, vs, rfl, hk ▸ hmem⟩

/-- The semicolons in front of a statement do not matter. -/
theorem statementWith_of_step {pre rest : List Token} {close : Token} {ss : List Stmt} {c' : Cursor}
    (hpre : ∀ t ∈ pre, t.kind = .semicolon)
    (hrest : (Cursor.mk rest close depth).current.kind ≠ .semicolon)
    (h : StatementStep block ⟨rest, close, depth⟩ ss c') :
    Gives (statementWith block) ⟨pre ++ rest, close, depth⟩ ss c' := by
  rw [gives_statementWith]
  have hdropped : (pre ++ rest).dropWhile (fun t => t.kind == .semicolon) = rest := by
    rw [List.dropWhile_append_of_pos fun t ht => beq_iff_eq.mpr (hpre t ht)]
    cases rest with
    | nil => rfl
    | cons t ts => exact List.dropWhile_cons_of_neg fun hk => hrest (beq_iff_eq.mp hk)
  simpa only [hdropped] using h

theorem statements_end {statement : Parser (List Stmt)} {n : Nat} {c : Cursor}
    (h : c.current.kind = .closeBrace ∨ c.current.kind = .eof) :
    Gives (statements statement n) c [] c := by
  cases n with
  | zero => exact gives_pure.mpr ⟨rfl, rfl⟩
  | succ n => exact gives_statements_succ.mpr (.inl ⟨h, rfl, rfl⟩)

theorem semicolon_goes_on {t : Token} {ts : List Token} {close : Token} (h : t.kind = .semicolon) :
    ¬((Cursor.mk (t :: ts) close depth).current.kind = .closeBrace ∨
      (Cursor.mk (t :: ts) close depth).current.kind = .eof) := by
  have hcurrent : (Cursor.mk (t :: ts) close depth).current.kind = .semicolon := h
  rw [hcurrent]
  decide

/-- The loop over statements, entered in front of the semicolons that the last one left. -/
theorem statements_reads {ss : List Stmt} {n : Nat} {pre ts us : List Token} {close : Token}
    (hss : ∀ s ∈ ss, ReadsStatement block depth s) (hpre : ∀ t ∈ pre, t.kind = .semicolon)
    (h : Spells ts (Stmt.listWords ss)) (hn : pre.length + ts.length ≤ n)
    (hus : (Cursor.mk us close depth).current.kind = .closeBrace ∨
      (Cursor.mk us close depth).current.kind = .eof) :
    Gives (statements (statementWith block) n) ⟨pre ++ (ts ++ us), close, depth⟩ ss
      ⟨us, close, depth⟩ := by
  induction ss generalizing n pre ts with
  | nil =>
    obtain rfl := Spells.nil_inv h
    cases pre with
    | nil => exact statements_end hus
    | cons t pre =>
      obtain ⟨m, rfl⟩ : ∃ m, n = m + 1 := ⟨n - 1, by simp at hn; omega⟩
      have hrest : (Cursor.mk us close depth).current.kind ≠ .semicolon := by
        intro hk
        rw [hk] at hus
        revert hus
        decide
      exact gives_statements_succ.mpr (.inr ⟨semicolon_goes_on (hpre t (.head _)), [], _, [],
        statementWith_of_step hpre hrest (.nothing hus), statements_end hus, rfl⟩)
  | cons s ss ih =>
    obtain ⟨vs, ws, rfl, hvs, hws⟩ := Spells.append_inv h
    obtain ⟨t, ws, rfl, hk, _, hws⟩ := hws.cons_inv
    obtain ⟨v, vs', rfl, hstart⟩ := Spells.statement_start hvs
    have hends : ∀ k ∈ statementStarts, k ≠ .semicolon ∧ ¬(k = .closeBrace ∨ k = .eof) := by decide
    obtain ⟨hsemicolon, hmore⟩ := hends _ hstart
    simp only [List.length_append, List.length_cons] at hn
    obtain ⟨m, rfl⟩ : ∃ m, n = m + 1 := ⟨n - 1, by omega⟩
    have hstep := hss s (.head _) (v :: vs') (t :: (ws ++ us)) close hvs hk
    have hothers := @ih m [t] ws (fun s' hs' => hss s' (.tail _ hs'))
      (fun u hu => by rw [List.mem_singleton.mp hu]; exact hk) hws
      (by rw [List.length_singleton]; omega)
    have hcursor : v :: vs' ++ t :: ws ++ us = v :: vs' ++ t :: (ws ++ us) := by simp
    rw [hcursor]
    have hfirst : Gives (statementWith block) ⟨pre ++ (v :: vs' ++ t :: (ws ++ us)), close, depth⟩ [s]
        ⟨t :: (ws ++ us), close, depth⟩ := statementWith_of_step hpre hsemicolon hstep
    refine gives_statements_succ.mpr (.inr ⟨?_, [s], _, ss, hfirst, hothers, rfl⟩)
    cases pre with
    | nil => exact hmore
    | cons u pre => exact semicolon_goes_on (hpre u (.head _))

theorem block_reads {ss : List Stmt} (hss : ∀ s ∈ ss, ReadsStatement block (depth + 1) s)
    (hdepth : depth < maxNesting) : ReadsBlock (blockOf (statementWith block)) depth ss := by
  intro ts us close h
  obtain ⟨t, ts, rfl, hk, _, hts⟩ := Spells.cons_inv h
  obtain ⟨vs, ws, rfl, hvs, hws⟩ := hts.append_inv
  obtain ⟨u, ws, rfl, huk, _, hws⟩ := hws.cons_inv
  obtain rfl := hws.nil_inv
  have hbody : Gives (statements (statementWith block) (vs ++ u :: us).length)
      ⟨[] ++ (vs ++ u :: us), close, depth + 1⟩ ss ⟨u :: us, close, depth + 1⟩ :=
    statements_reads hss (fun _ ht => nomatch ht) hvs (by simp) (.inl huk)
  have hcursor : t :: (vs ++ [u]) ++ us = t :: (vs ++ u :: us) := by simp
  rw [hcursor]
  exact gives_blockOf.mpr ⟨hdepth, t, _, _, u, _, .cons .., hk, hbody, .cons .., huk, rfl⟩

theorem height_le_of_mem {s : Stmt} {ss : List Stmt} (h : s ∈ ss) : s.height ≤ Stmt.heightOfList ss := by
  induction h with
  | head ss => exact Nat.le_max_left _ _
  | tail s' _ ih => exact Nat.le_trans ih (Nat.le_max_right _ _)

theorem printable_of_mem {s : Stmt} {ss : List Stmt} (h : s ∈ ss) (hss : Stmt.AllPrintable ss) :
    s.Printable := by
  induction h with
  | head ss => exact hss.1
  | tail s' _ ih => exact ih hss.2

/-- Every statement reads back where twice its height is left of the depth that a tree may have. The
induction is on a bound of the height, since a block is read by a reader of smaller statements. -/
theorem stmt_reads {h n depth : Nat} {s : Stmt} (hs : s.Printable) (hheight : s.height ≤ h) (hn : h ≤ n)
    (hdepth : depth + 2 * h ≤ maxNesting + 1) :
    ReadsStatement (blockOf (statementWithin n)) depth s := by
  induction h generalizing n depth s with
  | zero => exact stmt_reads_of_blocks hs (by omega) fun body hbody _ => by omega
  | succ h ih =>
    refine stmt_reads_of_blocks hs (by omega) fun body hbody hprintable => ?_
    obtain ⟨m, rfl⟩ : ∃ m, n = m + 1 := ⟨n - 1, by omega⟩
    refine block_reads (fun s' hs' => ?_) (by omega)
    have hsmaller := height_le_of_mem hs'
    exact ih (printable_of_mem hs' hprintable) (by omega) (by omega) (by omega)

/-- At the top level no brace closes anything, so the loop there may only end with the tokens. -/
theorem topLevel_of_statements {n : Nat} {c c' : Cursor} {ss : List Stmt}
    (h : Gives (statements statement n) c ss c') (hend : c'.current.kind = .eof) :
    Gives (topLevel n) c ss c' := by
  induction n generalizing c ss with
  | zero => exact h
  | succ n ih =>
    rcases gives_statements_succ.mp h with ⟨_, rfl, rfl⟩ | ⟨hmore, first, d, others, hfirst, hothers, rfl⟩
    · exact gives_topLevel_succ.mpr (.inl ⟨hend, rfl, rfl⟩)
    · obtain ⟨hbrace, heof⟩ := not_or.mp hmore
      exact gives_topLevel_succ.mpr (.inr ⟨heof, hbrace, first, d, others, hfirst, ih hothers, rfl⟩)

/-- Parsing undoes printing. -/
theorem parse_scan_print (p : Program) (hp : p.Printable) (hheight : p.height ≤ 60) :
    ∃ tokens, Token.scan p.print = .ok tokens ∧ parse tokens = .ok p := by
  obtain ⟨ts, q, hscan, hwords⟩ := scan_print hp
  refine ⟨_, hscan, ?_⟩
  have hreads : ∀ s ∈ p.body, ReadsStatement (blockOf (statementWithin maxNesting)) 0 s := by
    intro s hs
    have hsmaller : s.height ≤ p.height := height_le_of_mem hs
    exact stmt_reads (h := 60) (printable_of_mem hs hp) (by omega) (by decide) (by decide)
  have hbody : Gives (statements statement ts.length) ⟨[] ++ (ts ++ []), Token.eof q, 0⟩ p.body
      ⟨[], Token.eof q, 0⟩ :=
    statements_reads hreads (fun _ ht => nomatch ht) hwords (by simp) (.inr rfl)
  rw [List.append_nil] at hbody
  have hkinds : ∀ t ∈ ts, t.kind ≠ .eof := by
    intro t ht
    have hmem : spelling t ∈ Stmt.listWords p.body := hwords ▸ List.mem_map_of_mem ht
    exact scannable_ne_eof (stmts_scannable p.body hp _ hmem)
  exact parse_of_topLevel hkinds rfl (topLevel_of_statements hbody rfl)

/-- `fn f ( x ) { while ( ! x ) { a . b = [ 0.1 , "q" ] ; } ; return x ( ) ; } ;` -/
def waitingCall : Program :=
  ⟨[.fnDecl "f" ["x"] [
    .whileDo (.not (.identifier "x")) [.expr (.member (.identifier "a") (.identifier "b") false
      (some (.array [.number 0.1, .text "q"])))],
    .ret (.call (.identifier "x") [])]]⟩

theorem waitingCall_printable : waitingCall.Printable := by
  have hlower : ∀ s ∈ ["f", "x", "a", "b"],
      s ≠ "" ∧ s.toList.all Char.isLower = true ∧ Token.Kind.ofWord? s = none := by decide
  have hname : ∀ s ∈ ["f", "x", "a", "b"], IsName s := fun s hs =>
    ⟨(hlower s hs).1, isCased_of_all_isLower (hlower s hs).2.1, (hlower s hs).2.2⟩
  have hnumber : IsLiteral 0.1 := ⟨by rfl, by rfl, by rfl⟩
  have hx := hname "x" (by simp)
  have hquote : '"' ∉ "q".toList := by decide
  have hmember : (Expr.member (.identifier "a") (.identifier "b") false
      (some (.array [.number 0.1, .text "q"]))).Printable :=
    ⟨⟨hname "a" (by simp), hname "b" (by simp), fun _ => ⟨_, rfl⟩⟩, hnumber, hquote, trivial⟩
  exact ⟨⟨hname "f" (by simp), by simpa using hx, ⟨hx, hmember, trivial⟩, ⟨hx, trivial⟩, trivial⟩, trivial⟩

theorem parse_scan_print_waitingCall : waitingCall.Printable ∧ waitingCall.height ≤ 60 ∧
    ∃ tokens, Token.scan waitingCall.print = .ok tokens ∧ parse tokens = .ok waitingCall :=
  ⟨waitingCall_printable, by decide, parse_scan_print waitingCall waitingCall_printable (by decide)⟩

end Scriptlet.Proofs.PrintedPrograms
