import Mathlib.Data.List.DropRight
import Scriptlet.Proofs.Persistence

namespace Scriptlet.Proofs.Semicolons
open Scriptlet.Program Scriptlet.Program.Parser Reading GrammarStatements Persistence

variable {c d : Cursor} {n m : Nat} {first body : List Stmt}

/-- The statements from a cursor to the end, in at most so many turns of the outermost loop. -/
def bodyWithin (n : Nat) (c : Cursor) : Except ParseError (List Stmt) :=
  ((topLevel n).run c).map Prod.fst

/-- The statements from a cursor to the end. -/
def bodyFrom (c : Cursor) : Except ParseError (List Stmt) :=
  bodyWithin c.rest.length c

theorem bodyWithin_succ (n : Nat) (c : Cursor) : bodyWithin (n + 1) c =
    if c.current.kind = .eof then .ok []
    else if c.current.kind = .closeBrace then .error ⟨c.current.position, .unexpectedToken c.current⟩
    else (statement.run c).bind fun r => (bodyWithin n r.2).map (r.1 ++ ·) := by
  unfold bodyWithin
  rw [topLevel, StateT.run_bind]
  change Except.map Prod.fst (StateT.run (if c.current.kind = .eof then _ else _) c) = _
  split
  · rfl
  split
  · rfl
  rw [StateT.run_bind]
  cases hfirst : statement.run c with
  | error e => rfl
  | ok r =>
    simp only [bind, Except.bind]
    change Except.map Prod.fst (((topLevel n).run r.2).bind _) = _
    cases (topLevel n).run r.2 with
    | error e => rfl
    | ok s => rfl

/-- Every turn takes a token, so that the count of the loop does not matter once it is as great as
what is left. -/
theorem bodyWithin_eq (hc : Closed c) (hn : c.rest.length ≤ n) (hm : c.rest.length ≤ m) :
    bodyWithin n c = bodyWithin m c := by
  induction n generalizing m c with
  | zero =>
    have hnil : c.rest = [] := List.length_eq_zero_iff.mp (Nat.le_zero.mp hn)
    cases m with
    | zero => rfl
    | succ m =>
      rw [bodyWithin_succ, if_pos (kind_end hc hnil)]
      rfl
  | succ n ih =>
    cases m with
    | zero =>
      have hnil : c.rest = [] := List.length_eq_zero_iff.mp (Nat.le_zero.mp hm)
      rw [bodyWithin_succ, if_pos (kind_end hc hnil)]
      rfl
    | succ m =>
      rw [bodyWithin_succ, bodyWithin_succ]
      by_cases heof : c.current.kind = .eof
      · rw [if_pos heof, if_pos heof]
      by_cases hbrace : c.current.kind = .closeBrace
      · rw [if_neg heof, if_neg heof, if_pos hbrace, if_pos hbrace]
      rw [if_neg heof, if_neg heof, if_neg hbrace, if_neg hbrace]
      cases hfirst : statement.run c with
      | error e => rfl
      | ok r =>
        obtain ⟨first, d⟩ := r
        obtain ⟨hon, hshort, _⟩ := statement_moves (statementWithin_leading _) hfirst
          (not_or.mpr ⟨hbrace, heof⟩)
        have hd := ih (hon.closed hc) (by omega) (m := m) (by omega)
        simp only [Except.bind, hd]

theorem bodyFrom_end (h : c.current.kind = .eof) : bodyFrom c = .ok [] := by
  unfold bodyFrom
  cases hn : c.rest.length with
  | zero => rfl
  | succ n => rw [bodyWithin_succ, if_pos h]

/-- One turn of the loop, at neither an end nor a brace. -/
theorem bodyFrom_step (hc : Closed c) (heof : c.current.kind ≠ .eof) (hbrace : c.current.kind ≠ .closeBrace) :
    bodyFrom c = (statement.run c).bind fun r => (bodyFrom r.2).map (r.1 ++ ·) := by
  have hne : c.rest ≠ [] := fun hnil => heof (kind_end hc hnil)
  unfold bodyFrom
  rw [bodyWithin_eq hc (Nat.le_refl _) (Nat.le_succ _), bodyWithin_succ, if_neg heof, if_neg hbrace]
  cases hfirst : statement.run c with
  | error e => rfl
  | ok r =>
    obtain ⟨first, d⟩ := r
    obtain ⟨hon, hshort, _⟩ := statement_moves (statementWithin_leading _) hfirst
      (not_or.mpr ⟨hbrace, heof⟩)
    have hd := bodyWithin_eq (hon.closed hc) (Nat.le_of_lt hshort) (Nat.le_refl _)
    simp only [Except.bind, hd]

theorem bodyFrom_brace (h : c.current.kind = .closeBrace) (hc : Closed c) :
    bodyFrom c = .error ⟨c.current.position, .unexpectedToken c.current⟩ := by
  unfold bodyFrom
  rw [bodyWithin_eq hc (Nat.le_refl _) (Nat.le_succ _), bodyWithin_succ, h]
  rfl

/-- Statements that are read from a token on begin with one of their own. -/
theorem bodyFrom_ok (hc : Closed c) (hne : c.rest ≠ []) (hfree : ∀ t ∈ c.rest, t.kind ≠ .eof)
    (h : bodyFrom c = .ok body) : ¬(c.current.kind = .closeBrace ∨ c.current.kind = .eof) ∧
      ∃ first d others, Gives statement c first d ∧ bodyFrom d = .ok others ∧ body = first ++ others := by
  have heof : c.current.kind ≠ .eof := by
    obtain ⟨t, ts, hrest⟩ := List.exists_cons_of_ne_nil hne
    rw [Cursor.current, hrest]
    exact hfree t (by simp [hrest])
  have hbrace : c.current.kind ≠ .closeBrace := by
    intro hk
    rw [bodyFrom_brace hk hc] at h
    cases h
  refine ⟨fun hstop => hstop.elim hbrace heof, ?_⟩
  rw [bodyFrom_step hc heof hbrace] at h
  cases hfirst : statement.run c with
  | error e =>
    rw [hfirst] at h
    cases h
  | ok r =>
    obtain ⟨first, d⟩ := r
    rw [hfirst, Except.bind] at h
    cases hothers : bodyFrom d with
    | error e =>
      rw [hothers] at h
      cases h
    | ok others =>
      rw [hothers] at h
      exact ⟨first, d, others, hfirst, hothers, (Except.ok.inj h).symm⟩

theorem unseparated_idem (c : Cursor) : unseparated (unseparated c) = unseparated c := by
  unfold unseparated
  rw [List.dropWhile_idempotent]

theorem unseparated_eq (hk : c.current.kind ≠ .semicolon) : unseparated c = c := by
  obtain ⟨rest, close, depth⟩ := c
  cases rest with
  | nil => rfl
  | cons t ts =>
    have ht : t.kind ≠ .semicolon := hk
    simp [unseparated, ht]

theorem statement_unseparated (c : Cursor) : statement.run (unseparated c) = statement.run c := by
  change StateT.run (semicolons >>= _) _ = StateT.run (semicolons >>= _) _
  rw [StateT.run_bind, StateT.run_bind]
  change Except.bind (.ok ((), unseparated (unseparated c))) _ = Except.bind (.ok ((), unseparated c)) _
  rw [unseparated_idem]

/-- Semicolons in front change nothing, whatever comes after them. -/
theorem bodyFrom_unseparated (hc : Closed c) : bodyFrom (unseparated c) = bodyFrom c := by
  by_cases hk : c.current.kind = .semicolon
  · rw [bodyFrom_step hc (by simp [hk]) (by simp [hk])]
    by_cases hstop : (unseparated c).current.kind = .closeBrace ∨ (unseparated c).current.kind = .eof
    · -- the turn that takes the semicolons takes nothing else
      have hfirst : statement.run c = .ok ([], unseparated c) := gives_statementWith.mpr (.nothing hstop)
      rw [hfirst, Except.bind]
      cases bodyFrom (unseparated c) with
      | error e => rfl
      | ok body => rfl
    · rw [not_or] at hstop
      rw [bodyFrom_step ((onward_unseparated c).closed hc) hstop.2 hstop.1, statement_unseparated]
  · rw [unseparated_eq hk]

/-- If only semicolons are left, the tokens that go on are read as if they stood alone. -/
theorem unseparated_end {q : Sequel} (h : (unseparated c).rest = []) :
    unseparated (followed q c) = unseparated (q.start c.depth) := by
  have h : (c.rest.dropWhile fun t => t.kind == .semicolon).isEmpty = true := List.isEmpty_iff.mpr h
  simp [unseparated, followed, Sequel.start, List.dropWhile_append, h, q.kind_eq]

/-- What is read before an end is read as well before a semicolon, and then comes what follows it. -/
theorem bodyFrom_followed (q : Sequel) (h : bodyFrom c = .ok body) (hc : Closed c)
    (hfree : ∀ t ∈ c.rest, t.kind ≠ .eof) :
    bodyFrom (followed q c) = (bodyFrom (q.start c.depth)).map (body ++ ·) := by
  -- by the tokens that are left, of which each statement takes one at least
  induction hn : c.rest.length using Nat.strong_induction_on generalizing c body with
  | _ n ih =>
  have hcq : Closed (followed q c) := q.closed
  have hstart : Closed (q.start c.depth) := q.closed
  by_cases hnil : (unseparated c).rest = []
  · have hend := kind_end ((onward_unseparated c).closed hc) hnil
    rw [← bodyFrom_unseparated hc, bodyFrom_end hend, Except.ok.injEq] at h
    rw [← bodyFrom_unseparated hcq, unseparated_end hnil, bodyFrom_unseparated hstart, ← h]
    cases bodyFrom (q.start c.depth) with
    | error e => rfl
    | ok others => rfl
  · have hne : c.rest ≠ [] := (onward_unseparated c).ne_nil hnil
    obtain ⟨hgo, first, d, others, hfirst, hothers, rfl⟩ := bodyFrom_ok hc hne hfree h
    obtain ⟨hd, hshort, hdepth⟩ := statement_moves (statementWithin_leading _) hfirst hgo
    have hrest := ih d.rest.length (by omega) hothers (hd.closed hc)
      (fun t ht => hfree t (hd.rest.mem ht)) rfl
    have hfirst : statement.run (followed q c) = .ok (first, followed q d) :=
      (statementWithin_persists _ hfirst hc).2 hnil
    rw [← current_followed (q := q) hne, not_or] at hgo
    rw [bodyFrom_step hcq hgo.2 hgo.1, hfirst, Except.bind, hrest, hdepth]
    cases bodyFrom (q.start c.depth) with
    | error e => rfl
    | ok rest => simp [Except.map]

theorem parse_eq_ok {tokens : List Token} {p : Program} :
    parse tokens = .ok p ↔ bodyFrom (Cursor.ofTokens tokens) = .ok p.body := by
  obtain ⟨body⟩ := p
  unfold parse bodyFrom bodyWithin
  cases h : (topLevel (Cursor.ofTokens tokens).rest.length).run (Cursor.ofTokens tokens) with
  | error e => simp [h, Except.map]
  | ok r => simp [h, Except.map]

theorem parse_eq_error {tokens : List Token} {e : ParseError} :
    parse tokens = .error e ↔ bodyFrom (Cursor.ofTokens tokens) = .error e := by
  unfold parse bodyFrom bodyWithin
  cases h : (topLevel (Cursor.ofTokens tokens).rest.length).run (Cursor.ofTokens tokens) with
  | error e => simp [h, Except.map]
  | ok r => simp [h, Except.map]

section Tokens

variable {ts us : List Token} {t : Token}

/-- The end that is made up for tokens without one. -/
def closeOf (ts : List Token) : Token :=
  Token.eof ((ts.getLast?.map Token.position).getD .nowhere)

theorem ofTokens_free (h : ∀ t ∈ ts, t.kind ≠ .eof) : Cursor.ofTokens ts = ⟨ts, closeOf ts, 0⟩ := by
  have hrest : ts.takeWhile (fun t => t.kind ≠ .eof) = ts :=
    List.takeWhile_eq_self_iff.mpr fun t ht => decide_eq_true (h t ht)
  have hclose : ts.find? (fun t => t.kind == .eof) = none :=
    List.find?_eq_none.mpr fun t ht => by simp [h t ht]
  rw [Cursor.ofTokens, hrest, hclose]
  rfl

/-- Tokens behind others have the end of the whole, unless there are none and no end is looked at. -/
theorem bodyFrom_close (ts us : List Token) :
    bodyFrom ⟨us, closeOf (ts ++ us), 0⟩ = bodyFrom ⟨us, closeOf us, 0⟩ := by
  cases us with
  | nil => rfl
  | cons u us =>
    have hclose : closeOf (ts ++ u :: us) = closeOf (u :: us) := by
      simp [closeOf, List.getLast?_append, List.getLast?_cons]
    rw [hclose]

theorem bodyFrom_join (hts : ∀ u ∈ ts, u.kind ≠ .eof) (hus : ∀ u ∈ us, u.kind ≠ .eof)
    (ht : t.kind = .semicolon) (h : bodyFrom (Cursor.ofTokens ts) = .ok body) :
    bodyFrom (Cursor.ofTokens (ts ++ [t] ++ us)) = (bodyFrom (Cursor.ofTokens us)).map (body ++ ·) := by
  have hfree : ∀ u ∈ ts ++ [t] ++ us, u.kind ≠ .eof := by
    intro u hu
    rw [List.mem_append, List.mem_append, List.mem_singleton] at hu
    rcases hu with (hu | rfl) | hu
    · exact hts u hu
    · simp [ht]
    · exact hus u hu
  rw [ofTokens_free hts] at h
  rw [ofTokens_free hfree, ofTokens_free hus, ← bodyFrom_close (ts ++ [t]) us, List.append_assoc]
  exact bodyFrom_followed ⟨t, us, closeOf (ts ++ ([t] ++ us)), ht, rfl⟩ h rfl hts

end Tokens

/-- Parsing is compositional over semicolons: behind tokens that are a program of their own, what
follows a semicolon is read as if it stood alone, and fails as it fails alone. -/
theorem parse_join (ts us : List Token) (t : Token) (p : Program) (hts : ∀ u ∈ ts, u.kind ≠ .eof)
    (hus : ∀ u ∈ us, u.kind ≠ .eof) (ht : t.kind = .semicolon) (h : parse ts = .ok p) :
    (∀ r, parse us = .ok r → parse (ts ++ [t] ++ us) = .ok ⟨p.body ++ r.body⟩) ∧
      ∀ e, parse us = .error e → parse (ts ++ [t] ++ us) = .error e := by
  have hjoin := bodyFrom_join hts hus ht (parse_eq_ok.mp h)
  constructor
  · intro r hr
    rw [parse_eq_ok.mp hr] at hjoin
    exact parse_eq_ok.mpr hjoin
  · intro e he
    rw [parse_eq_error.mp he] at hjoin
    exact parse_eq_error.mpr hjoin

/-- Tokens of some kinds and texts, one in each column. -/
def row (words : List (Token.Kind × String)) : List Token :=
  words.zipIdx.map fun ((k, s), i) => Token.mk k s ⟨1, i + 1⟩

/-- `fn f() { return } return`, where the end and a brace stand for the values. -/
def bareReturns : List Token :=
  row [(.fnWord, "fn"), (.identifier, "f"), (.openParen, "("), (.closeParen, ")"),
    (.openBrace, "\x7b"), (.returnWord, "return"), (.closeBrace, "\x7d"), (.returnWord, "return")]

/-- `; }`, whose semicolon is taken by a statement and whose brace closes nothing. -/
def strayBrace : List Token :=
  row [(.semicolon, ";"), (.closeBrace, "\x7d")]

theorem parse_join_bareReturns :
    parse bareReturns = .ok ⟨[.fnDecl "f" [] [.ret .omitted], .ret .omitted]⟩ ∧
    parse (row [(.identifier, "x")]) = .ok ⟨[.expr (.identifier "x")]⟩ ∧
    parse (bareReturns ++ row [(.semicolon, ";")] ++ row [(.identifier, "x")]) =
      .ok ⟨[.fnDecl "f" [] [.ret .omitted], .ret .omitted, .expr (.identifier "x")]⟩ ∧
    parse (bareReturns ++ row [(.semicolon, ";")] ++ strayBrace) =
      .error ⟨⟨1, 2⟩, .unexpectedToken ⟨.closeBrace, "\x7d", ⟨1, 2⟩⟩⟩ := by
  have h : parse bareReturns = .ok ⟨[.fnDecl "f" [] [.ret .omitted], .ret .omitted]⟩ := by rfl
  have hx : parse (row [(.identifier, "x")]) = .ok ⟨[.expr (.identifier "x")]⟩ := by rfl
  refine ⟨h, hx, ?_, ?_⟩
  · exact (parse_join bareReturns _ ⟨.semicolon, ";", ⟨1, 1⟩⟩ _ (by decide) (by decide) rfl h).1 _ hx
  · exact (parse_join bareReturns strayBrace ⟨.semicolon, ";", ⟨1, 1⟩⟩ _ (by decide) (by decide) rfl h).2 _
      (by rfl)

end Scriptlet.Proofs.Semicolons
