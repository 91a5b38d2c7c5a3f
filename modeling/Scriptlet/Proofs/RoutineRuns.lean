import Mathlib.Data.Nat.Basic
import Mathlib.Order.Basic
import Scriptlet.Proofs.GrammarStatements
import Scriptlet.Proofs.Routines

namespace Scriptlet.Proofs.RoutineRuns
open Scriptlet.Program Reading Routines

/-- The index of the first end in a list of tokens. -/
def firstEnd (ts : List Token) : Nat :=
  ts.findIdx fun t => t.kind == .eof

/-- A place up to the first end of a list that has one, and not too deep. -/
structure Inside (ts : List Token) (p : Place) : Prop where
  closed : firstEnd ts < ts.length
  index_le : p.index ≤ firstEnd ts
  depth_le : p.depth ≤ maxNesting

/-- The cursor at a place. -/
def cursorAt (ts : List Token) (p : Place) : Cursor :=
  { Cursor.ofTokens ts with rest := (Cursor.ofTokens ts).rest.drop p.index, depth := p.depth }

/-- A place that is reached from another: reading never goes back, and never higher than it began. -/
structure Further (p q : Place) : Prop where
  index_le : p.index ≤ q.index
  depth_le : p.depth ≤ q.depth

variable {ts : List Token} {p q : Place} {α β : Type}

theorem Further.refl (p : Place) : Further p p :=
  ⟨Nat.le_refl _, Nat.le_refl _⟩

theorem Further.trans {o : Place} (h : Further p q) (g : Further q o) : Further p o :=
  ⟨h.index_le.trans g.index_le, h.depth_le.trans g.depth_le⟩

theorem further_next (p : Place) : Further p p.next :=
  ⟨Nat.le_succ _, Nat.le_refl _⟩

theorem further_deeper (p : Place) : Further p (p.atDepth (p.depth + 1)) :=
  ⟨Nat.le_refl _, Nat.le_succ _⟩

section Places

theorem ofTokens_rest (ts : List Token) : (Cursor.ofTokens ts).rest = ts.take (firstEnd ts) := by
  change ts.takeWhile _ = _
  rw [List.takeWhile_eq_take_findIdx_not]
  congr 2
  funext t
  simp [Bool.beq_eq_decide_eq]

theorem find?_firstEnd (h : firstEnd ts < ts.length) :
    ts.find? (fun t => t.kind == .eof) = some ts[firstEnd ts] := by
  rw [List.find?_eq_getElem?_findIdx]
  exact List.getElem?_eq_getElem h

/-- The token behind all others is the first end. -/
theorem ofTokens_close (h : firstEnd ts < ts.length) :
    ts[firstEnd ts]? = some (Cursor.ofTokens ts).close ∧ (Cursor.ofTokens ts).close.kind = .eof := by
  have hfind := find?_firstEnd h
  have hclose : (Cursor.ofTokens ts).close = ts[firstEnd ts] := by
    change (ts.find? _).getD _ = _
    rw [hfind, Option.getD_some]
  rw [hclose]
  exact ⟨List.getElem?_eq_getElem h, by simpa using List.find?_some hfind⟩

theorem rest_length (h : Inside ts p) : (cursorAt ts p).rest.length = firstEnd ts - p.index := by
  have hclosed := h.closed
  change ((Cursor.ofTokens ts).rest.drop p.index).length = _
  rw [ofTokens_rest, List.length_drop, List.length_take]
  omega

/-- Before the first end a place has a token that is no end, and then comes the next place. -/
theorem past_of_lt (h : Inside ts p) (hlt : p.index < firstEnd ts) :
    ∃ t, ts[p.index]? = some t ∧ t.kind ≠ .eof ∧
      Past (cursorAt ts p) [t] (cursorAt ts p.next) := by
  have hrange : p.index < ts.length := hlt.trans h.closed
  refine ⟨ts[p.index], List.getElem?_eq_getElem hrange, ?_, .of_rest ?_⟩
  · simpa using List.not_of_lt_findIdx hlt
  · change (Cursor.ofTokens ts).rest.drop p.index = _ :: (Cursor.ofTokens ts).rest.drop (p.index + 1)
    rw [ofTokens_rest, List.drop_eq_getElem_cons (by rw [List.length_take]; omega), List.getElem_take]

theorem current_of_lt (h : Inside ts p) (hlt : p.index < firstEnd ts) :
    ts[p.index]? = some (cursorAt ts p).current ∧ (cursorAt ts p).current.kind ≠ .eof := by
  obtain ⟨t, ht, hk, hpast⟩ := past_of_lt h hlt
  rw [hpast.current_eq]
  exact ⟨ht, hk⟩

theorem current_of_eq (h : Inside ts p) (heq : p.index = firstEnd ts) :
    ts[p.index]? = some (cursorAt ts p).current ∧ (cursorAt ts p).current.kind = .eof := by
  have hnil : (cursorAt ts p).rest = [] := by
    rw [← List.length_eq_zero_iff, rest_length h]
    omega
  have hcurrent : (cursorAt ts p).current = (Cursor.ofTokens ts).close := by
    rw [Cursor.current, hnil]
    rfl
  rw [hcurrent, heq]
  exact ofTokens_close h.closed

/-- The token at the index is there, and it is the one under the cursor. -/
theorem getElem?_index (h : Inside ts p) : ts[p.index]? = some (cursorAt ts p).current := by
  rcases Nat.lt_or_eq_of_le h.index_le with hlt | heq
  · exact (current_of_lt h hlt).1
  · exact (current_of_eq h heq).1

theorem index_lt_iff (h : Inside ts p) : p.index < firstEnd ts ↔ (cursorAt ts p).current.kind ≠ .eof := by
  constructor
  · intro hlt
    exact (current_of_lt h hlt).2
  · intro hk
    exact Nat.lt_of_le_of_ne h.index_le fun heq => hk (current_of_eq h heq).2

theorem Inside.next (h : Inside ts p) (hlt : p.index < firstEnd ts) : Inside ts p.next :=
  ⟨h.closed, hlt, h.depth_le⟩

theorem Inside.at_depth (h : Inside ts p) {n : Nat} (hn : n ≤ maxNesting) : Inside ts (p.atDepth n) :=
  ⟨h.closed, h.index_le, hn⟩

/-- A token that is no end can be taken. -/
theorem past_next (h : Inside ts p) (hk : (cursorAt ts p).current.kind ≠ .eof) :
    Past (cursorAt ts p) [(cursorAt ts p).current] (cursorAt ts p.next) := by
  obtain ⟨t, _, _, hpast⟩ := past_of_lt h ((index_lt_iff h).mpr hk)
  rw [hpast.current_eq]
  exact hpast

/-- The token behind one that is no end is there too, up to the first end. -/
theorem getElem?_next (h : Inside ts p) (hk : (cursorAt ts p).current.kind ≠ .eof) :
    ts[p.index + 1]? = some ((cursorAt ts p).rest.tail.headD (cursorAt ts p).close) := by
  rw [(past_next h hk).next_eq]
  exact getElem?_index (h.next ((index_lt_iff h).mpr hk))

end Places

/-- How often the repeating parts of a reader may repeat: levels of expressions and blocks, links of a
chain, turns of a loop. -/
structure Counts where
  nesting : Nat
  links : Nat
  turns : Nat

/-- Counts that cannot be used up from a place on. -/
structure Enough (ts : List Token) (p : Place) (k : Counts) : Prop where
  nesting : maxNesting < p.depth + k.nesting
  links : maxNesting < p.depth + k.links
  turns : (cursorAt ts p).rest.length ≤ k.turns

/-- Reading uses no count up faster than it goes on. -/
theorem Enough.further {k : Counts} (h : Enough ts p k) (hp : Inside ts p) (hq : Inside ts q)
    (hpq : Further p q) : Enough ts q k := by
  obtain ⟨hnesting, hlinks, hturns⟩ := h
  obtain ⟨hindex, hdepth⟩ := hpq
  rw [rest_length hp] at hturns
  refine ⟨by omega, by omega, ?_⟩
  rw [rest_length hq]
  omega

theorem Enough.with_links {k : Counts} (h : Enough ts p k) : Enough ts p { k with links := Parser.levels } :=
  ⟨h.nesting, Nat.lt_add_left _ (Nat.lt_succ_self _), h.turns⟩

theorem Enough.with_nesting {k : Counts} (h : Enough ts p k) :
    Enough ts p { k with nesting := Parser.levels } :=
  ⟨Nat.lt_add_left _ (Nat.lt_succ_self _), h.links, h.turns⟩

theorem Enough.with_turns {k : Counts} (h : Enough ts p k) :
    Enough ts p { k with turns := (cursorAt ts p).rest.length } :=
  ⟨h.nesting, h.links, Nat.le_refl _⟩

/-- Counts that last from every place. -/
def lasting (ts : List Token) : Counts :=
  ⟨Parser.levels, Parser.levels, firstEnd ts⟩

theorem enough_lasting (h : Inside ts p) : Enough ts p (lasting ts) := by
  have hlength := rest_length h
  refine ⟨?_, ?_, ?_⟩
  all_goals simp only [lasting, Parser.levels]
  all_goals omega

/-- What stands between the braces of a block, and the braces. -/
def blockBody (statement : Parser (List Stmt)) : Parser (List Stmt) := do
  let _ ← Parser.expect .openBrace
  let body ← Parser.statements statement (← Parser.remaining)
  let _ ← Parser.expect .closeBrace
  return body

/-- The operands of sums, or else of products. -/
def operandWithin (n : Nat) : Bool → Parser Expr
  | true => Parser.multiplicative (Parser.expressionWithin n)
  | false => Parser.callChain (Parser.expressionWithin n)

section Readers

open Parser

/-- The reader that a routine stands for. -/
@[simp]
def readerWithin (k : Counts) : {α : Type} → Routine α → Parser α
  | _, .program => do topLevel (← remaining)
  | _, .topLevel => topLevel k.turns
  | _, .statement => statementWithin k.nesting
  | _, .semicolons => semicolons
  | _, .structDeclaration => structDeclaration
  | _, .fields => fields k.turns
  | _, .declarations constant => declarations constant (k.turns + 1)
  | _, .functionDeclaration => functionDeclaration (blockOf (statementWithin (k.nesting - 1)))
  | _, .parameters => parameters k.turns
  | _, .returnStatement => returnStatement
  | _, .ifStatement => ifStatement (blockOf (statementWithin (k.nesting - 1)))
  | _, .whileStatement => whileStatement (blockOf (statementWithin (k.nesting - 1)))
  | _, .condition => condition
  | _, .block => blockOf (statementWithin (k.nesting - 1))
  | _, .blockBody => blockBody (statementWithin k.nesting)
  | _, .statements => statements (statementWithin k.nesting) k.turns
  | _, .expression => expressionWithin k.nesting
  | _, .negation => negation (expressionWithin k.nesting)
  | _, .logical => logical (expressionWithin k.nesting)
  | _, .boolean => boolean (expressionWithin k.nesting)
  | _, .assignment => assignment (expressionWithin k.nesting) k.links
  | _, .arrayLiteral => arrayLiteral (expressionWithin k.nesting)
  | _, .elements => elements (expressionWithin k.nesting) k.turns
  | _, .objectLiteral => objectLiteral (expressionWithin k.nesting)
  | _, .properties => properties (expressionWithin k.nesting) k.turns
  | _, .leftFold sum => leftFold (accepts sum) (operandWithin k.nesting sum)
  | _, .foldTail sum left => foldTail (accepts sum) (operandWithin k.nesting sum) k.links left
  | _, .callChain => callChain (expressionWithin k.nesting)
  | _, .callTail callee => callTail (expressionWithin k.nesting) k.links callee
  | _, .arguments => arguments (expressionWithin k.nesting)
  | _, .moreArguments => moreArguments (expressionWithin k.nesting) k.turns
  | _, .memberChain => memberChain (expressionWithin k.nesting)
  | _, .memberTail object => memberTail (expressionWithin k.nesting) k.links object
  | _, .primary => primary (expressionWithin k.nesting)

end Readers

/-- From one place to another, a result is that of a reader. -/
def Follows (ts : List Token) (reader : Parser α) (p : Place) (x : Except ParseError α) (q : Place) : Prop :=
  reader.run (cursorAt ts p) = x.map fun x => (x, cursorAt ts q)

/-- What a call must come to: it ends inside and no higher than it began, with the result of its
reader, however large the counts of the reader are. -/
structure Kept (ts : List Token) (r : Routine α) (p : Place) (x : Except ParseError α) (q : Place) :
    Prop where
  inside : Inside ts q
  further : Further p q
  follows : ∀ k, Enough ts p k → Follows ts (readerWithin k r) p x q

/-- Acts that end, with all that is asked of them on the way. -/
inductive Runs (ts : List Token) : {α : Type} → Code α → Place → Except ParseError α → Place → Prop where
  | done {α : Type} (x : Except ParseError α) (p : Place) : Runs ts (.done x) p x p
  | look {α : Type} {next : Token → Code α} {p q : Place} {x : Except ParseError α} {t : Token}
      (ht : ts[p.index]? = some t) (h : Runs ts (next t) p x q) : Runs ts (.look next) p x q
  | lookNext {α : Type} {next : Option Token → Code α} {p q : Place} {x : Except ParseError α}
      (hlt : p.index < firstEnd ts) (h : Runs ts (next ts[p.index + 1]?) p x q) :
      Runs ts (.lookNext next) p x q
  | advance {α : Type} {next : Code α} {p q : Place} {x : Except ParseError α}
      (hlt : p.index < firstEnd ts) (h : Runs ts next p.next x q) :
      Runs ts (.advance next) p x q
  | level {α : Type} {next : Nat → Code α} {p q : Place} {x : Except ParseError α}
      (h : Runs ts (next p.depth) p x q) : Runs ts (.level next) p x q
  | setLevel {α : Type} {next : Code α} {n : Nat} {p q : Place} {x : Except ParseError α}
      (hn : n ≤ maxNesting) (h : Runs ts next (p.atDepth n) x q) : Runs ts (.setLevel n next) p x q
  | lower {α : Type} {next : Code α} {p q : Place} {x : Except ParseError α} (hpos : 0 < p.depth)
      (h : Runs ts next (p.atDepth (p.depth - 1)) x q) : Runs ts (.lower next) p x q
  | call {α β : Type} {r : Routine β} {next : Except ParseError β → Code α} {p q q' : Place}
      {y : Except ParseError β} {x : Except ParseError α} (hr : Runs ts r.code p y q)
      (kept : Kept ts r p y q) (h : Runs ts (next y) q x q') : Runs ts (.call r next) p x q'

section Runs

theorem Runs.bind_ok {c : Code α} {f : α → Code β} {x : Except ParseError α} {v : α} {y : Except ParseError β}
    {q' : Place} (h : Runs ts c p x q) (hx : x = .ok v) (hf : Runs ts (f v) q y q') :
    Runs ts (c >>= f) p y q' := by
  induction h with
  | done x p =>
    subst hx
    exact hf
  | look ht _ ih => exact .look ht (ih hx hf)
  | lookNext hlt _ ih => exact .lookNext hlt (ih hx hf)
  | advance hlt _ ih => exact .advance hlt (ih hx hf)
  | level _ ih => exact .level (ih hx hf)
  | setLevel hn _ ih => exact .setLevel hn (ih hx hf)
  | lower hpos _ ih => exact .lower hpos (ih hx hf)
  | call hr kept _ _ ih => exact .call hr kept (ih hx hf)

theorem Runs.bind_error {c : Code α} {f : α → Code β} {x : Except ParseError α} {e : ParseError}
    (h : Runs ts c p x q) (hx : x = .error e) : Runs ts (c >>= f) p (.error e) q := by
  induction h with
  | done x p =>
    subst hx
    exact .done _ _
  | look ht _ ih => exact .look ht (ih hx)
  | lookNext hlt _ ih => exact .lookNext hlt (ih hx)
  | advance hlt _ ih => exact .advance hlt (ih hx)
  | level _ ih => exact .level (ih hx)
  | setLevel hn _ ih => exact .setLevel hn (ih hx)
  | lower hpos _ ih => exact .lower hpos (ih hx)
  | call hr kept _ _ ih => exact .call hr kept (ih hx)

theorem Runs.unique {c : Code α} {x x' : Except ParseError α} {q' : Place} (h : Runs ts c p x q)
    (h' : Runs ts c p x' q') : x = x' ∧ q = q' := by
  induction h generalizing q' with
  | done x p =>
    cases h'
    exact ⟨rfl, rfl⟩
  | look ht _ ih =>
    cases h' with
    | look ht' h' =>
      rw [ht] at ht'
      cases ht'
      exact ih h'
  | lookNext _ _ ih =>
    cases h' with
    | lookNext _ h' => exact ih h'
  | advance _ _ ih =>
    cases h' with
    | advance _ h' => exact ih h'
  | level _ ih =>
    cases h' with
    | level h' => exact ih h'
  | setLevel _ _ ih =>
    cases h' with
    | setLevel _ h' => exact ih h'
  | lower _ _ ih =>
    cases h' with
    | lower _ h' => exact ih h'
  | call _ _ _ ihr ih =>
    cases h' with
    | call hr' _ h' =>
      obtain ⟨rfl, rfl⟩ := ihr hr'
      exact ih h'

end Runs

end Scriptlet.Proofs.RoutineRuns
