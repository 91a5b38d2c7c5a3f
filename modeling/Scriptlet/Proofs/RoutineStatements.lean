import Scriptlet.Proofs.RoutineExpressions

namespace Scriptlet.Proofs.RoutineStatements
open Scriptlet.Program Reading GrammarSound GrammarStatements Routines RoutineRuns RoutineRules
open RoutineExpressions

variable {ts : List Token} {p q : Place} {n : Counts} {d : Nat}

/-- Semicolons are dropped one by one. -/
theorem semicolons_run (h : Inside ts p) : Parser.semicolons.run (cursorAt ts p) =
    StateT.run (do if ← Parser.skip .semicolon then Parser.semicolons else return ()) (cursorAt ts p) := by
  have hclose : (cursorAt ts p).close.kind = .eof := (ofTokens_close h.closed).2
  generalize cursorAt ts p = c at hclose
  obtain ⟨rest, ⟨kind, text, position⟩, depth⟩ := c
  obtain rfl : kind = .eof := hclose
  cases rest with
  | nil => rfl
  | cons t rest =>
    obtain ⟨kind, text, position⟩ := t
    cases kind <;> rfl

theorem semicolons_reliable : Reliable ts d .semicolons := by
  refine reliable_of_loop (r := fun _ : Unit => Routine.semicolons) (fun _ p n hp ih => ?_) ()
  refine Serves.congr ?_ (semicolons_run hp.inside)
  simp only [Routine.code]
  refine serves_skip_bind hp.inside (fun _ hnext => ?_) fun _ => serves_pure hp.inside _
  exact serves_ask (ih () _ hnext (.refl _)) (hp.next hnext).enough

/-- Where a full expression is read, it is read with the levels of a full tree. -/
theorem serves_expression (hp : Ready ts d p n) : Serves ts (Code.ask .expression) p Parser.expression :=
  serves_ask (expression_reliable d p hp.inside hp.depth_le) hp.enough.with_nesting

theorem fields_reliable : Reliable ts d .fields := by
  refine reliable_of_turns (fun _ _ _ _ => rfl) fun p n hp ih => ?_
  simp only [Routine.code, readerWithin, Parser.fields]
  refine serves_sees_bind hp.inside (serves_sees_bind hp.inside (serves_ite
    (fun _ => serves_pure hp.inside _) fun _ => ?_))
  refine serves_expect_bind hp.inside fun _ hname => serves_expect_bind hname fun _ hcolon =>
    serves_expect_bind hcolon fun _ htype => ?_
  have hpq : Further p.next p.next.next.next := (further_next _).trans (further_next _)
  refine serves_skip_bind htype (fun _ hcomma => ?_) fun _ => ?_
  · exact (ih _ hcomma (hpq.trans (further_next _))).bind fun others q hq _ _ => serves_pure hq _
  · exact (ih _ htype hpq).bind fun others q hq _ _ => serves_pure hq _

theorem structDeclaration_reliable : Reliable ts d .structDeclaration := by
  refine reliable_of_serves fun p n hp => ?_
  simp only [Routine.code, readerWithin, Parser.structDeclaration]
  refine serves_expect_bind hp.inside fun _ hword => serves_expect_bind hword fun _ hname =>
    serves_expect_bind hname fun _ hopen => serves_remaining_bind ?_
  have hq := ((hp.next hword).next hname).next hopen
  have hfields := fields_reliable _ hopen hq.depth_le
  refine (serves_ask hfields hq.enough.with_turns).bind fun declared o ho _ _ => ?_
  refine serves_ite (fun _ => serves_failHere ho _) fun _ => ?_
  exact serves_expect_bind ho fun _ hclose => serves_pure hclose _

theorem serves_initializer (hp : Ready ts d p n) : Serves ts Code.initializer p Parser.initializer := by
  unfold Code.initializer Parser.initializer
  exact serves_skip_bind hp.inside (fun _ hnext => serves_expression (hp.next hnext)) fun _ =>
    serves_pure hp.inside _

theorem declarations_reliable (constant : Bool) : Reliable ts d (.declarations constant) := by
  refine reliable_of_turns (fun _ _ _ _ => rfl) fun p n hp ih => ?_
  simp only [Routine.code, readerWithin, Parser.declarations]
  refine serves_expect_bind hp.inside fun _ hname => ?_
  refine (serves_initializer (hp.next hname)).bind fun value q hq hpq _ => ?_
  refine serves_skip_bind hq (fun _ hnext => ?_) fun _ => serves_pure hq _
  exact (ih _ hnext (hpq.trans (further_next q))).bind fun others o ho _ _ => serves_pure ho _

/-- Declarations behind their word. -/
theorem serves_declarations (constant : Bool) (hp : Ready ts d p n) :
    Serves ts (do let _ ← Code.eat; Code.ask (.declarations constant)) p
      (do let _ ← Parser.eat; Parser.declarations constant ((← Parser.remaining) + 1)) := by
  refine serves_eat_bind hp.inside fun _ hnext => serves_remaining_bind ?_
  have hq := hp.next hnext
  have hserves := serves_ask (declarations_reliable constant _ hnext hq.depth_le) hq.enough.with_turns
  exact hserves

theorem parameters_reliable : Reliable ts d .parameters := by
  refine reliable_of_turns (fun _ _ _ _ => rfl) fun p n hp ih => ?_
  simp only [Routine.code, readerWithin, Parser.parameters]
  refine serves_sees_bind hp.inside (serves_sees_bind hp.inside (serves_ite
    (fun _ => serves_pure hp.inside _) fun _ => ?_))
  refine serves_expect_bind hp.inside fun _ hname => ?_
  refine serves_skip_bind hname (fun _ hcomma => ?_) fun _ => ?_
  · exact (ih _ hcomma (further_next _)).bind fun others q hq _ _ => serves_pure hq _
  · exact (ih _ hname (.refl _)).bind fun others q hq _ _ => serves_pure hq _

theorem returnStatement_reliable : Reliable ts d .returnStatement := by
  refine reliable_of_serves fun p n hp => ?_
  simp only [Routine.code, readerWithin, Parser.returnStatement]
  refine serves_expect_bind hp.inside fun _ hnext => serves_peek_bind hnext ?_
  cases hk : (cursorAt ts p.next).current.kind with
  | closeBrace | semicolon | eof => exact serves_pure hnext _
  | _ => exact (serves_expression (hp.next hnext)).bind fun value q hq _ _ => serves_pure hq _

theorem condition_reliable : Reliable ts d .condition := by
  refine reliable_of_serves fun p n hp => ?_
  simp only [Routine.code, readerWithin, Parser.condition]
  refine serves_expect_bind hp.inside fun _ hopen => ?_
  refine (serves_expression (hp.next hopen)).bind fun test q hq _ _ => ?_
  exact serves_expect_bind hq fun _ hclose => serves_pure hclose _

section Blocks

variable (hblock : Reliable ts d .block)
include hblock

theorem functionDeclaration_reliable : Reliable ts d .functionDeclaration := by
  refine reliable_of_serves fun p n hp => ?_
  simp only [Routine.code, readerWithin, Parser.functionDeclaration]
  refine serves_expect_bind hp.inside fun _ hword => serves_expect_bind hword fun _ hname =>
    serves_expect_bind hname fun _ hopen => serves_remaining_bind ?_
  have hq := ((hp.next hword).next hname).next hopen
  have hnames := parameters_reliable _ hopen hq.depth_le
  refine (serves_ask hnames hq.enough.with_turns).bind fun names o ho hqo _ => ?_
  refine serves_expect_bind ho fun _ hclose => ?_
  have ho := (hq.further ho hqo).next hclose
  exact (ho.serves hblock).bind fun body o ho _ _ => serves_pure ho _

/-- A condition and its block, whatever they are made into. -/
theorem serves_guarded {make : Expr → List Stmt → Stmt} (hp : Ready ts d p n) :
    Serves ts (do let test ← Code.ask .condition; return make test (← Code.ask .block)) p
      (do let test ← Parser.condition; return make test (← readerWithin n .block)) := by
  refine (hp.serves condition_reliable).bind fun test q hq hpq _ => ?_
  exact ((hp.further hq hpq).serves hblock).bind fun body o ho _ _ => serves_pure ho _

theorem ifStatement_reliable : Reliable ts d .ifStatement := by
  refine reliable_of_serves fun p n hp => ?_
  simp only [Routine.code, readerWithin, Parser.ifStatement]
  exact serves_expect_bind hp.inside fun _ hword => serves_guarded hblock (hp.next hword)

theorem whileStatement_reliable : Reliable ts d .whileStatement := by
  refine reliable_of_serves fun p n hp => ?_
  simp only [Routine.code, readerWithin, Parser.whileStatement]
  exact serves_expect_bind hp.inside fun _ hword => serves_guarded hblock (hp.next hword)

theorem statement_step : Reliable ts d .statement := by
  refine reliable_of_serves fun p n hp => ?_
  obtain ⟨nesting, links, turns⟩ := n
  cases nesting with
  | zero => exact absurd hp.enough.nesting (Nat.not_lt.mpr hp.inside.depth_le)
  | succ nesting =>
    simp only [Routine.code, readerWithin, Parser.statementWithin, Parser.statementWith]
    refine (hp.serves semicolons_reliable).bind fun _ q hq hpq _ => ?_
    have hq := hp.further hq hpq
    refine serves_peek_bind hq.inside ?_
    cases hk : (cursorAt ts q).current.kind with
    | closeBrace | eof => exact serves_pure hq.inside _
    | classWord | forWord => exact serves_failHere hq.inside _
    | structWord =>
      exact (hq.serves structDeclaration_reliable).bind fun _ o ho _ _ => serves_pure ho _
    | letWord => exact serves_declarations false hq
    | constWord => exact serves_declarations true hq
    | whileWord =>
      exact (hq.serves (whileStatement_reliable hblock)).bind fun _ o ho _ _ => serves_pure ho _
    | fnWord =>
      exact (hq.serves (functionDeclaration_reliable hblock)).bind fun _ o ho _ _ => serves_pure ho _
    | returnWord =>
      exact (hq.serves returnStatement_reliable).bind fun _ o ho _ _ => serves_pure ho _
    | ifWord =>
      exact (hq.serves (ifStatement_reliable hblock)).bind fun _ o ho _ _ => serves_pure ho _
    | _ => exact (serves_expression hq).bind fun _ o ho _ _ => serves_pure ho _

end Blocks

/-- A statement that is read where there is one takes a token. -/
theorem statement_progress {m : Nat} {first : List Stmt} (hp : Inside ts p) (hq : Inside ts q)
    (h : Gives (Parser.statementWithin m) (cursorAt ts p) first (cursorAt ts q))
    (hbrace : (cursorAt ts p).current.kind ≠ .closeBrace) (hend : (cursorAt ts p).current.kind ≠ .eof) :
    p.index < q.index := by
  obtain ⟨u, hu, htake, _⟩ := statementWithin_leading m _ _ _ h
  exact index_lt_of_past hp hq hu fun hnil => (htake hnil).elim hbrace hend

theorem statements_reliable (hstatement : Reliable ts d .statement) : Reliable ts d .statements := by
  refine reliable_of_turns (fun _ _ _ _ => rfl) fun p n hp ih => ?_
  simp only [Routine.code, readerWithin, Parser.statements]
  refine serves_sees_bind hp.inside (serves_sees_bind hp.inside (serves_ite
    (fun _ => serves_pure hp.inside _) fun hgo => ?_))
  simp only [Bool.or_eq_true, beq_iff_eq, not_or] at hgo
  refine (hp.serves hstatement).bind fun first q hq hpq hfirst => ?_
  have hlt := statement_progress hp.inside hq hfirst hgo.1 hgo.2
  exact (ih q hq ⟨hlt, hpq.depth_le⟩).bind fun others o ho _ _ => serves_pure ho _

theorem blockBody_reliable (hstatement : Reliable ts d .statement) : Reliable ts d .blockBody := by
  refine reliable_of_serves fun p n hp => ?_
  simp only [Routine.code, readerWithin, blockBody]
  refine serves_expect_bind hp.inside fun _ hopen => serves_remaining_bind ?_
  have hp := hp.next hopen
  have hbody := statements_reliable hstatement _ hopen hp.depth_le
  refine (serves_ask hbody hp.enough.with_turns).bind fun body q hq _ _ => ?_
  exact serves_expect_bind hq fun _ hclose => serves_pure hclose _

theorem block_reliable (hstatement : Reliable ts (d + 1) .statement) : Reliable ts d .block := by
  refine reliable_of_serves fun p n hp => ?_
  refine serves_nested (n := { n with nesting := n.nesting - 1 }) hp.inside fun hdeeper => ⟨?_, ?_⟩
  · have henough := hp.enough.further hp.inside hdeeper (further_deeper p)
    have hnesting := hp.enough.nesting
    refine ⟨?_, henough.links, henough.turns⟩
    simp only
    omega
  · exact blockBody_reliable hstatement _ hdeeper (Nat.succ_le_succ hp.depth_le)

theorem statement_reliable (d : Nat) : Reliable ts d .statement :=
  reliable_downward (fun _ h => statement_step (block_reliable h)) d

theorem topLevel_reliable : Reliable ts d .topLevel := by
  refine reliable_of_turns (fun _ _ _ _ => rfl) fun p n hp ih => ?_
  simp only [Routine.code, readerWithin, Parser.topLevel]
  refine serves_peek_bind hp.inside (serves_ite (fun _ => serves_pure hp.inside _) fun hend =>
    serves_ite (fun _ => serves_failAt hp.inside _ _) fun hbrace => ?_)
  have hstatement := statement_reliable d p hp.inside hp.depth_le
  refine (serves_ask hstatement hp.enough.with_nesting).bind fun first q hq hpq hfirst => ?_
  have hlt := statement_progress hp.inside hq hfirst hbrace hend
  exact (ih q hq ⟨hlt, hpq.depth_le⟩).bind fun others o ho _ _ => serves_pure ho _

theorem program_reliable : Reliable ts d .program := by
  refine reliable_of_serves fun p n hp => serves_remaining_bind ?_
  exact serves_ask (topLevel_reliable p hp.inside hp.depth_le) hp.enough.with_turns

end Scriptlet.Proofs.RoutineStatements
