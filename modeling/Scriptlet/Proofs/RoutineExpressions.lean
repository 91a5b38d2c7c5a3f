import Scriptlet.Proofs.RoutineRules

namespace Scriptlet.Proofs.RoutineExpressions
open Scriptlet.Program Reading GrammarSound GrammarStatements Routines RoutineRuns RoutineRules

variable {ts : List Token} {p q : Place} {β : Type} {d : Nat}

theorem serves_assignTo (h : Inside ts p) (target value : Expr) (position : Text.Position) :
    Serves ts (Code.assignTo target value position) p (Parser.assignTo target value position) := by
  cases target with
  | identifier name => exact serves_pure h _
  | member object member computed assignment =>
    cases assignment with
    | none => exact serves_pure h _
    | some value => exact serves_failAt h _ _
  | _ => exact serves_failAt h _ _

/-- The readers look at both tokens in any case; the acts look at the second one only where the first
is no end, so that they do not look past it. -/
theorem serves_seesPair_bind {k : Token.Kind} {f : Bool → Code β} {g : Bool → Parser β}
    (h : Inside ts p) (hk : k ≠ .eof) (hf : ∀ b, Serves ts (f b) p (g b)) :
    Serves ts (Code.seesPair k >>= f) p
      (Parser.sees k >>= fun a => Parser.seesNext .equals >>= fun b => g (a && b)) := by
  unfold Code.seesPair
  rw [code_bind_assoc]
  refine serves_sees_bind h ?_
  by_cases hkind : (cursorAt ts p).current.kind = k
  · rw [beq_iff_eq.mpr hkind, if_pos rfl]
    refine serves_seesNext_bind h (fun hend => hk (hkind.symm.trans hend)) fun b => ?_
    rw [Bool.true_and]
    exact hf b
  · rw [beq_false_of_ne hkind, if_neg Bool.false_ne_true]
    exact hf false

theorem serves_seesAssignment_bind {f : Bool → Code β} {g : Bool → Parser β} (h : Inside ts p)
    (hf : ∀ b, Serves ts (f b) p (g b)) :
    Serves ts (Code.seesAssignment >>= f) p (Parser.seesAssignment >>= g) := by
  unfold Code.seesAssignment Parser.seesAssignment
  rw [code_bind_assoc, bind_assoc]
  refine serves_sees_bind h ?_
  by_cases hk : (cursorAt ts p).current.kind = .equals
  · rw [beq_iff_eq.mpr hk, if_pos rfl, code_bind_assoc, bind_assoc]
    refine serves_seesNext_bind h (by simp [hk]) fun b => ?_
    exact hf !b
  · rw [beq_false_of_ne hk, if_neg Bool.false_ne_true]
    exact hf false

theorem serves_seesOperator_bind {accepted : BinaryOp → Bool} {f : Option BinaryOp → Code β}
    {g : Option BinaryOp → Parser β} (h : Inside ts p) (hf : ∀ o, Serves ts (f o) p (g o)) :
    Serves ts (Code.seesOperator accepted >>= f) p (Parser.seesOperator accepted >>= g) := by
  unfold Code.seesOperator Parser.seesOperator
  rw [code_bind_assoc, bind_assoc]
  refine serves_peek_bind h ?_
  by_cases hk : (cursorAt ts p).current.kind = .binaryOperator
  · rw [if_pos hk, if_pos hk]
    exact hf _
  · rw [if_neg hk, if_neg hk]
    exact hf _

theorem serves_comparison (h : Inside ts p) : Serves ts Code.comparison p Parser.comparison := by
  unfold Code.comparison Parser.comparison
  have htwo : ∀ operator : LogicalOp,
      Serves ts (do let _ ← Code.eat; let _ ← Code.eat; return some (operator, true)) p
        (do let _ ← Parser.eat; let _ ← Parser.eat; return some (operator, true)) := fun operator =>
    serves_eat_bind h fun _ hnext => serves_eat_bind hnext fun _ hnext => serves_pure hnext _
  refine serves_sees_bind h (serves_ite (fun _ => ?_) fun _ => ?_)
  · refine serves_eat_bind h fun _ hnext => ?_
    exact serves_skip_bind hnext (fun _ hnext => serves_pure hnext _) fun _ => serves_pure hnext _
  · refine serves_seesPair_bind (g := fun b => if b = true then _ else _) h (by decide) fun b =>
      serves_ite (fun _ => htwo _) fun _ => ?_
    refine serves_seesPair_bind (g := fun b => if b = true then _ else _) h (by decide) fun b =>
      serves_ite (fun _ => htwo _) fun _ => ?_
    exact serves_pure h _

/-- The arguments of a call are words in their parentheses. -/
theorem arguments_past {expr : Parser Expr} (hexpr : Sound expr .expression) {args : List Expr}
    {c c' : Cursor} (h : Gives (Parser.arguments expr) c args c') : ∃ w, Past c w c' ∧ w ≠ [] := by
  obtain ⟨t, d, u, d', ht, _, hu, _, ⟨_, rfl⟩ | ⟨_, first, d₁, others, hfirst, hothers, _⟩⟩ :=
    gives_arguments.mp h
  · exact ⟨_, ht.trans hu, List.cons_ne_nil _ _⟩
  · obtain ⟨v, hv, hd⟩ := hexpr _ _ _ hfirst
    obtain ⟨w, hw, _⟩ := moreArguments_sound hexpr _ hd hothers
    exact ⟨_, (ht.trans (hv.trans hw)).trans hu, List.cons_ne_nil _ _⟩

/-- Whoever takes a word goes on. -/
theorem index_lt_of_past {w : List Token} (hp : Inside ts p) (hq : Inside ts q)
    (h : Past (cursorAt ts p) w (cursorAt ts q)) (hw : w ≠ []) : p.index < q.index := by
  have hlength := h.length_eq
  have hpos := List.length_pos_iff.mpr hw
  rw [rest_length hp, rest_length hq] at hlength
  omega

section Layers

variable (hexpr : Reliable ts d .expression)
include hexpr

theorem primary_reliable : Reliable ts d .primary := by
  refine reliable_of_serves fun p n hp => ?_
  simp only [Routine.code, readerWithin, Parser.primary]
  refine serves_peek_bind hp.inside ?_
  cases hk : (cursorAt ts p).current.kind with
  | identifier => exact serves_eat_bind hp.inside fun _ hnext => serves_pure hnext _
  | string => exact serves_eat_bind hp.inside fun _ hnext => serves_pure hnext _
  | number =>
    refine serves_eat_bind hp.inside fun _ hnext => ?_
    cases Decimal.read? (cursorAt ts p).current.text.toList with
    | none => exact serves_failAt hnext _ _
    | some x => exact serves_pure hnext _
  | openParen =>
    refine serves_eat_bind hp.inside fun _ hnext => ?_
    refine ((hp.next hnext).serves hexpr).bind fun e q hq _ _ => ?_
    exact serves_expect_bind hq fun _ hnext => serves_pure hnext _
  | _ => exact serves_failAt hp.inside _ _

theorem serves_dotMember {n : Counts} (hp : Ready ts d p n) :
    Serves ts Code.dotMember p (Parser.dotMember (Parser.expressionWithin n.nesting)) := by
  refine serves_peek_bind hp.inside ?_
  refine (hp.serves (primary_reliable hexpr)).bind fun e q hq _ _ => ?_
  cases e with
  | identifier name => exact serves_pure hq _
  | _ => exact serves_failAt hq _ _

theorem memberTail_reliable (object : Expr) : Reliable ts d (.memberTail object) := by
  refine reliable_of_links (fun object p n hp ih => ?_) object
  simp only [Routine.code, readerWithin, Parser.memberTail]
  refine serves_peek_bind hp.inside ?_
  cases hk : (cursorAt ts p).current.kind with
  | dot =>
    refine serves_descend_bind hp.inside fun hdeeper => serves_eat_bind hdeeper fun _ hnext => ?_
    have hq := (hp.further hdeeper (further_deeper p)).next hnext
    refine (serves_dotMember hexpr hq).bind fun name q hq hpq _ => ?_
    obtain ⟨henough, htail⟩ := ih q hq hpq
    exact serves_ask (htail _) henough
  | openBracket =>
    refine serves_descend_bind hp.inside fun hdeeper => serves_eat_bind hdeeper fun _ hnext => ?_
    have hq := (hp.further hdeeper (further_deeper p)).next hnext
    refine (hq.serves hexpr).bind fun key q hq hpq _ => serves_expect_bind hq fun _ hnext => ?_
    obtain ⟨henough, htail⟩ := ih q.next hnext (hpq.trans (further_next q))
    exact serves_ask (htail _) henough
  | _ => exact serves_pure hp.inside _

theorem memberChain_reliable : Reliable ts d .memberChain := by
  refine reliable_of_serves fun p n hp => ?_
  simp only [Routine.code, readerWithin, Parser.memberChain]
  refine (hp.serves (primary_reliable hexpr)).bind fun first q hq hpq _ => ?_
  have hq := hp.further hq hpq
  have htail := memberTail_reliable hexpr first q hq.inside hq.depth_le
  refine (serves_leveled hq.inside htail hq.enough.with_links).bind fun object o ho hqo _ => ?_
  have ho := hq.further ho hqo
  refine serves_seesAssignment_bind ho.inside fun b => serves_ite (fun _ => ?_) fun _ =>
    serves_pure ho.inside _
  refine serves_eat_bind ho.inside fun _ hnext => ?_
  exact ((ho.next hnext).serves hexpr).bind fun value q hq _ _ => serves_assignTo hq _ _ _

theorem moreArguments_reliable : Reliable ts d .moreArguments := by
  refine reliable_of_turns (fun _ _ _ _ => rfl) fun p n hp ih => ?_
  simp only [Routine.code, readerWithin, Parser.moreArguments]
  refine serves_skip_bind hp.inside (fun _ hnext => ?_) fun _ => serves_pure hp.inside _
  refine ((hp.next hnext).serves hexpr).bind fun e q hq hpq _ => ?_
  exact (ih q hq hpq).bind fun others o ho _ _ => serves_pure ho _

theorem arguments_reliable : Reliable ts d .arguments := by
  refine reliable_of_serves fun p n hp => ?_
  simp only [Routine.code, readerWithin, Parser.arguments]
  refine serves_expect_bind hp.inside fun _ hnext => ?_
  have hp := hp.next hnext
  refine serves_sees_bind hnext (serves_ite (fun _ => ?_) fun _ => ?_)
  · exact serves_expect_bind hnext fun _ hclose => serves_pure hclose _
  · refine (hp.serves hexpr).bind fun first q hq hpq _ => serves_remaining_bind ?_
    have hq := hp.further hq hpq
    have hothers := moreArguments_reliable hexpr q hq.inside hq.depth_le
    refine (serves_ask hothers hq.enough.with_turns).bind fun others o ho _ _ => ?_
    exact serves_expect_bind ho fun _ hclose => serves_pure hclose _

theorem callTail_reliable (callee : Expr) : Reliable ts d (.callTail callee) := by
  refine reliable_of_links (fun callee p n hp ih => ?_) callee
  simp only [Routine.code, readerWithin, Parser.callTail]
  refine serves_sees_bind hp.inside (serves_ite (fun _ => ?_) fun _ => serves_pure hp.inside _)
  refine serves_descend_bind hp.inside fun hdeeper => ?_
  have hq := hp.further hdeeper (further_deeper p)
  refine (hq.serves (arguments_reliable hexpr)).bind fun args o ho hqo hargs => ?_
  obtain ⟨w, hw, hne⟩ := arguments_past (expressionWithin_sound _) hargs
  obtain ⟨henough, htail⟩ := ih o ho ⟨index_lt_of_past hq.inside ho hw hne, hqo.depth_le⟩
  exact serves_ask (htail _) henough

theorem callChain_reliable : Reliable ts d .callChain := by
  refine reliable_of_serves fun p n hp => ?_
  simp only [Routine.code, readerWithin, Parser.callChain]
  refine (hp.serves (memberChain_reliable hexpr)).bind fun first q hq hpq _ => ?_
  have hq := hp.further hq hpq
  have htail := callTail_reliable hexpr first q hq.inside hq.depth_le
  exact serves_leveled hq.inside htail hq.enough.with_links

omit hexpr in
theorem serves_operand {n : Counts} {sum : Bool} (hoperand : Reliable ts d (operand sum))
    (hp : Ready ts d p n) : Serves ts (Code.ask (operand sum)) p (operandWithin n.nesting sum) := by
  have hserves := hp.serves hoperand
  cases sum with
  | true => exact hserves
  | false => exact hserves

omit hexpr in
theorem foldTail_reliable {sum : Bool} (hoperand : Reliable ts d (operand sum)) (left : Expr) :
    Reliable ts d (.foldTail sum left) := by
  refine reliable_of_links (fun left p n hp ih => ?_) left
  simp only [Routine.code, readerWithin, Parser.foldTail]
  refine serves_seesOperator_bind hp.inside fun o => ?_
  cases o with
  | none => exact serves_pure hp.inside _
  | some operator =>
    refine serves_descend_bind hp.inside fun hdeeper => serves_eat_bind hdeeper fun _ hnext => ?_
    have hq := (hp.further hdeeper (further_deeper p)).next hnext
    refine (serves_operand hoperand hq).bind fun right q hq hpq _ => ?_
    obtain ⟨henough, htail⟩ := ih q hq hpq
    exact serves_ask (htail _) henough

omit hexpr in
theorem leftFold_reliable {sum : Bool} (hoperand : Reliable ts d (operand sum)) :
    Reliable ts d (.leftFold sum) := by
  refine reliable_of_serves fun p n hp => ?_
  simp only [Routine.code, readerWithin, Parser.leftFold]
  refine (serves_operand hoperand hp).bind fun first q hq hpq _ => ?_
  have hq := hp.further hq hpq
  have htail := foldTail_reliable hoperand first q hq.inside hq.depth_le
  exact serves_leveled hq.inside htail hq.enough.with_links

theorem products_reliable : Reliable ts d (.leftFold false) :=
  leftFold_reliable (callChain_reliable hexpr)

theorem sums_reliable : Reliable ts d (.leftFold true) :=
  leftFold_reliable (products_reliable hexpr)

theorem properties_reliable : Reliable ts d .properties := by
  refine reliable_of_turns (fun _ _ _ _ => rfl) fun p n hp ih => ?_
  simp only [Routine.code, readerWithin, Parser.properties]
  refine serves_sees_bind hp.inside (serves_sees_bind hp.inside (serves_ite
    (fun _ => serves_pure hp.inside _) fun _ => ?_))
  refine serves_expect_bind hp.inside fun _ hnext => ?_
  have hkey := hp.next hnext
  refine serves_skip_bind hnext (fun _ hcomma => ?_) fun _ => ?_
  · exact (ih _ hcomma (further_next _)).bind fun others q hq _ _ => serves_pure hq _
  refine serves_sees_bind hnext (serves_ite (fun _ => ?_) fun _ => ?_)
  · exact (ih _ hnext (.refl _)).bind fun others q hq _ _ => serves_pure hq _
  refine serves_expect_bind hnext fun _ hcolon => ?_
  refine ((hkey.next hcolon).serves hexpr).bind fun value q hq hpq _ => ?_
  have hpq := (further_next p.next).trans hpq
  refine serves_sees_bind hq (serves_ite (fun _ => ?_) fun _ => ?_)
  · refine serves_expect_bind hq fun _ hnext => ?_
    exact (ih _ hnext (hpq.trans (further_next q))).bind fun others o ho _ _ => serves_pure ho _
  · exact (ih q hq hpq).bind fun others o ho _ _ => serves_pure ho _

theorem objectLiteral_reliable : Reliable ts d .objectLiteral := by
  refine reliable_of_serves fun p n hp => ?_
  simp only [Routine.code, readerWithin, Parser.objectLiteral]
  refine serves_skip_bind hp.inside (fun _ hnext => serves_remaining_bind ?_) fun _ =>
    hp.serves (sums_reliable hexpr)
  have hp := hp.next hnext
  have hentries := properties_reliable hexpr _ hnext hp.depth_le
  refine (serves_ask hentries hp.enough.with_turns).bind fun entries q hq _ _ => ?_
  exact serves_skip_bind hq (fun _ hclose => serves_pure hclose _) fun _ => serves_failHere hq _

theorem elements_reliable : Reliable ts d .elements := by
  refine reliable_of_turns (fun _ _ _ _ => rfl) fun p n hp ih => ?_
  simp only [Routine.code, readerWithin, Parser.elements]
  refine serves_sees_bind hp.inside (serves_sees_bind hp.inside (serves_ite
    (fun _ => serves_pure hp.inside _) fun _ => ?_))
  refine (hp.serves hexpr).bind fun e q hq hpq _ => ?_
  refine serves_sees_bind hq (serves_ite (fun _ => ?_) fun _ => serves_pure hq _)
  refine serves_eat_bind hq fun _ hnext => ?_
  refine serves_sees_bind hnext (serves_ite (fun _ => serves_failAt hnext _ _) fun _ => ?_)
  have hfurther : Further p.next q.next := ⟨Nat.succ_le_succ hpq.index_le, hpq.depth_le⟩
  exact (ih _ hnext hfurther).bind fun others o ho _ _ => serves_pure ho _

theorem arrayLiteral_reliable : Reliable ts d .arrayLiteral := by
  refine reliable_of_serves fun p n hp => ?_
  simp only [Routine.code, readerWithin, Parser.arrayLiteral]
  refine serves_skip_bind hp.inside (fun _ hnext => serves_remaining_bind ?_) fun _ =>
    hp.serves (objectLiteral_reliable hexpr)
  have hp := hp.next hnext
  have hitems := elements_reliable hexpr _ hnext hp.depth_le
  refine (serves_ask hitems hp.enough.with_turns).bind fun items q hq _ _ => ?_
  exact serves_skip_bind hq (fun _ hclose => serves_pure hclose _) fun _ => serves_failHere hq _

theorem assignment_reliable : Reliable ts d .assignment := by
  refine reliable_of_links (r := fun _ : Unit => Routine.assignment) (fun _ p n hp ih => ?_) ()
  simp only [Routine.code, readerWithin, Parser.assignment]
  refine (hp.serves (arrayLiteral_reliable hexpr)).bind fun target q hq hpq _ => ?_
  refine serves_seesAssignment_bind hq fun b => serves_ite (fun _ => ?_) fun _ => serves_pure hq _
  refine serves_eat_bind hq fun _ hnext => ?_
  have hvalue : Inside ts (q.next.atDepth (q.depth + 1)) →
      Enough ts (q.next.atDepth (q.depth + 1)) n ∧ Keeps ts .assignment (q.next.atDepth (q.depth + 1)) := by
    intro hdeeper
    obtain ⟨henough, hkeeps⟩ :=
      ih _ hdeeper ⟨Nat.succ_le_succ hpq.index_le, Nat.succ_le_succ hpq.depth_le⟩
    exact ⟨henough, hkeeps ()⟩
  refine (serves_nested hnext hvalue).bind fun value o ho _ _ => ?_
  exact serves_assignTo ho _ _ _

theorem boolean_reliable : Reliable ts d .boolean := by
  refine reliable_of_serves fun p n hp => ?_
  simp only [Routine.code, readerWithin, Parser.boolean]
  have hleft := assignment_reliable hexpr p hp.inside hp.depth_le
  refine (serves_ask hleft hp.enough.with_links).bind fun left q hq hpq _ => ?_
  have hq := hp.further hq hpq
  refine serves_sees_bind hq.inside (serves_ite (fun _ => ?_) fun _ => serves_pure hq.inside _)
  refine serves_eat_bind hq.inside fun _ hnext => serves_peek_bind hnext ?_
  refine serves_ite (fun _ => serves_failAt hnext _ _) fun _ => ?_
  refine serves_eat_bind hnext fun _ hsecond => ?_
  exact (((hq.next hnext).next hsecond).serves hexpr).bind fun right o ho _ _ => serves_pure ho _

theorem logical_reliable : Reliable ts d .logical := by
  refine reliable_of_serves fun p n hp => ?_
  simp only [Routine.code, readerWithin, Parser.logical]
  refine (hp.serves (boolean_reliable hexpr)).bind fun left q hq hpq _ => ?_
  refine (serves_comparison hq).bind fun operator o ho hqo _ => ?_
  cases operator with
  | none => exact serves_pure ho _
  | some operator =>
    have ho := (hp.further hq hpq).further ho hqo
    exact (ho.serves hexpr).bind fun right o ho _ _ => serves_pure ho _

theorem negation_reliable : Reliable ts d .negation := by
  refine reliable_of_serves fun p n hp => ?_
  simp only [Routine.code, readerWithin, Parser.negation]
  refine serves_skip_bind hp.inside (fun _ hnext => ?_) fun _ => hp.serves (logical_reliable hexpr)
  exact ((hp.next hnext).serves hexpr).bind fun operand q hq _ _ => serves_pure hq _

end Layers

/-- Expressions one level down make expressions here. -/
theorem expression_step (h : Reliable ts (d + 1) .expression) : Reliable ts d .expression := by
  refine reliable_of_serves fun p n hp => ?_
  obtain ⟨nesting, links, turns⟩ := n
  have hdepth := hp.inside.depth_le
  have hnesting := hp.enough.nesting
  cases nesting with
  | zero => exact absurd hnesting (Nat.not_lt.mpr hdepth)
  | succ nesting =>
    simp only [Routine.code, readerWithin, Parser.expressionWithin]
    refine serves_nested (n := ⟨nesting, links, turns⟩) hp.inside fun hdeeper => ⟨?_, ?_⟩
    · have henough := hp.enough.further hp.inside hdeeper (further_deeper p)
      refine ⟨?_, henough.links, henough.turns⟩
      simp only at hnesting ⊢
      omega
    · exact negation_reliable h _ hdeeper (Nat.succ_le_succ hp.depth_le)

theorem expression_reliable (d : Nat) : Reliable ts d .expression :=
  reliable_downward (fun _ => expression_step) d

end Scriptlet.Proofs.RoutineExpressions
