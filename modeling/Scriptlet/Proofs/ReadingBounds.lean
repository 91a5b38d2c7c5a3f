import Scriptlet.Proofs.Semicolons
import Scriptlet.Proofs.Layers
import Scriptlet.Proofs.RoutineStatements

namespace Scriptlet.Proofs.ReadingBounds
open Scriptlet.Program Reading GrammarSound GrammarStatements Routines RoutineRuns RoutineRules
open RoutineExpressions RoutineStatements Layers Semicolons

variable {α : Type} {ts : List Token} {p q : Place}

/-- A call of a routine at `start` is about to come back with a result. -/
inductive Returns : Moment → {α : Type} → Routine α → Place → Except ParseError α → Place → Prop where
  | mk {α β : Type} (r : Routine β) (start p : Place) (x : Except ParseError β)
      (next : Except ParseError β → Code α) (outer : Calls α) :
      Returns ⟨p, .done x, .within r start next outer⟩ r start x p

/-- What a call of a routine has come to. -/
structure Honoured (ts : List Token) (r : Routine α) (start : Place) (x : Except ParseError α) (p : Place) :
    Prop where
  /-- The result is that of the reader, with any counts that are large enough. -/
  read : ∀ k, Enough ts start k →
    (readerWithin k r).run (cursorAt ts start) = x.map fun v => (v, cursorAt ts p)
  /-- With a value, the counter is where it was; with an error, it is no lower. -/
  level : r.isTail = false → x.isOk = true → p.depth = start.depth
  no_lower : start.depth ≤ p.depth
  /-- A statement takes a token, or stands before a brace or an end. -/
  progress : r.isStatement = true → x.isOk = true → start.index < p.index ∨
    ∃ t, ts[p.index]? = some t ∧ (t.kind = .closeBrace ∨ t.kind = .eof)

/-- The index of the last token that the next act may look at. -/
def furthest (m : Moment) : Nat :=
  match m.code with
  | .lookNext _ => m.place.index + 1
  | _ => m.place.index

/-- What holds between any two acts of a reading. -/
structure Orderly (ts : List Token) (m : Moment) : Prop where
  index_le : m.place.index ≤ firstEnd ts
  in_range : m.place.index < ts.length
  furthest_le : furthest m ≤ firstEnd ts
  depth_le : m.place.depth ≤ maxNesting
  /-- It goes on or has ended, and is not stuck. -/
  moves : (step ts m).isSome = true ∨ m.answer?.isSome = true
  returns : ∀ ⦃α : Type⦄ ⦃r : Routine α⦄ ⦃start : Place⦄ ⦃x : Except ParseError α⦄ ⦃p : Place⦄,
    Returns m r start x p → Honoured ts r start x p

section Levels

variable {expr : Parser Expr} {c c' : Cursor}

theorem sound_past {rd : Parser α} {s : Grammar.Symbol α} {x : α} (hs : Sound rd s) (h : Gives rd c x c') :
    ∃ w, Past c w c' := by
  obtain ⟨w, hw, _⟩ := hs _ _ _ h
  exact ⟨w, hw⟩

theorem moreArguments_past (hexpr : Sound expr .expression) (n : Nat) {es : List Expr}
    (h : Gives (Parser.moreArguments expr n) c es c') : ∃ w, Past c w c' := by
  induction n generalizing c es with
  | zero =>
    obtain ⟨_, rfl⟩ := gives_pure.mp h
    exact ⟨[], .refl _⟩
  | succ n ih =>
    rcases gives_moreArguments_succ.mp h with ⟨t, d, e, d₁, others, ht, _, he, hothers, _⟩ | ⟨_, _, rfl⟩
    · obtain ⟨v, hv⟩ := sound_past hexpr he
      obtain ⟨w, hw⟩ := ih hothers
      exact ⟨_, ht.trans (hv.trans hw)⟩
    · exact ⟨[], .refl _⟩

theorem elements_past (hexpr : Sound expr .expression) (n : Nat) {es : List Expr}
    (h : Gives (Parser.elements expr n) c es c') : ∃ w, Past c w c' := by
  induction n generalizing c es with
  | zero =>
    obtain ⟨_, rfl⟩ := gives_pure.mp h
    exact ⟨[], .refl _⟩
  | succ n ih =>
    rcases gives_elements_succ.mp h with ⟨_, _, rfl⟩ | ⟨_, first, d, hfirst, h⟩
    · exact ⟨[], .refl _⟩
    · obtain ⟨u, hu⟩ := sound_past hexpr hfirst
      rcases h with ⟨t, d', others, ht, _, _, hothers, _⟩ | ⟨_, _, rfl⟩
      · obtain ⟨w, hw⟩ := ih hothers
        exact ⟨_, (hu.trans ht).trans hw⟩
      · exact ⟨u, hu⟩

theorem blockBody_past {statement : Parser (List Stmt)} (hstatement : Leading statement) {ss : List Stmt}
    (h : Gives (blockBody statement) c ss c') : ∃ w, Past c w c' := by
  unfold blockBody at h
  simp only [↓gives_expect_bind, ↓gives_remaining_bind, gives_bind, gives_pure] at h
  obtain ⟨t, d, ht, _, body, d₁, hbody, u, d₂, hu, _, _, rfl⟩ := h
  obtain ⟨w, hw⟩ := sound_past (statements_sound hstatement _) hbody
  exact ⟨_, (ht.trans hw).trans hu⟩

/-- Whatever is no tail of a chain takes a word and comes back to its level. -/
theorem reader_past {k : Counts} {r : Routine α} {x : α} (hr : r.isTail = false) (hn : Enough ts p k)
    (h : Gives (readerWithin k r) (cursorAt ts p) x c') : ∃ w, Past (cursorAt ts p) w c' := by
  have hexpr := expressionWithin_sound k.nesting
  have hblock : Sound (Parser.blockOf (Parser.statementWithin (k.nesting - 1))) .block :=
    blockOf_sound (statementWithin_leading _)
  cases r with
  | program =>
    obtain ⟨w, hw, _⟩ := topLevel_sound _ (Nat.le_refl _) (gives_remaining_bind.mp h)
    exact ⟨w, hw⟩
  | topLevel =>
    obtain ⟨w, hw, _⟩ := topLevel_sound _ hn.turns h
    exact ⟨w, hw⟩
  | statement =>
    obtain ⟨w, hw, _⟩ := statementWithin_leading _ _ _ _ h
    exact ⟨w, hw⟩
  | semicolons =>
    obtain ⟨w, hw, _⟩ := semicolons_past (cursorAt ts p)
    obtain rfl := gives_modify.mp h
    exact ⟨w, hw⟩
  | structDeclaration =>
    obtain ⟨w, hw, _⟩ := structDeclaration_sound h
    exact ⟨w, hw⟩
  | fields => exact sound_past (fields_sound _) h
  | declarations constant =>
    obtain ⟨w, hw, _⟩ := declarations_sound _ (Nat.lt_succ_of_le hn.turns) h
    exact ⟨w, hw⟩
  | functionDeclaration =>
    obtain ⟨w, hw, _⟩ := functionDeclaration_sound hblock h
    exact ⟨w, hw⟩
  | parameters => exact sound_past (parameters_sound _) h
  | returnStatement =>
    obtain ⟨w, hw, _⟩ := returnStatement_sound h
    exact ⟨w, hw⟩
  | ifStatement =>
    obtain ⟨w, hw, _⟩ := ifStatement_sound hblock h
    exact ⟨w, hw⟩
  | whileStatement =>
    obtain ⟨w, hw, _⟩ := whileStatement_sound hblock h
    exact ⟨w, hw⟩
  | condition =>
    obtain ⟨t, d, d₁, u, ht, _, htest, hu, _⟩ := gives_condition.mp h
    obtain ⟨w, hw⟩ := sound_past expression_sound htest
    exact ⟨_, (ht.trans hw).trans hu⟩
  | block => exact sound_past hblock h
  | blockBody => exact blockBody_past (statementWithin_leading _) h
  | statements => exact sound_past (statements_sound (statementWithin_leading _) _) h
  | expression => exact sound_past hexpr h
  | negation => exact sound_past (negation_sound hexpr) h
  | logical => exact sound_past (logical_sound hexpr) h
  | boolean => exact sound_past (boolean_sound hexpr) h
  | assignment => exact sound_past (assignment_sound hexpr _) h
  | arrayLiteral => exact sound_past (arrayLiteral_sound hexpr) h
  | elements => exact elements_past hexpr _ h
  | objectLiteral => exact sound_past (objectLiteral_sound hexpr) h
  | properties => exact sound_past (properties_sound hexpr _) h
  | leftFold sum =>
    cases sum with
    | true => exact sound_past (additive_sound hexpr) h
    | false => exact sound_past (multiplicative_sound hexpr) h
  | callChain => exact sound_past (callChain_sound hexpr) h
  | arguments =>
    obtain ⟨w, hw, _⟩ := arguments_past hexpr h
    exact ⟨w, hw⟩
  | moreArguments => exact moreArguments_past hexpr _ h
  | memberChain => exact sound_past (memberChain_sound hexpr) h
  | primary => exact sound_past (primary_sound hexpr) h
  | foldTail sum left => cases hr
  | callTail callee => cases hr
  | memberTail object => cases hr

end Levels

section Acts

theorem statement_stands {k : Counts} {x : List Stmt} (hp : Inside ts p) (hq : Inside ts q)
    (h : Gives (Parser.statementWithin k.nesting) (cursorAt ts p) x (cursorAt ts q)) :
    p.index < q.index ∨ ∃ t, ts[q.index]? = some t ∧ (t.kind = .closeBrace ∨ t.kind = .eof) := by
  obtain ⟨u, hu, htake, _⟩ := statementWithin_leading _ _ _ _ h
  by_cases hnil : u = []
  · subst hnil
    have hsame : cursorAt ts p = cursorAt ts q := hu
    exact .inr ⟨_, getElem?_index hq, hsame ▸ htake rfl⟩
  · exact .inl (index_lt_of_past hp hq hu hnil)

/-- A call that is kept is honoured. -/
theorem honoured_of_kept {r : Routine α} {x : Except ParseError α} (hp : Inside ts p) (h : Kept ts r p x q) :
    Honoured ts r p x q := by
  have hn := enough_lasting hp
  have hfollows := h.follows _ hn
  refine ⟨h.follows, fun hr hx => ?_, h.further.depth_le, fun hr hx => ?_⟩
  · cases x with
    | error e => cases hx
    | ok v =>
      obtain ⟨w, hw⟩ := reader_past hr hn hfollows
      exact hw.depth_eq
  · cases x with
    | error e => cases hx
    | ok v =>
      cases r with
      | statement => exact statement_stands hp h.inside hfollows
      | _ => cases hr

/-- Acts from one moment to another, with every moment before the last in order. -/
inductive Path (ts : List Token) : Moment → Moment → Prop where
  | here (m : Moment) : Path ts m m
  | act {m m' m'' : Moment} (horder : Orderly ts m) (hstep : step ts m = some m') (h : Path ts m' m'') :
      Path ts m m''

theorem Path.trans {m m' m'' : Moment} (h : Path ts m m') (g : Path ts m' m'') : Path ts m m'' := by
  induction h with
  | here m => exact g
  | act horder hstep _ ih => exact .act horder hstep (ih g)

/-- Whether no act is left. -/
def isDone : Code α → Bool
  | .done _ => true
  | _ => false

/-- A moment in the midst of a routine. -/
theorem orderly_amid {m m' : Moment} (h : Inside ts m.place) (hfar : furthest m ≤ firstEnd ts)
    (hstep : step ts m = some m') (hamid : isDone m.code = false) : Orderly ts m := by
  refine ⟨h.index_le, h.index_le.trans_lt h.closed, hfar, h.depth_le, .inl (hstep ▸ rfl), ?_⟩
  intro α r start x p hr
  cases hr
  cases hamid

/-- Acts that run to their end make a path, whatever calls are under way. -/
theorem path_of_runs {c : Code α} {x : Except ParseError α} (h : Runs ts c p x q) (hp : Inside ts p)
    (calls : Calls α) : Path ts ⟨p, c, calls⟩ ⟨q, .done x, calls⟩ := by
  induction h with
  | done x p => exact .here _
  | @look α next p q x t ht _ ih =>
    have hstep : step ts ⟨p, .look next, calls⟩ = some ⟨p, next t, calls⟩ := by
      simp only [step, ht, Option.map_some]
    exact .act (orderly_amid hp hp.index_le hstep rfl) hstep (ih hp calls)
  | @lookNext α next p q x hlt _ ih =>
    have hstep : step ts ⟨p, .lookNext next, calls⟩ = some ⟨p, next ts[p.index + 1]?, calls⟩ := rfl
    exact .act (orderly_amid hp hlt hstep rfl) hstep (ih hp calls)
  | @advance α next p q x hlt _ ih =>
    have hstep : step ts ⟨p, .advance next, calls⟩ = some ⟨p.next, next, calls⟩ := rfl
    exact .act (orderly_amid hp hp.index_le hstep rfl) hstep (ih (hp.next hlt) calls)
  | @level α next p q x _ ih =>
    have hstep : step ts ⟨p, .level next, calls⟩ = some ⟨p, next p.depth, calls⟩ := rfl
    exact .act (orderly_amid hp hp.index_le hstep rfl) hstep (ih hp calls)
  | @setLevel α next n p q x hn _ ih =>
    have hstep : step ts ⟨p, .setLevel n next, calls⟩ = some ⟨p.atDepth n, next, calls⟩ := rfl
    exact .act (orderly_amid hp hp.index_le hstep rfl) hstep (ih (hp.at_depth hn) calls)
  | @lower α next p q x hpos _ ih =>
    have hstep : step ts ⟨p, .lower next, calls⟩ = some ⟨p.atDepth (p.depth - 1), next, calls⟩ := by
      simp only [step, if_neg (Nat.ne_of_gt hpos)]
    exact .act (orderly_amid hp hp.index_le hstep rfl) hstep
      (ih (hp.at_depth ((Nat.sub_le _ _).trans hp.depth_le)) calls)
  | @call α β r next p q q' y x hr kept _ ihr ih =>
    have hq := kept.inside
    -- the one moment on the way at which a call comes back
    have hback : Orderly ts ⟨q, .done y, .within r p next calls⟩ := by
      refine ⟨hq.index_le, hq.index_le.trans_lt hq.closed, hq.index_le, hq.depth_le, .inl rfl, ?_⟩
      intro γ r' start x' p' hreturns
      cases hreturns
      exact honoured_of_kept hp kept
    have hcall : step ts ⟨p, .call r next, calls⟩ = some ⟨p, r.code, .within r p next calls⟩ := rfl
    have hreturn : step ts ⟨q, .done y, .within r p next calls⟩ = some ⟨q, next y, calls⟩ := rfl
    have hinner := ihr hp (.within r p next calls)
    exact .act (orderly_amid hp hp.index_le hcall rfl) hcall
      (hinner.trans (.act hback hreturn (ih hq calls)))

theorem after_stopped {m : Moment} (h : step ts m = none) (n : Nat) : after ts n m = m := by
  induction n with
  | zero => rfl
  | succ n ih =>
    rw [after, h]
    exact ih

theorem Path.reached {m m' : Moment} (h : Path ts m m') : ∃ n, after ts n m = m' := by
  induction h with
  | here m => exact ⟨0, rfl⟩
  | act _ hstep _ ih =>
    obtain ⟨n, hn⟩ := ih
    refine ⟨n + 1, ?_⟩
    rw [after, hstep]
    exact hn

/-- Every moment from the first on lies on the path, up to the one that stays. -/
theorem Path.orderly {m m' : Moment} (h : Path ts m m') (hlast : Orderly ts m') (hstop : step ts m' = none)
    (n : Nat) : Orderly ts (after ts n m) := by
  induction h generalizing n with
  | here m =>
    rw [after_stopped hstop]
    exact hlast
  | act horder hstep _ ih =>
    cases n with
    | zero => exact horder
    | succ n =>
      rw [after, hstep]
      exact ih hlast hstop n

end Acts

section Tokens

theorem completed_closed (tokens : List Token) : firstEnd (completed tokens) < (completed tokens).length := by
  refine List.findIdx_lt_length_of_exists ?_
  unfold completed
  split
  · rename_i hlast
    obtain ⟨t, ht, hk⟩ := (Option.any_eq_true _ _).mp hlast
    exact ⟨t, List.mem_of_getLast? ht, hk⟩
  · exact ⟨_, List.mem_append_right _ List.mem_cons_self, rfl⟩

theorem split_at_end (h : firstEnd ts < ts.length) :
    ∃ w z more, ts = w ++ z :: more ∧ (∀ t ∈ w, t.kind ≠ .eof) ∧ z.kind = .eof := by
  obtain ⟨hk, w, more, heq, hw⟩ := List.find?_eq_some_iff_append.mp (find?_firstEnd h)
  exact ⟨w, _, more, heq, fun t ht => by simpa using hw t ht, by simpa using hk⟩

/-- The end that is put at the back changes nothing for the cursor. -/
theorem ofTokens_completed (tokens : List Token) :
    Cursor.ofTokens (completed tokens) = Cursor.ofTokens tokens := by
  unfold completed
  split
  · rfl
  by_cases hend : firstEnd tokens < tokens.length
  · obtain ⟨w, z, more, heq, hw, hz⟩ := split_at_end hend
    rw [heq, List.append_assoc, List.cons_append, ofTokens_append hw hz, ofTokens_append hw hz]
  · have hfree : ∀ t ∈ tokens, t.kind ≠ .eof := fun t ht hk =>
      hend (List.findIdx_lt_length_of_exists ⟨t, ht, beq_iff_eq.mpr hk⟩)
    rw [ofTokens_append hfree rfl, ofTokens_free hfree]
    rfl

/-- What stands behind the first end is no part of the cursor. -/
theorem ofTokens_cut (h : firstEnd ts < ts.length) (more : List Token) :
    Cursor.ofTokens (ts.take (firstEnd ts + 1) ++ more) = Cursor.ofTokens ts := by
  obtain ⟨w, z, others, rfl, hw, hz⟩ := split_at_end h
  have hlength : firstEnd (w ++ z :: others) = w.length := by
    unfold firstEnd
    rw [List.findIdx_append, List.findIdx_eq_length_of_false fun t ht => beq_false_of_ne (hw t ht),
      if_neg (Nat.lt_irrefl _), List.findIdx_cons, beq_iff_eq.mpr hz]
    exact Nat.zero_add _
  have htake : (w ++ z :: others).take (w.length + 1) = w ++ [z] := by
    rw [List.take_length_add_append]
    rfl
  rw [hlength, htake, List.append_assoc, List.cons_append, ofTokens_append hw hz, ofTokens_append hw hz]

theorem parse_congr {us : List Token} (h : Cursor.ofTokens ts = Cursor.ofTokens us) :
    parse ts = parse us := by
  unfold parse
  rw [h]

/-- The outermost routine reads what the parser reads. -/
theorem parse_of_program {k : Counts} {x : Except ParseError (List Stmt)}
    (h : Follows ts (readerWithin k .program) ⟨0, 0⟩ x q) : parse ts = x.map Program.mk := by
  have hprogram : ∀ c, (readerWithin k .program).run c = (Parser.topLevel c.rest.length).run c := fun _ => rfl
  have hstart : cursorAt ts ⟨0, 0⟩ = Cursor.ofTokens ts := rfl
  unfold Follows at h
  rw [hprogram, hstart] at h
  unfold parse
  simp only [h]
  cases x with
  | error e => rfl
  | ok body => rfl

end Tokens

/-- From the first moment a path leads to a result, and it is the one of the parser. -/
theorem reading_path (tokens : List Token) : ∃ x q, Inside (completed tokens) q ∧
    Path (completed tokens) ⟨⟨0, 0⟩, .ask .program, .outermost⟩ ⟨q, .done x, .outermost⟩ ∧
    parse tokens = x.map Program.mk := by
  have hstart : Inside (completed tokens) ⟨0, 0⟩ :=
    ⟨completed_closed tokens, Nat.zero_le _, Nat.zero_le _⟩
  obtain ⟨x, q, hrun, kept⟩ := program_reliable ⟨0, 0⟩ hstart (Nat.zero_le _)
  refine ⟨x, q, kept.inside, path_of_runs (.call hrun kept (.done x q)) hstart .outermost, ?_⟩
  rw [← parse_congr (ofTokens_completed tokens)]
  exact parse_of_program (kept.follows _ (enough_lasting hstart))

/-- The last moment has an answer and no call to come back from. -/
theorem orderly_last {x : Except ParseError (List Stmt)} (h : Inside ts q) :
    Orderly ts ⟨q, .done x, .outermost⟩ := by
  refine ⟨h.index_le, h.index_le.trans_lt h.closed, h.index_le, h.depth_le, .inr rfl, ?_⟩
  intro α r start y p hreturns
  cases hreturns

/-- Reading ends, for any tokens at all, with the program or the error that the parser gives. At every
moment the index is at most that of the first end, which the list has, and no act looks further; the
counter is at most the greatest depth, and no act takes it below zero. Every call of a routine that
comes back with a value leaves the counter as it was, and one of a statement takes a token or stands
before a brace or an end. What stands behind the first end changes nothing. -/
theorem reading_stays_inside (tokens : List Token) :
    (∃ n, (moment tokens n).answer? = some ((parse tokens).map Program.body)) ∧
    (∀ n, Orderly (completed tokens) (moment tokens n)) ∧
    ∀ more, parse ((completed tokens).take (firstEnd (completed tokens) + 1) ++ more) = parse tokens := by
  obtain ⟨x, q, hq, hpath, hparse⟩ := reading_path tokens
  refine ⟨?_, fun n => ?_, fun more => ?_⟩
  · obtain ⟨n, hn⟩ := hpath.reached
    refine ⟨n, ?_⟩
    rw [moment, hn, hparse]
    cases x with
    | error e => rfl
    | ok body => rfl
  · rw [moment]
    exact hpath.orderly (orderly_last hq) rfl n
  · exact parse_congr ((ofTokens_cut hq.closed more).trans (ofTokens_completed tokens))

end Scriptlet.Proofs.ReadingBounds
