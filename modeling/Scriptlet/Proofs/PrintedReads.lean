import Scriptlet.Proofs.Layers
import Scriptlet.Proofs.PrintedTokens

namespace Scriptlet.Proofs.PrintedReads
open Scriptlet.Program Scriptlet.Program.Parser Spelling Reading Layers PrintedTokens

/-- Tokens that are written so, wherever they stand. -/
def Spells (ts : List Token) (w : List Spelling) : Prop :=
  ts.map spelling = w

theorem Spells.nil_inv {ts : List Token} (h : Spells ts []) : ts = [] :=
  List.map_eq_nil_iff.mp h

theorem Spells.cons_inv {ts : List Token} {s : Spelling} {w : List Spelling} (h : Spells ts (s :: w)) :
    ∃ t us, ts = t :: us ∧ t.kind = s.1 ∧ t.text = s.2 ∧ Spells us w := by
  obtain ⟨t, us, rfl, ht, hus⟩ := List.map_eq_cons_iff.mp h
  exact ⟨t, us, rfl, congrArg Prod.fst ht, congrArg Prod.snd ht, hus⟩

theorem Spells.append_inv {ts : List Token} {v w : List Spelling} (h : Spells ts (v ++ w)) :
    ∃ us vs, ts = us ++ vs ∧ Spells us v ∧ Spells vs w :=
  List.map_eq_append_iff.mp h

theorem Spells.length_eq {ts : List Token} {w : List Spelling} (h : Spells ts w) :
    ts.length = w.length := by
  rw [← h, List.length_map]

/-- The tokens that an expression begins with. -/
def expressionStarts : List Token.Kind :=
  [.identifier, .number, .string, .openParen, .openBracket, .openBrace, .not]

theorem asOperand_start (e : Expr) :
    ∃ s w, e.asOperand e.words = s :: w ∧ s.1 ∈ primaryStarts := by
  unfold Expr.asOperand
  cases e with
  | number x => exact ⟨_, _, rfl, by simp [primaryStarts]⟩
  | text s => exact ⟨_, _, rfl, by simp [primaryStarts]⟩
  | identifier name => exact ⟨_, _, rfl, by simp [primaryStarts]⟩
  | _ => exact ⟨openParen, _, rfl, by decide⟩

theorem words_start (e : Expr) : ∃ s w, e.words = s :: w ∧ s.1 ∈ expressionStarts := by
  have hoperand : ∀ (l : Expr) (v : List Spelling), ∃ s w, l.asOperand l.words ++ v = s :: w ∧
      s.1 ∈ expressionStarts := by
    intro l v
    obtain ⟨s, w, hw, hs⟩ := asOperand_start l
    refine ⟨s, w ++ v, by rw [hw]; rfl, ?_⟩
    revert hs
    cases s.1 <;> decide
  cases e with
  | number x => exact ⟨_, _, rfl, by simp [expressionStarts]⟩
  | text s => exact ⟨_, _, rfl, by simp [expressionStarts]⟩
  | identifier name => exact ⟨_, _, rfl, by simp [expressionStarts]⟩
  | array es => exact ⟨openBracket, _, rfl, by decide⟩
  | object ps => exact ⟨openBrace, _, rfl, by decide⟩
  | assign name value => exact ⟨_, _, rfl, by simp [expressionStarts]⟩
  | not operand => exact ⟨_, _, rfl, by simp [expressionStarts]⟩
  | call callee arguments => exact hoperand callee _
  | boolean left op right => exact hoperand left _
  | binary left op right => exact hoperand left _
  | logical left op admitsEqual right => exact hoperand left _
  | member object key computed assignment =>
    cases assignment with
    | none => exact hoperand object _
    | some value => exact hoperand object _

theorem Spells.start {ts : List Token} {e : Expr} (h : Spells ts e.words) (us : List Token)
    (close : Token) (depth : Nat) :
    (Cursor.mk (ts ++ us) close depth).current.kind ∈ expressionStarts := by
  obtain ⟨s, w, hw, hs⟩ := words_start e
  rw [hw] at h
  obtain ⟨t, vs, rfl, hk, _, _⟩ := h.cons_inv
  have hcurrent : (Cursor.mk (t :: vs ++ us) close depth).current.kind = s.1 := hk
  rw [hcurrent]
  exact hs

theorem ne_of_mem {c : Cursor} {ks : List Token.Kind} (h : c.current.kind ∈ ks) {k : Token.Kind}
    (hk : k ∉ ks) : c.current.kind ≠ k :=
  fun heq => hk (heq ▸ h)

/-- A reader takes the tokens of an expression and gives it back, up to where it ends. -/
def Reads (p : Parser Expr) (depth : Nat) (e : Expr) : Prop :=
  ∀ ts us close, Spells ts e.words → AtEnd ⟨us, close, depth⟩ →
    Gives p ⟨ts ++ us, close, depth⟩ e ⟨us, close, depth⟩

/-- The same for an expression written as an operand, which parentheses close. -/
def ReadsOperand (p : Parser Expr) (depth : Nat) (e : Expr) : Prop :=
  ∀ ts us close, Spells ts (e.asOperand e.words) → AtEnd ⟨us, close, depth⟩ →
    Gives p ⟨ts ++ us, close, depth⟩ e ⟨us, close, depth⟩

/-- A primary expression ends by itself. -/
def ReadsPrimary (p : Parser Expr) (depth : Nat) (e : Expr) : Prop :=
  ∀ ts us close, Spells ts (e.asOperand e.words) →
    Gives p ⟨ts ++ us, close, depth⟩ e ⟨us, close, depth⟩

section Expressions

variable {expr : Parser Expr} {depth : Nat}

theorem leaf_readsPrimary {e : Expr} (hleaf : e.isLeaf = true) (he : e.Printable) :
    ReadsPrimary (primary expr) depth e := by
  intro ts us close h
  rw [Expr.asOperand, if_pos hleaf] at h
  cases e with
  | number x =>
    obtain ⟨t, vs, rfl, hk, htext, hvs⟩ := h.cons_inv
    obtain rfl := hvs.nil_inv
    have hread : Decimal.read? t.text.toList = some x := by
      rw [htext]
      exact IsLiteral.reads he
    exact gives_primary.mpr ⟨t, _, .cons .., .inr (.inl ⟨hk, ⟨x, hread, rfl⟩, rfl⟩)⟩
  | text s =>
    obtain ⟨t, vs, rfl, hk, htext, hvs⟩ := h.cons_inv
    obtain rfl := hvs.nil_inv
    exact gives_primary.mpr ⟨t, _, .cons .., .inr (.inr (.inl ⟨hk, by rw [htext], rfl⟩))⟩
  | identifier name =>
    obtain ⟨t, vs, rfl, hk, htext, hvs⟩ := h.cons_inv
    obtain rfl := hvs.nil_inv
    exact gives_primary.mpr ⟨t, _, .cons .., .inl ⟨hk, by rw [htext], rfl⟩⟩
  | _ => cases hleaf

theorem Reads.primary {e : Expr} (he : e.Printable) (h : Reads expr depth e) :
    ReadsPrimary (primary expr) depth e := by
  by_cases hleaf : e.isLeaf = true
  · exact leaf_readsPrimary hleaf he
  · intro ts us close hts
    rw [Expr.asOperand, if_neg hleaf] at hts
    obtain ⟨t, ts, rfl, hk, _, hts⟩ := hts.cons_inv
    obtain ⟨ws, vs, rfl, hws, hvs⟩ := hts.append_inv
    obtain ⟨u, vs, rfl, huk, _, hvs⟩ := hvs.cons_inv
    obtain rfl := hvs.nil_inv
    have hend : AtEnd ⟨u :: us, close, depth⟩ := by
      have hu : (Cursor.mk (u :: us) close depth).current.kind = .closeParen := huk
      rw [AtEnd, hu]
      decide
    have hinner := h ws (u :: us) close hws hend
    have hcursor : t :: (ws ++ [u]) ++ us = t :: (ws ++ u :: us) := by simp
    rw [hcursor]
    exact gives_primary.mpr ⟨t, _, .cons .., .inr (.inr (.inr ⟨hk, _, u, hinner, .cons .., huk⟩))⟩

theorem ofSymbol_symbol (op : BinaryOp) : BinaryOp.ofSymbol? op.symbol = some op := by
  cases op <;> rfl

theorem binary_reads {left right : Expr} {op : BinaryOp} (hdepth : depth < maxNesting)
    (hleft : ReadsPrimary (primary expr) depth left)
    (hright : ReadsPrimary (primary expr) (depth + 1) right) :
    Reads (negation expr) depth (.binary left op right) := by
  intro ts us close h hend
  obtain ⟨ls, vs, rfl, hls, hvs⟩ := Spells.append_inv h
  obtain ⟨os, rs, rfl, hos, hrs⟩ := hvs.append_inv
  obtain ⟨t, os, rfl, hk, htext, hos⟩ := hos.cons_inv
  obtain rfl := hos.nil_inv
  have hcursor : ls ++ ([t] ++ rs) ++ us = ls ++ t :: (rs ++ us) := by simp
  rw [hcursor]
  have hl := hleft ls (t :: (rs ++ us)) close hls
  have hkind : (Cursor.mk (t :: (rs ++ us)) close depth).current.kind = .binaryOperator := hk
  have hend' : AtEnd ⟨us, close, depth + 1⟩ := hend
  have hnone : ∀ accepted d, operatorAt accepted ⟨us, close, d⟩ = none := fun _ _ =>
    operatorAt_eq_none (hend.ne (by decide))
  have hcl := callChain_of_primary hl (ne_of_kind hkind (by decide)) (ne_of_kind hkind (by decide))
    (ne_of_kind hkind (by decide))
    (not_atAssignment (ne_of_kind hkind (by decide)))
  have hcr := callChain_of_primary (hright rs us close hrs) (hend'.ne (by decide)) (hend'.ne (by decide))
    (hend'.ne (by decide)) hend'.not_assignment
  have hop : ∀ accepted, operatorAt accepted ⟨t :: (rs ++ us), close, depth⟩ =
      (some op).filter accepted := by
    intro accepted
    have hsymbol : BinaryOp.ofSymbol? t.text = some op := by
      rw [htext]
      exact ofSymbol_symbol op
    exact (if_pos hk).trans (by rw [← hsymbol]; rfl)
  refine negation_of_additive ?_ (starts_of_primary hl) hend
  by_cases hadd : op.isAdditive = true
  · have hfirst : Gives (multiplicative expr) _ left _ :=
      leftFold_of_operand hcl (by rw [hop]; simp [BinaryOp.isMultiplicative, hadd])
    have hsecond : Gives (multiplicative expr) _ right _ := leftFold_of_operand hcr (hnone _ _)
    refine leftFold_of_tail hfirst (gives_foldTail_succ.mpr (.inl ⟨op, t, _, right, _, ?_, hdepth,
      .cons .., hsecond, foldTail_stops (hnone _ _)⟩))
    rw [hop]
    simp [hadd]
  · refine leftFold_of_operand (leftFold_of_tail hcl (gives_foldTail_succ.mpr (.inl ⟨op, t, _, right, _,
      ?_, hdepth, .cons .., hcr, foldTail_stops (hnone _ _)⟩))) (hnone _ _)
    rw [hop]
    simp [BinaryOp.isMultiplicative, hadd]

theorem boolean_reads {left right : Expr} {op : BooleanOp}
    (hleft : ReadsPrimary (primary expr) depth left) (hright : ReadsOperand expr depth right) :
    Reads (negation expr) depth (.boolean left op right) := by
  intro ts us close h hend
  obtain ⟨ls, vs, rfl, hls, hvs⟩ := Spells.append_inv h
  obtain ⟨os, rs, rfl, hos, hrs⟩ := hvs.append_inv
  obtain ⟨t, u, rfl, hk, huk, htext, hop⟩ : ∃ t u, os = [t, u] ∧ t.kind = .booleanOperator ∧
      u.kind = .booleanOperator ∧ u.text = t.text ∧
      op = if t.text = "&" then .and else .or := by
    cases op with
    | and =>
      obtain ⟨t, os, rfl, hk, htext, hos⟩ := hos.cons_inv
      obtain ⟨u, os, rfl, huk, hutext, hos⟩ := hos.cons_inv
      obtain rfl := hos.nil_inv
      exact ⟨t, u, rfl, hk, huk, hutext.trans htext.symm, by rw [htext]; rfl⟩
    | or =>
      obtain ⟨t, os, rfl, hk, htext, hos⟩ := hos.cons_inv
      obtain ⟨u, os, rfl, huk, hutext, hos⟩ := hos.cons_inv
      obtain rfl := hos.nil_inv
      exact ⟨t, u, rfl, hk, huk, hutext.trans htext.symm, by rw [htext]; rfl⟩
  have hcursor : ls ++ ([t, u] ++ rs) ++ us = ls ++ t :: u :: (rs ++ us) := by simp
  rw [hcursor]
  have hl := hleft ls (t :: u :: (rs ++ us)) close hls
  have hkind : (Cursor.mk (t :: u :: (rs ++ us)) close depth).current.kind = .booleanOperator := hk
  have hassign := assignment_of_primary hl (ne_of_kind hkind (by decide)) (ne_of_kind hkind (by decide))
    (ne_of_kind hkind (by decide))
    (ne_of_kind hkind (by decide)) (not_atAssignment (ne_of_kind hkind (by decide)))
  have hboolean := gives_boolean.mpr ⟨left, _, hassign, .inl ⟨t, _, u, _, right, .cons .., hk, .cons ..,
    huk, htext, hright rs us close hrs hend, rfl⟩⟩
  rw [← hop] at hboolean
  exact negation_of_logical (logical_of_boolean hboolean hend.not_comparison)
    (ne_of_starts (starts_of_primary hl) (by decide))

/-- A comparison stands at `c` and ends the operand before it. -/
def Compares (c : Cursor) (op : LogicalOp) (admitsEqual : Bool) (c' : Cursor) : Prop :=
  ComparisonStep c op admitsEqual c' ∧ c.current.kind ∈ [.logicalOperator, .equals, .not] ∧
    ¬AtAssignment c

theorem order_reads {op : LogicalOp} {symbol : String} {admitsEqual : Bool} {os rest : List Token}
    {close : Token} (hsymbol : (if symbol = "<" then LogicalOp.less else .greater) = op)
    (h : Spells os ((.logicalOperator, symbol) :: if admitsEqual then [equals] else []))
    (hrest : (Cursor.mk rest close depth).current.kind ≠ .equals) :
    Compares ⟨os ++ rest, close, depth⟩ op admitsEqual ⟨rest, close, depth⟩ := by
  obtain ⟨t, os, rfl, hk, htext, hos⟩ := h.cons_inv
  have hop : (if t.text = "<" then LogicalOp.less else .greater) = op := by
    rw [htext]
    exact hsymbol
  have hkind : (Cursor.mk (t :: os ++ rest) close depth).current.kind = .logicalOperator := hk
  refine ⟨?_, by rw [hkind]; decide, not_atAssignment (by rw [hkind]; decide)⟩
  cases admitsEqual with
  | false =>
    obtain rfl := hos.nil_inv
    rw [← hop]
    exact .order (.cons ..) hk hrest
  | true =>
    obtain ⟨u, os, rfl, huk, _, hos⟩ := hos.cons_inv
    obtain rfl := hos.nil_inv
    rw [← hop]
    exact .orderOrEqual (.cons ..) hk (.cons ..) huk

theorem comparison_reads {op : LogicalOp} {admitsEqual : Bool} {os rest : List Token} {close : Token}
    (hflag : op = .equal ∨ op = .notEqual → admitsEqual = true) (h : Spells os (op.words admitsEqual))
    (hrest : (Cursor.mk rest close depth).current.kind ≠ .equals) :
    Compares ⟨os ++ rest, close, depth⟩ op admitsEqual ⟨rest, close, depth⟩ := by
  cases op with
  | less => exact @order_reads _ _ "<" _ _ _ _ rfl (by cases admitsEqual <;> exact h) hrest
  | greater => exact @order_reads _ _ ">" _ _ _ _ rfl (by cases admitsEqual <;> exact h) hrest
  | equal =>
    obtain rfl := hflag (.inl rfl)
    obtain ⟨t, os, rfl, hk, _, hos⟩ := h.cons_inv
    obtain ⟨u, os, rfl, huk, _, hos⟩ := hos.cons_inv
    obtain rfl := hos.nil_inv
    have hkind : (Cursor.mk (t :: u :: rest) close depth).current.kind = .equals := hk
    -- two signs of equality are no assignment
    exact ⟨.equal (.cons ..) hk (.cons ..) huk,
      by rw [List.cons_append, List.singleton_append, hkind]; decide, fun ha => ha.2 huk⟩
  | notEqual =>
    obtain rfl := hflag (.inr rfl)
    obtain ⟨t, os, rfl, hk, _, hos⟩ := h.cons_inv
    obtain ⟨u, os, rfl, huk, _, hos⟩ := hos.cons_inv
    obtain rfl := hos.nil_inv
    have hkind : (Cursor.mk (t :: u :: rest) close depth).current.kind = .not := hk
    exact ⟨.notEqual (.cons ..) hk (.cons ..) huk,
      by rw [List.cons_append, List.singleton_append, hkind]; decide,
      not_atAssignment (by rw [List.cons_append, List.singleton_append, hkind]; decide)⟩

theorem Spells.operand_start {ts : List Token} {e : Expr} (h : Spells ts (e.asOperand e.words))
    (us : List Token) (close : Token) (depth : Nat) :
    (Cursor.mk (ts ++ us) close depth).current.kind ∈ primaryStarts := by
  obtain ⟨s, w, hw, hs⟩ := asOperand_start e
  rw [hw] at h
  obtain ⟨t, vs, rfl, hk, _, _⟩ := h.cons_inv
  have hcurrent : (Cursor.mk (t :: vs ++ us) close depth).current.kind = s.1 := hk
  rw [hcurrent]
  exact hs

theorem logical_reads {left right : Expr} {op : LogicalOp} {admitsEqual : Bool}
    (hflag : op = .equal ∨ op = .notEqual → admitsEqual = true)
    (hleft : ReadsPrimary (primary expr) depth left) (hright : ReadsOperand expr depth right) :
    Reads (negation expr) depth (.logical left op admitsEqual right) := by
  intro ts us close h hend
  obtain ⟨ls, vs, rfl, hls, hvs⟩ := Spells.append_inv h
  obtain ⟨os, rs, rfl, hos, hrs⟩ := hvs.append_inv
  rw [List.append_assoc, List.append_assoc]
  have hstart := hrs.operand_start us close depth
  obtain ⟨hstep, hkind, ha⟩ := comparison_reads hflag hos (ne_of_starts hstart (by decide))
  have hl := hleft ls (os ++ (rs ++ us)) close hls
  have hassign := assignment_of_primary hl (ne_of_mem hkind (by decide)) (ne_of_mem hkind (by decide))
    (ne_of_mem hkind (by decide)) (ne_of_mem hkind (by decide)) ha
  have hboolean := boolean_of_assignment hassign (ne_of_mem hkind (by decide))
  have hlogical := gives_logical.mpr ⟨left, _, hboolean, .inl ⟨op, admitsEqual, _, right, hstep,
    hright rs us close hrs hend, rfl⟩⟩
  exact negation_of_logical hlogical (ne_of_starts (starts_of_primary hl) (by decide))

theorem not_reads {operand : Expr} (h : ReadsOperand expr depth operand) :
    Reads (negation expr) depth (.not operand) := by
  intro ts us close hts hend
  obtain ⟨t, vs, rfl, hk, _, hvs⟩ := Spells.cons_inv hts
  exact gives_negation.mpr (.inl ⟨t, _, operand, .cons .., hk, h vs us close hvs hend, rfl⟩)

theorem assign_reads {name : String} {value : Expr} (h : Reads expr depth value) :
    Reads (negation expr) depth (.assign name value) := by
  intro ts us close hts hend
  obtain ⟨t, vs, rfl, hk, htext, hvs⟩ := Spells.cons_inv hts
  obtain ⟨u, vs, rfl, huk, _, hvs⟩ := hvs.cons_inv
  have hfirst : Gives (primary expr) ⟨t :: u :: (vs ++ us), close, depth⟩ (.identifier name)
      ⟨u :: (vs ++ us), close, depth⟩ :=
    gives_primary.mpr ⟨t, _, .cons .., .inl ⟨hk, by rw [htext], rfl⟩⟩
  have hkind : (Cursor.mk (u :: (vs ++ us)) close depth).current.kind = .equals := huk
  have htail : Gives (memberTail expr levels (.identifier name)) ⟨u :: (vs ++ us), close, depth⟩
      (.identifier name) ⟨u :: (vs ++ us), close, depth⟩ :=
    memberTail_stops (ne_of_kind hkind (by decide)) (ne_of_kind hkind (by decide))
  have ha : AtAssignment ⟨u :: (vs ++ us), close, depth⟩ :=
    ⟨huk, ne_of_mem (hvs.start us close depth) (by decide)⟩
  have hchain := gives_memberChain.mpr ⟨_, _, _, _, hfirst, gives_leveled.mpr ⟨_, htail, rfl⟩,
    .inl ⟨ha, u, _, value, .cons .., h vs us close hvs hend, .assign name value⟩⟩
  exact negation_of_member hchain (starts_of_primary hfirst) hend

/-- Behind an item of a list the list goes on with a comma or ends. -/
theorem Spells.continued_atEnd {ts us : List Token} {ws : List (List Spelling)} {close : Token}
    (h : Spells ts (continued ws)) (hend : AtEnd ⟨us, close, depth⟩) :
    AtEnd ⟨ts ++ us, close, depth⟩ := by
  cases ws with
  | nil =>
    obtain rfl := Spells.nil_inv h
    exact hend
  | cons w ws =>
    obtain ⟨t, vs, rfl, hk, _, _⟩ := Spells.cons_inv h
    have hkind : (Cursor.mk (t :: vs ++ us) close depth).current.kind = .comma := hk
    rw [AtEnd, hkind]
    decide

theorem atEnd_of_kind {c : Cursor} {k : Token.Kind} (h : c.current.kind = k)
    (hk : k ∈ [.closeParen, .closeBracket, .closeBrace, .comma, .semicolon, .eof]) : AtEnd c := by
  rw [AtEnd, h]
  exact hk

theorem moreArguments_reads {es : List Expr} (hes : ∀ e ∈ es, Reads expr depth e) {n : Nat}
    {ts us : List Token} {close : Token} (h : Spells ts (continued (Expr.wordsOfEach es)))
    (hn : ts.length ≤ n) (hus : (Cursor.mk us close depth).current.kind = .closeParen) :
    Gives (moreArguments expr n) ⟨ts ++ us, close, depth⟩ es ⟨us, close, depth⟩ := by
  induction es generalizing n ts with
  | nil =>
    obtain rfl := Spells.nil_inv h
    cases n with
    | zero => exact gives_pure.mpr ⟨rfl, rfl⟩
    | succ n => exact gives_moreArguments_succ.mpr (.inr ⟨ne_of_kind hus (by decide), rfl, rfl⟩)
  | cons e es ih =>
    obtain ⟨he, hes⟩ := List.forall_mem_cons.mp hes
    obtain ⟨t, ts, rfl, hk, _, hts⟩ := Spells.cons_inv h
    obtain ⟨vs, ws, rfl, hvs, hws⟩ := hts.append_inv
    simp only [List.length_cons, List.length_append] at hn
    obtain ⟨m, rfl⟩ : ∃ m, n = m + 1 := ⟨n - 1, by omega⟩
    have hend := hws.continued_atEnd (atEnd_of_kind hus (by decide))
    have hfirst := he vs (ws ++ us) close hvs hend
    have hothers := @ih hes m ws hws (by omega)
    have hcursor : t :: (vs ++ ws) ++ us = t :: (vs ++ (ws ++ us)) := by simp
    rw [hcursor]
    exact gives_moreArguments_succ.mpr (.inl ⟨t, _, e, _, es, .cons .., hk, hfirst, hothers, rfl⟩)

theorem arguments_reads {es : List Expr} (hes : ∀ e ∈ es, Reads expr depth e) {ts us : List Token}
    {close : Token} (h : Spells ts (enclosed (separated (Expr.wordsOfEach es)))) :
    Gives (arguments expr) ⟨ts ++ us, close, depth⟩ es ⟨us, close, depth⟩ := by
  obtain ⟨t, ts, rfl, hk, _, hts⟩ := Spells.cons_inv h
  obtain ⟨vs, ws, rfl, hvs, hws⟩ := hts.append_inv
  obtain ⟨u, ws, rfl, huk, _, hws⟩ := hws.cons_inv
  obtain rfl := hws.nil_inv
  have hcursor : t :: (vs ++ [u]) ++ us = t :: (vs ++ u :: us) := by simp
  have hclose : (Cursor.mk (u :: us) close depth).current.kind = .closeParen := huk
  rw [hcursor]
  cases es with
  | nil =>
    obtain rfl := Spells.nil_inv hvs
    exact gives_arguments.mpr ⟨t, _, u, _, .cons .., hk, .cons .., huk, .inl ⟨rfl, rfl⟩⟩
  | cons e es =>
    obtain ⟨he, hes⟩ := List.forall_mem_cons.mp hes
    obtain ⟨xs, ys, rfl, hxs, hys⟩ := Spells.append_inv hvs
    have hend := hys.continued_atEnd (atEnd_of_kind hclose (by decide))
    have hfirst := he xs (ys ++ u :: us) close hxs hend
    have hothers := moreArguments_reads hes (n := (ys ++ u :: us).length) hys (by simp) hclose
    have hstart := hxs.start (ys ++ u :: us) close depth
    rw [List.append_assoc]
    exact gives_arguments.mpr ⟨t, _, u, _, .cons .., hk, .cons .., huk,
      .inr ⟨ne_of_mem hstart (by decide), e, _, es, hfirst, hothers, rfl⟩⟩

theorem call_reads {callee : Expr} {arguments : List Expr} (hdepth : depth < maxNesting)
    (hcallee : ReadsPrimary (primary expr) depth callee)
    (hargs : ∀ e ∈ arguments, Reads expr (depth + 1) e) :
    Reads (negation expr) depth (.call callee arguments) := by
  intro ts us close h hend
  obtain ⟨ls, vs, rfl, hls, hvs⟩ := Spells.append_inv h
  rw [List.append_assoc]
  have hl := hcallee ls (vs ++ us) close hls
  have hopen : (Cursor.mk (vs ++ us) close depth).current.kind = .openParen := by
    obtain ⟨t, ws, rfl, hk, _, _⟩ := Spells.cons_inv hvs
    exact hk
  have hkind : (Cursor.mk (vs ++ us) close depth).current.kind = .openParen := hopen
  have hmember := memberChain_of_primary hl (ne_of_kind hkind (by decide)) (ne_of_kind hkind (by decide))
    (not_atAssignment (ne_of_kind hkind (by decide)))
  have hstop : Gives (callTail expr maxNesting (.call callee arguments)) ⟨us, close, depth + 1⟩
      (.call callee arguments) ⟨us, close, depth + 1⟩ := callTail_stops (hend.ne (by decide))
  have hcall := callChain_of_tail hmember (gives_callTail_succ.mpr (.inl ⟨hdepth, arguments, _, hopen,
    arguments_reads hargs hvs, hstop⟩))
  exact negation_of_call hcall (starts_of_primary hl) hend

/-- One member behind an object. -/
theorem memberStep_reads {object key : Expr} {computed : Bool} (hdepth : depth < maxNesting)
    (hname : computed = false → ∃ name, key = .identifier name) (hkey : Reads expr (depth + 1) key)
    {ts us : List Token} {close : Token} (h : Spells ts (memberWords computed key.words)) :
    MemberStep expr object ⟨ts ++ us, close, depth⟩ (.member object key computed none)
      ⟨us, close, depth + 1⟩ := by
  cases computed with
  | false =>
    obtain ⟨name, rfl⟩ := hname rfl
    obtain ⟨t, ts, rfl, hk, _, hts⟩ := Spells.cons_inv h
    obtain ⟨u, ts, rfl, huk, hutext, hts⟩ := hts.cons_inv
    obtain rfl := hts.nil_inv
    have hmember : Gives (dotMember expr) ⟨u :: us, close, depth + 1⟩ (.identifier name)
        ⟨us, close, depth + 1⟩ := gives_dotMember.mpr ⟨gives_primary.mpr ⟨u, _, .cons ..,
      .inl ⟨huk, by rw [hutext], rfl⟩⟩, name, rfl⟩
    exact .dot hdepth (.cons ..) hk hmember
  | true =>
    obtain ⟨t, ts, rfl, hk, _, hts⟩ := Spells.cons_inv h
    obtain ⟨vs, ws, rfl, hvs, hws⟩ := hts.append_inv
    obtain ⟨u, ws, rfl, huk, _, hws⟩ := hws.cons_inv
    obtain rfl := hws.nil_inv
    have hclose : (Cursor.mk (u :: us) close (depth + 1)).current.kind = .closeBracket := huk
    have hinner := hkey vs (u :: us) close hvs (atEnd_of_kind hclose (by decide))
    have hcursor : t :: (vs ++ [u]) ++ us = t :: (vs ++ u :: us) := by simp
    rw [hcursor]
    exact .index hdepth (.cons ..) hk hinner (.cons ..) huk

theorem member_reads {object key : Expr} {computed : Bool} (hdepth : depth < maxNesting)
    (hname : computed = false → ∃ name, key = .identifier name)
    (hobject : ReadsPrimary (primary expr) depth object) (hkey : Reads expr (depth + 1) key) :
    Reads (negation expr) depth (.member object key computed none) := by
  intro ts us close h hend
  obtain ⟨ls, vs, rfl, hls, hvs⟩ := Spells.append_inv h
  rw [List.append_assoc]
  have hl := hobject ls (vs ++ us) close hls
  have hstep : MemberStep expr object _ _ ⟨us, close, depth + 1⟩ :=
    memberStep_reads hdepth hname hkey hvs
  have hend' : AtEnd ⟨us, close, depth + 1⟩ := hend
  have hchain := memberChain_of_tail hl (gives_memberTail_succ.mpr (.inl ⟨_, _, hstep,
    memberTail_stops (hend'.ne (by decide)) (hend'.ne (by decide))⟩)) hend'.not_assignment
  exact negation_of_member hchain (starts_of_primary hl) hend

theorem memberWrite_reads {object key value : Expr} {computed : Bool} (hdepth : depth < maxNesting)
    (hname : computed = false → ∃ name, key = .identifier name)
    (hobject : ReadsPrimary (primary expr) depth object) (hkey : Reads expr (depth + 1) key)
    (hvalue : Reads expr depth value) :
    Reads (negation expr) depth (.member object key computed (some value)) := by
  intro ts us close h hend
  obtain ⟨ls, vs, rfl, hls, hvs⟩ := Spells.append_inv h
  obtain ⟨ks, ws, rfl, hks, hws⟩ := hvs.append_inv
  obtain ⟨t, ws, rfl, hk, _, hws⟩ := hws.cons_inv
  have hcursor : ls ++ (ks ++ t :: ws) ++ us = ls ++ (ks ++ t :: (ws ++ us)) := by simp
  rw [hcursor]
  have hl := hobject ls (ks ++ t :: (ws ++ us)) close hls
  have hstep : MemberStep expr object _ _ ⟨t :: (ws ++ us), close, depth + 1⟩ :=
    memberStep_reads hdepth hname hkey hks
  have hkind : (Cursor.mk (t :: (ws ++ us)) close (depth + 1)).current.kind = .equals := hk
  have htail : Gives (memberTail expr levels object) _ (.member object key computed none)
      ⟨t :: (ws ++ us), close, depth + 1⟩ := gives_memberTail_succ.mpr (.inl ⟨_, _, hstep,
    memberTail_stops (ne_of_kind hkind (by decide)) (ne_of_kind hkind (by decide))⟩)
  have ha : AtAssignment ⟨t :: (ws ++ us), close, depth⟩ :=
    ⟨hk, ne_of_mem (hws.start us close depth) (by decide)⟩
  have hchain := gives_memberChain.mpr ⟨_, _, _, _, hl, gives_leveled.mpr ⟨_, htail, rfl⟩,
    .inl ⟨ha, t, _, value, .cons .., hvalue ws us close hws hend, .member object key value computed⟩⟩
  exact negation_of_member hchain (starts_of_primary hl) hend

theorem elements_reads {es : List Expr} (hes : ∀ e ∈ es, Reads expr depth e) {n : Nat}
    {ts us : List Token} {close : Token} (h : Spells ts (separated (Expr.wordsOfEach es)))
    (hn : ts.length ≤ n) (hus : (Cursor.mk us close depth).current.kind = .closeBracket) :
    Gives (elements expr n) ⟨ts ++ us, close, depth⟩ es ⟨us, close, depth⟩ := by
  induction es generalizing n ts with
  | nil =>
    obtain rfl := Spells.nil_inv h
    cases n with
    | zero => exact gives_pure.mpr ⟨rfl, rfl⟩
    | succ n => exact gives_elements_succ.mpr (.inl ⟨.inr hus, rfl, rfl⟩)
  | cons e es ih =>
    obtain ⟨he, hes⟩ := List.forall_mem_cons.mp hes
    obtain ⟨vs, ws, rfl, hvs, hws⟩ := Spells.append_inv h
    have hstart := hvs.start (ws ++ us) close depth
    have hmore : ¬((Cursor.mk (vs ++ (ws ++ us)) close depth).current.kind = .eof ∨
        (Cursor.mk (vs ++ (ws ++ us)) close depth).current.kind = .closeBracket) :=
      not_or.mpr ⟨ne_of_mem hstart (by decide), ne_of_mem hstart (by decide)⟩
    have hpos : 0 < vs.length := by
      obtain ⟨s, w, hw, _⟩ := words_start e
      rw [hvs.length_eq, hw]
      exact Nat.succ_pos _
    rw [List.length_append] at hn
    obtain ⟨m, rfl⟩ : ∃ m, n = m + 1 := ⟨n - 1, by omega⟩
    have hfirst := he vs (ws ++ us) close hvs
      (hws.continued_atEnd (atEnd_of_kind hus (by decide)))
    rw [List.append_assoc]
    cases es with
    | nil =>
      obtain rfl := Spells.nil_inv hws
      exact gives_elements_succ.mpr (.inr ⟨hmore, e, _, hfirst,
        .inr ⟨ne_of_kind hus (by decide), rfl, rfl⟩⟩)
    | cons e' es =>
      obtain ⟨t, ws, rfl, hk, _, hws⟩ := Spells.cons_inv hws
      have hothers := @ih hes m ws hws (by simp only [List.length_cons] at hn; omega)
      have hnext : (Cursor.mk (ws ++ us) close depth).current.kind ≠ .closeBracket := by
        obtain ⟨xs, ys, rfl, hxs, _⟩ := Spells.append_inv hws
        rw [List.append_assoc]
        exact ne_of_mem (hxs.start (ys ++ us) close depth) (by decide)
      exact gives_elements_succ.mpr (.inr ⟨hmore, e, _, hfirst,
        .inl ⟨t, _, _, .cons .., hk, hnext, hothers, rfl⟩⟩)

theorem array_reads {es : List Expr} (hes : ∀ e ∈ es, Reads expr depth e) :
    Reads (negation expr) depth (.array es) := by
  intro ts us close h hend
  obtain ⟨t, ts, rfl, hk, _, hts⟩ := Spells.cons_inv h
  obtain ⟨vs, ws, rfl, hvs, hws⟩ := hts.append_inv
  obtain ⟨u, ws, rfl, huk, _, hws⟩ := hws.cons_inv
  obtain rfl := hws.nil_inv
  have hcursor : t :: (vs ++ [u]) ++ us = t :: (vs ++ u :: us) := by simp
  have hclose : (Cursor.mk (u :: us) close depth).current.kind = .closeBracket := huk
  have hopen : (Cursor.mk (t :: (vs ++ u :: us)) close depth).current.kind = .openBracket := hk
  rw [hcursor]
  have hitems := elements_reads hes (n := (vs ++ u :: us).length) hvs (by simp) hclose
  refine negation_of_array ?_ (ne_of_kind hopen (by decide)) hend
  exact gives_arrayLiteral.mpr (.inl ⟨t, _, es, _, u, .cons .., hk, hitems, .cons .., huk, rfl⟩)

theorem entry_reads {p : Property} (hp : ∀ key value, p = .valued key value → Reads expr depth value)
    {ts us : List Token} {close : Token} (h : Spells ts p.words) :
    ((Cursor.mk us close depth).current.kind = .closeBrace →
      EntryStep expr ⟨ts ++ us, close, depth⟩ p ⟨us, close, depth⟩) ∧
    ∀ t vs, us = t :: vs → t.kind = .comma →
      EntryStep expr ⟨ts ++ us, close, depth⟩ p ⟨vs, close, depth⟩ := by
  cases p with
  | shorthand key =>
    obtain ⟨t, ts, rfl, hk, htext, hts⟩ := Spells.cons_inv h
    obtain rfl := hts.nil_inv
    obtain rfl : t.text = key := htext
    constructor
    · intro hus
      exact .bareLast (.cons ..) hk hus
    · rintro u vs rfl huk
      exact .bare (.cons ..) hk (.cons ..) huk
  | valued key value =>
    obtain ⟨t, ts, rfl, hk, htext, hts⟩ := Spells.cons_inv h
    obtain ⟨u, ts, rfl, huk, _, hts⟩ := hts.cons_inv
    obtain rfl : t.text = key := htext
    have hvalue := hp _ _ rfl
    constructor
    · intro hus
      exact .valuedLast (.cons ..) hk (.cons ..) huk
        (hvalue ts us close hts (atEnd_of_kind hus (by decide))) hus
    · rintro v vs rfl hvk
      have hkind : (Cursor.mk (v :: vs) close depth).current.kind = .comma := hvk
      exact .valued (.cons ..) hk (.cons ..) huk
        (hvalue ts (v :: vs) close hts (atEnd_of_kind hkind (by decide))) (.cons ..) hvk

theorem Spells.property_start {ts : List Token} {p : Property} (h : Spells ts p.words) :
    ∃ t vs, ts = t :: vs ∧ t.kind = .identifier := by
  cases p with
  | shorthand key =>
    obtain ⟨t, vs, rfl, hk, _⟩ := Spells.cons_inv h
    exact ⟨t, vs, rfl, hk⟩
  | valued key value =>
    obtain ⟨t, vs, rfl, hk, _⟩ := Spells.cons_inv h
    exact ⟨t, vs, rfl, hk⟩

theorem properties_reads {ps : List Property}
    (hps : ∀ p ∈ ps, ∀ key value, p = .valued key value → Reads expr depth value) {n : Nat}
    {ts us : List Token} {close : Token} (h : Spells ts (separated (Property.wordsOfEach ps)))
    (hn : ts.length ≤ n) (hus : (Cursor.mk us close depth).current.kind = .closeBrace) :
    Gives (properties expr n) ⟨ts ++ us, close, depth⟩ ps ⟨us, close, depth⟩ := by
  induction ps generalizing n ts with
  | nil =>
    obtain rfl := Spells.nil_inv h
    cases n with
    | zero => exact gives_pure.mpr ⟨rfl, rfl⟩
    | succ n => exact gives_properties_succ.mpr (.inl ⟨.inr hus, rfl, rfl⟩)
  | cons p ps ih =>
    obtain ⟨hp, hps⟩ := List.forall_mem_cons.mp hps
    obtain ⟨vs, ws, rfl, hvs, hws⟩ := Spells.append_inv h
    obtain ⟨hlast, hcomma⟩ := @entry_reads expr depth p hp vs (ws ++ us) close hvs
    obtain ⟨t, vs, rfl, hk⟩ := hvs.property_start
    have hkind : (Cursor.mk (t :: vs ++ (ws ++ us)) close depth).current.kind = .identifier := hk
    have hmore := not_or.mpr ⟨ne_of_kind (j := .eof) hkind (by decide),
      ne_of_kind (j := .closeBrace) hkind (by decide)⟩
    simp only [List.length_append, List.length_cons] at hn
    obtain ⟨m, rfl⟩ : ∃ m, n = m + 1 := ⟨n - 1, by omega⟩
    rw [List.append_assoc]
    cases ps with
    | nil =>
      obtain rfl := Spells.nil_inv hws
      have hstop := @ih hps m [] rfl (Nat.zero_le _)
      exact gives_properties_succ.mpr (.inr ⟨hmore, p, _, [], hlast hus, hstop, rfl⟩)
    | cons p' ps =>
      obtain ⟨u, ws, rfl, huk, _, hws⟩ := Spells.cons_inv hws
      have hothers := @ih hps m ws hws (by simp only [List.length_cons] at hn; omega)
      exact gives_properties_succ.mpr (.inr ⟨hmore, p, _, _, hcomma u _ rfl huk, hothers, rfl⟩)

theorem object_reads {ps : List Property}
    (hps : ∀ p ∈ ps, ∀ key value, p = .valued key value → Reads expr depth value) :
    Reads (negation expr) depth (.object ps) := by
  intro ts us close h hend
  obtain ⟨t, ts, rfl, hk, _, hts⟩ := Spells.cons_inv h
  obtain ⟨vs, ws, rfl, hvs, hws⟩ := hts.append_inv
  obtain ⟨u, ws, rfl, huk, _, hws⟩ := hws.cons_inv
  obtain rfl := hws.nil_inv
  have hcursor : t :: (vs ++ [u]) ++ us = t :: (vs ++ u :: us) := by simp
  have hclose : (Cursor.mk (u :: us) close depth).current.kind = .closeBrace := huk
  have hopen : (Cursor.mk (t :: (vs ++ u :: us)) close depth).current.kind = .openBrace := hk
  rw [hcursor]
  have hentries := properties_reads hps (n := (vs ++ u :: us).length) hvs (by simp) hclose
  refine negation_of_array ?_ (ne_of_kind hopen (by decide)) hend
  exact gives_arrayLiteral.mpr (.inr ⟨ne_of_kind hopen (by decide), gives_objectLiteral.mpr
    (.inl ⟨t, _, ps, _, u, .cons .., hk, hentries, .cons .., huk, rfl⟩)⟩)

end Expressions

/-- Sub-expressions with the levels that are left for them: as a full expression, one level further
down, as an operand that stands by itself, and as a full expression written as an operand. -/
structure ReadsBelow (expr : Parser Expr) (depth : Nat) (e : Expr) : Prop where
  full : Reads expr depth e
  deeper : Reads expr (depth + 1) e
  operand : ReadsOperand expr depth e

theorem Reads.operand {n depth : Nat} {e : Expr} (he : e.Printable) (hdepth : depth < maxNesting)
    (h : Reads (expressionWithin n) (depth + 1) e) : ReadsOperand (expressionWithin (n + 1)) depth e := by
  intro ts us close hts hend
  exact expressionWithin_of_negation hdepth (negation_of_primary (h.primary he ts us close hts) hend)

theorem height_le_of_mem {e : Expr} {es : List Expr} (h : e ∈ es) : e.height ≤ Expr.heightOfList es := by
  induction es with
  | nil => cases h
  | cons e' es ih =>
    rcases List.mem_cons.mp h with rfl | h
    · exact Nat.le_max_left _ _
    · exact Nat.le_trans (ih h) (Nat.le_max_right _ _)

theorem height_le_of_mem_valued {key : String} {value : Expr} {ps : List Property}
    (h : .valued key value ∈ ps) : value.height ≤ Property.heightOfList ps := by
  induction ps with
  | nil => cases h
  | cons p ps ih =>
    rcases List.mem_cons.mp h with rfl | h
    · exact Nat.le_max_left _ _
    · exact Nat.le_trans (ih h) (Nat.le_max_right _ _)

theorem printable_of_mem {e : Expr} {es : List Expr} (h : e ∈ es) (hes : Expr.AllPrintable es) :
    e.Printable := by
  induction es with
  | nil => cases h
  | cons e' es ih =>
    rcases List.mem_cons.mp h with rfl | h
    · exact hes.1
    · exact ih h hes.2

theorem printable_of_mem_valued {key : String} {value : Expr} {ps : List Property}
    (h : .valued key value ∈ ps) (hps : Property.AllPrintable ps) : value.Printable := by
  induction ps with
  | nil => cases h
  | cons p ps ih =>
    rcases List.mem_cons.mp h with rfl | h
    · exact hps.1.2
    · exact ih h hps.2

theorem height_pos (e : Expr) : 0 < e.height := by
  cases e with
  | member object key computed assignment =>
    cases assignment <;> simp only [Expr.height] <;> omega
  | _ =>
    simp only [Expr.height]
    omega

/-- An expression reads back wherever twice its height is left: an operand takes one level for its
parentheses, and one for the fold that it stands in. -/
theorem expr_reads (h : Nat) {e : Expr} {n depth : Nat} (hheight : e.height ≤ h) (he : e.Printable)
    (hn : 2 * h ≤ n) (hdepth : depth + 2 * h ≤ maxNesting + 1) :
    Reads (expressionWithin n) depth e := by
  induction h generalizing e n depth with
  | zero =>
    have hpos := height_pos e
    omega
  | succ h ih =>
    obtain ⟨m, rfl⟩ : ∃ m, n = m + 1 + 1 := ⟨n - 2, by omega⟩
    have hlevel : 0 < h → depth + 1 < maxNesting := fun _ => by omega
    have hbelow : ∀ x : Expr, x.height ≤ h → x.Printable →
        ReadsBelow (expressionWithin (m + 1)) (depth + 1) x := by
      intro x hx hp
      have hpos := height_pos x
      have hinner : Reads (expressionWithin m) (depth + 1 + 1) x := ih hx hp (by omega) (by omega)
      exact ⟨ih hx hp (by omega) (by omega), ih hx hp (by omega) (by omega),
        hinner.operand hp (hlevel (by omega))⟩
    have hnegation : Reads (negation (expressionWithin (m + 1))) (depth + 1) e := by
      cases e with
      | number x =>
        intro ts us close hts hend
        exact negation_of_primary (leaf_readsPrimary rfl he ts us close hts) hend
      | text s =>
        intro ts us close hts hend
        exact negation_of_primary (leaf_readsPrimary rfl he ts us close hts) hend
      | identifier name =>
        intro ts us close hts hend
        exact negation_of_primary (leaf_readsPrimary rfl he ts us close hts) hend
      | array es =>
        refine array_reads fun x hx => (hbelow x ?_ (printable_of_mem hx he)).full
        have hle := height_le_of_mem hx
        simp only [Expr.height] at hheight
        omega
      | object ps =>
        refine object_reads fun p hp key value heq => ?_
        subst heq
        refine (hbelow value ?_ (printable_of_mem_valued hp he)).full
        have hle := height_le_of_mem_valued hp
        simp only [Expr.height] at hheight
        omega
      | assign name value =>
        simp only [Expr.height] at hheight
        exact assign_reads (hbelow value (by omega) he.2).full
      | call callee arguments =>
        simp only [Expr.height] at hheight
        have hpos := height_pos callee
        have hcallee := hbelow callee (by omega) he.1
        refine call_reads (hlevel (by omega)) (hcallee.full.primary he.1) fun x hx => ?_
        have hle := height_le_of_mem hx
        exact (hbelow x (by omega) (printable_of_mem hx he.2)).deeper
      | member object key computed assignment =>
        have hpos := height_pos object
        cases assignment with
        | none =>
          simp only [Expr.height] at hheight
          obtain ⟨hobject, hkey, hname⟩ := he
          exact member_reads (hlevel (by omega)) hname
            ((hbelow object (by omega) hobject).full.primary hobject) (hbelow key (by omega) hkey).deeper
        | some value =>
          simp only [Expr.height] at hheight
          obtain ⟨⟨hobject, hkey, hname⟩, hvalue⟩ := he
          exact memberWrite_reads (hlevel (by omega)) hname
            ((hbelow object (by omega) hobject).full.primary hobject) (hbelow key (by omega) hkey).deeper
            (hbelow value (by omega) hvalue).full
      | boolean left op right =>
        simp only [Expr.height] at hheight
        exact boolean_reads ((hbelow left (by omega) he.1).full.primary he.1)
          (hbelow right (by omega) he.2).operand
      | binary left op right =>
        simp only [Expr.height] at hheight
        have hpos := height_pos left
        exact binary_reads (hlevel (by omega)) ((hbelow left (by omega) he.1).full.primary he.1)
          ((hbelow right (by omega) he.2).deeper.primary he.2)
      | logical left op admitsEqual right =>
        simp only [Expr.height] at hheight
        exact logical_reads he.2.2 ((hbelow left (by omega) he.1).full.primary he.1)
          (hbelow right (by omega) he.2.1).operand
      | not operand =>
        simp only [Expr.height] at hheight
        exact not_reads (hbelow operand (by omega) he).operand
    intro ts us close hts hend
    exact expressionWithin_of_negation (by omega) (hnegation ts us close hts hend)

end Scriptlet.Proofs.PrintedReads
