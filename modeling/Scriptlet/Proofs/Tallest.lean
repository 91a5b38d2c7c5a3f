import Scriptlet.Proofs.Height
import Scriptlet.Proofs.Layers

namespace Scriptlet.Proofs.Tallest
open Scriptlet.Program Scriptlet.Program.Parser Scriptlet.Proofs.Height Reading Layers

def sign (kind : Token.Kind) (text : String) : Token :=
  ⟨kind, text, .start⟩

def leaf : Token := sign .identifier "a"

/-- The word `w`, `k` times. -/
def times (k : Nat) (w : List Token) : List Token :=
  (List.replicate k w).flatten

theorem times_succ (k : Nat) (w : List Token) : times (k + 1) w = w ++ times k w := by
  rw [times, List.replicate_succ, List.flatten_cons, times]

/-- What `k` turns of a fold make of its first operand. -/
def climb (f : Expr → Expr) : Nat → Expr → Expr
  | 0, e => e
  | k + 1, e => climb f k (f e)

theorem climb_height {f : Expr → Expr} (hf : ∀ e, 0 < e.height → (f e).height = e.height + 1)
    (k : Nat) {e : Expr} (he : 0 < e.height) : (climb f k e).height = e.height + k := by
  induction k generalizing e with
  | zero => rfl
  | succ k ih =>
    have hstep := hf e he
    rw [climb, ih (by omega), hstep]
    omega

/-- A fold runs over `k` copies of a word, a level for each, if one turn takes one copy and the fold
stops behind the last. A turn may look at the token behind its copy. -/
theorem climb_gives {tail : Nat → Expr → Parser Expr} {f : Expr → Expr} {w ts : List Token}
    {close : Token}
    (hturn : ∀ n e ts' depth x c', depth < maxNesting → (ts' = ts ∨ ∃ us, ts' = w ++ us) →
      Gives (tail n (f e)) ⟨ts', close, depth + 1⟩ x c' →
      Gives (tail (n + 1) e) ⟨w ++ ts', close, depth⟩ x c')
    (hstop : ∀ n e depth, Gives (tail (n + 1) e) ⟨ts, close, depth⟩ e ⟨ts, close, depth⟩)
    (k : Nat) {n depth : Nat} (e : Expr) (hn : k < n) (hdepth : depth + k ≤ maxNesting) :
    Gives (tail n e) ⟨times k w ++ ts, close, depth⟩ (climb f k e) ⟨ts, close, depth + k⟩ := by
  induction k generalizing n depth e with
  | zero =>
    obtain ⟨m, rfl⟩ : ∃ m, n = m + 1 := ⟨n - 1, by omega⟩
    exact hstop m e depth
  | succ k ih =>
    obtain ⟨m, rfl⟩ : ∃ m, n = m + 1 := ⟨n - 1, by omega⟩
    have hrest := @ih m (depth + 1) (f e) (by omega) (by omega)
    rw [Nat.add_assoc, Nat.add_comm 1 k] at hrest
    rw [times_succ, List.append_assoc]
    refine hturn m e _ depth _ _ (by omega) ?_ hrest
    cases k with
    | zero => exact .inl rfl
    | succ k => exact .inr ⟨times k w ++ ts, by rw [times_succ, List.append_assoc]⟩

theorem leaf_primary (expr : Parser Expr) (ts : List Token) (close : Token) (depth : Nat) :
    Gives (primary expr) ⟨leaf :: ts, close, depth⟩ (.identifier "a") ⟨ts, close, depth⟩ :=
  gives_primary.mpr ⟨leaf, _, .cons .., .inl ⟨rfl, rfl, rfl⟩⟩

def dotWord : List Token := [sign .dot ".", leaf]
def callWord : List Token := [sign .openParen "(", sign .closeParen ")"]
def productWord : List Token := [sign .binaryOperator "*", leaf]
def sumWord : List Token := [sign .binaryOperator "+", leaf]
def andWord : List Token := [sign .booleanOperator "&", sign .booleanOperator "&", leaf]

def member (e : Expr) : Expr := .member e (.identifier "a") false none
def call (e : Expr) : Expr := .call e []
def product (e : Expr) : Expr := .binary e .mul (.identifier "a")
def sum (e : Expr) : Expr := .binary e .add (.identifier "a")

section Turns

variable {expr : Parser Expr} {n depth : Nat} {e x : Expr} {ts : List Token} {close : Token} {c' : Cursor}

theorem member_turn (hdepth : depth < maxNesting)
    (h : Gives (memberTail expr n (member e)) ⟨ts, close, depth + 1⟩ x c') :
    Gives (memberTail expr (n + 1) e) ⟨dotWord ++ ts, close, depth⟩ x c' := by
  have hkey : Gives (dotMember expr) ⟨leaf :: ts, close, depth + 1⟩ (.identifier "a")
      ⟨ts, close, depth + 1⟩ := gives_dotMember.mpr ⟨leaf_primary expr ts close _, _, rfl⟩
  have hstep : MemberStep expr e ⟨dotWord ++ ts, close, depth⟩ (member e) ⟨ts, close, depth + 1⟩ :=
    .dot hdepth (.cons ..) rfl hkey
  exact gives_memberTail_succ.mpr (.inl ⟨_, _, hstep, h⟩)

theorem call_turn (hdepth : depth < maxNesting)
    (h : Gives (callTail expr n (call e)) ⟨ts, close, depth + 1⟩ x c') :
    Gives (callTail expr (n + 1) e) ⟨callWord ++ ts, close, depth⟩ x c' := by
  have hargs : Gives (arguments expr) ⟨callWord ++ ts, close, depth + 1⟩ [] ⟨ts, close, depth + 1⟩ :=
    gives_arguments.mpr ⟨_, _, _, _, .cons .., rfl, .cons .., rfl, .inl ⟨rfl, rfl⟩⟩
  exact gives_callTail_succ.mpr (.inl ⟨hdepth, [], _, rfl, hargs, h⟩)

theorem leaf_call (hk : (Cursor.mk ts close depth).current.kind = .binaryOperator ∨
      (Cursor.mk ts close depth).current.kind = .booleanOperator) :
    Gives (callChain expr) ⟨leaf :: ts, close, depth⟩ (.identifier "a") ⟨ts, close, depth⟩ := by
  have hne : ∀ k, k ≠ .binaryOperator → k ≠ .booleanOperator →
      (Cursor.mk ts close depth).current.kind ≠ k := by
    intro k hbinary hboolean heq
    rcases hk with hk | hk
    · exact hbinary (heq.symm.trans hk)
    · exact hboolean (heq.symm.trans hk)
  have hmember := memberChain_of_primary (leaf_primary expr ts close depth)
    (hne _ (by decide) (by decide)) (hne _ (by decide) (by decide))
    (not_atAssignment (hne _ (by decide) (by decide)))
  exact callChain_of_member hmember (hne _ (by decide) (by decide))

theorem product_turn (hdepth : depth < maxNesting)
    (hk : (Cursor.mk ts close (depth + 1)).current.kind = .binaryOperator)
    (h : Gives (foldTail BinaryOp.isMultiplicative (callChain expr) n (product e))
      ⟨ts, close, depth + 1⟩ x c') :
    Gives (foldTail BinaryOp.isMultiplicative (callChain expr) (n + 1) e)
      ⟨productWord ++ ts, close, depth⟩ x c' :=
  gives_foldTail_succ.mpr (.inl ⟨.mul, _, _, _, _, rfl, hdepth, .cons .., leaf_call (.inl hk), h⟩)

theorem sum_turn (hdepth : depth < maxNesting)
    (hk : (Cursor.mk ts close (depth + 1)).current.kind = .binaryOperator ∨
      (Cursor.mk ts close (depth + 1)).current.kind = .booleanOperator)
    (hop : operatorAt BinaryOp.isMultiplicative ⟨ts, close, depth + 1⟩ = none)
    (h : Gives (foldTail BinaryOp.isAdditive (multiplicative expr) n (sum e))
      ⟨ts, close, depth + 1⟩ x c') :
    Gives (foldTail BinaryOp.isAdditive (multiplicative expr) (n + 1) e)
      ⟨sumWord ++ ts, close, depth⟩ x c' := by
  have hoperand : Gives (multiplicative expr) ⟨leaf :: ts, close, depth + 1⟩ (.identifier "a")
      ⟨ts, close, depth + 1⟩ := leftFold_of_operand (leaf_call hk) hop
  exact gives_foldTail_succ.mpr (.inl ⟨.add, _, _, _, _, rfl, hdepth, .cons .., hoperand, h⟩)

end Turns

section Folds

variable {expr : Parser Expr} {k depth : Nat} {e : Expr} {ts ts' : List Token} {close : Token}

theorem members_give (hdepth : depth + k ≤ maxNesting)
    (hk : (Cursor.mk ts' close depth).current.kind = .openParen)
    (h : Gives (primary expr) ⟨ts, close, depth⟩ e ⟨times k dotWord ++ ts', close, depth⟩) :
    Gives (memberChain expr) ⟨ts, close, depth⟩ (climb member k e) ⟨ts', close, depth⟩ := by
  have hdot := ne_of_kind (j := .dot) hk (by decide)
  have hbracket := ne_of_kind (j := .openBracket) hk (by decide)
  have htail : Gives (memberTail expr levels e) ⟨times k dotWord ++ ts', close, depth⟩
      (climb member k e) ⟨ts', close, depth + k⟩ := by
    refine climb_gives (fun n e us d x c' hd _ h => member_turn hd h) (fun n e d => ?_) k e ?_ hdepth
    · exact memberTail_stops hdot hbracket
    · exact Nat.lt_succ_of_le (by omega)
  exact memberChain_of_tail h htail (not_atAssignment (ne_of_kind hk (by decide)))

theorem calls_give (hdepth : depth + k ≤ maxNesting)
    (hk : (Cursor.mk ts' close depth).current.kind ≠ .openParen)
    (h : Gives (memberChain expr) ⟨ts, close, depth⟩ e ⟨times k callWord ++ ts', close, depth⟩) :
    Gives (callChain expr) ⟨ts, close, depth⟩ (climb call k e) ⟨ts', close, depth⟩ := by
  have htail : Gives (callTail expr levels e) ⟨times k callWord ++ ts', close, depth⟩
      (climb call k e) ⟨ts', close, depth + k⟩ := by
    refine climb_gives (fun n e us d x c' hd _ h => call_turn hd h) (fun n e d => ?_) k e ?_ hdepth
    · exact callTail_stops hk
    · exact Nat.lt_succ_of_le (by omega)
  exact callChain_of_tail h htail

theorem products_give (hdepth : depth + k ≤ maxNesting)
    (hk : (Cursor.mk ts' close depth).current.kind = .binaryOperator)
    (hop : operatorAt BinaryOp.isMultiplicative ⟨ts', close, depth⟩ = none)
    (h : Gives (callChain expr) ⟨ts, close, depth⟩ e ⟨times k productWord ++ ts', close, depth⟩) :
    Gives (multiplicative expr) ⟨ts, close, depth⟩ (climb product k e) ⟨ts', close, depth⟩ := by
  have htail : Gives (foldTail BinaryOp.isMultiplicative (callChain expr) levels e)
      ⟨times k productWord ++ ts', close, depth⟩ (climb product k e) ⟨ts', close, depth + k⟩ := by
    refine climb_gives (fun n e us d x c' hd hus h => product_turn hd ?_ h) (fun n e d => ?_) k e ?_ hdepth
    · rcases hus with rfl | ⟨us, rfl⟩
      · exact hk
      · rfl
    · exact foldTail_stops hop
    · exact Nat.lt_succ_of_le (by omega)
  exact leftFold_of_tail h htail

theorem sums_give (hdepth : depth + k ≤ maxNesting)
    (hk : (Cursor.mk ts' close depth).current.kind = .booleanOperator)
    (h : Gives (multiplicative expr) ⟨ts, close, depth⟩ e ⟨times k sumWord ++ ts', close, depth⟩) :
    Gives (additive expr) ⟨ts, close, depth⟩ (climb sum k e) ⟨ts', close, depth⟩ := by
  have hnone : ∀ accepted d, operatorAt accepted ⟨ts', close, d⟩ = none := fun _ _ =>
    operatorAt_eq_none fun heq => nomatch heq.symm.trans hk
  have htail : Gives (foldTail BinaryOp.isAdditive (multiplicative expr) levels e)
      ⟨times k sumWord ++ ts', close, depth⟩ (climb sum k e) ⟨ts', close, depth + k⟩ := by
    refine climb_gives (fun n e us d x c' hd hus hmore => ?_) (fun n e d => ?_) k e ?_ hdepth
    · rcases hus with rfl | ⟨us, rfl⟩
      · exact sum_turn hd (.inr hk) (hnone _ _) hmore
      · exact sum_turn hd (.inl rfl) rfl hmore
    · exact foldTail_stops (hnone _ _)
    · exact Nat.lt_succ_of_le (by omega)
  exact leftFold_of_tail h htail

end Folds

/-- A word that takes `r + 1` levels for the highest tree they allow: its parentheses leave all of
them but one to the next word, and each of the four folds starts again from there. -/
def deepest : Nat → List Token
  | 0 => [leaf]
  | r + 1 => sign .openParen "(" :: (deepest r ++ sign .closeParen ")" :: (times (r + 1) dotWord ++
      (times (r + 1) callWord ++ (times (r + 1) productWord ++ (times (r + 1) sumWord ++ andWord)))))

def tallest : Nat → Expr
  | 0 => .identifier "a"
  | r + 1 => .boolean (climb sum (r + 1) (climb product (r + 1) (climb call (r + 1)
      (climb member (r + 1) (tallest r))))) .and (.identifier "a")

theorem tallest_height (r : Nat) : (tallest r).height = cap (r + 1) := by
  induction r with
  | zero => rfl
  | succ r ih =>
    have hpos : 0 < (tallest r).height := by
      rw [ih, cap_succ]
      omega
    have hmember := climb_height (f := member) (fun e he => by simp only [member, Expr.height]; omega)
      (r + 1) hpos
    have hcall := climb_height (f := call)
      (fun e he => by simp only [call, Expr.height, Expr.heightOfList]; omega) (r + 1)
      (e := climb member (r + 1) (tallest r)) (by omega)
    have hproduct := climb_height (f := product)
      (fun e he => by simp only [product, Expr.height]; omega) (r + 1)
      (e := climb call (r + 1) (climb member (r + 1) (tallest r))) (by omega)
    have hsum := climb_height (f := sum) (fun e he => by simp only [sum, Expr.height]; omega) (r + 1)
      (e := climb product (r + 1) (climb call (r + 1) (climb member (r + 1) (tallest r)))) (by omega)
    simp only [tallest, Expr.height]
    rw [cap_succ (r + 1)]
    omega

theorem leaf_gives {n depth : Nat} {ts : List Token} {close : Token} (hdepth : depth < maxNesting)
    (hend : AtEnd ⟨ts, close, depth⟩) :
    Gives (expressionWithin (n + 1)) ⟨leaf :: ts, close, depth⟩ (.identifier "a") ⟨ts, close, depth⟩ :=
  expressionWithin_of_negation hdepth (negation_of_primary (leaf_primary _ ts close _) hend)

theorem deepest_gives (r : Nat) {n depth : Nat} {ts : List Token} {close : Token} (hn : r < n)
    (hdepth : depth + (r + 1) ≤ maxNesting) (hend : AtEnd ⟨ts, close, depth⟩) :
    Gives (expressionWithin n) ⟨deepest r ++ ts, close, depth⟩ (tallest r) ⟨ts, close, depth⟩ := by
  induction r generalizing n depth ts with
  | zero =>
    obtain ⟨m, rfl⟩ : ∃ m, n = m + 1 := ⟨n - 1, by omega⟩
    exact leaf_gives (by omega) hend
  | succ r ih =>
    obtain ⟨m, rfl⟩ : ∃ m, n = m + 1 + 1 := ⟨n - 2, by omega⟩
    apply expressionWithin_of_negation (by omega)
    have hprimary : ∀ us, Gives (primary (expressionWithin (m + 1)))
        ⟨sign .openParen "(" :: (deepest r ++ sign .closeParen ")" :: us), close, depth + 1⟩ (tallest r)
        ⟨us, close, depth + 1⟩ := by
      intro us
      have hinner := @ih (m + 1) (depth + 1) (sign .closeParen ")" :: us) (by omega) (by omega)
        List.mem_cons_self
      exact gives_primary.mpr ⟨_, _, .cons .., .inr (.inr (.inr ⟨rfl, _, _, hinner, .cons .., rfl⟩))⟩
    have hlevels : depth + 1 + (r + 1) ≤ maxNesting := by omega
    have hmembers := members_give hlevels (by rw [times_succ]; rfl) (hprimary (times (r + 1) dotWord ++
      (times (r + 1) callWord ++ (times (r + 1) productWord ++ (times (r + 1) sumWord ++
        (andWord ++ ts))))))
    have hcalls := calls_give hlevels (by rw [times_succ]; exact fun heq => nomatch heq) hmembers
    have hproducts := products_give hlevels (by rw [times_succ]; rfl) (by rw [times_succ]; rfl) hcalls
    have hsums := sums_give hlevels rfl hproducts
    have hleft : Gives (assignment (expressionWithin (m + 1)) levels) _ _ _ :=
      assignment_of_array (arrayLiteral_of_additive hsums (fun heq => nomatch heq) (fun heq => nomatch heq))
        (not_atAssignment fun heq => nomatch heq)
    have hright : Gives (expressionWithin (m + 1)) ⟨leaf :: ts, close, depth + 1⟩ (.identifier "a")
        ⟨ts, close, depth + 1⟩ := leaf_gives (by omega) hend
    have hboolean : Gives (boolean (expressionWithin (m + 1))) _ (tallest (r + 1)) _ :=
      gives_boolean.mpr ⟨_, _, hleft, .inl ⟨_, _, _, _, _, .cons .., rfl, .cons .., rfl, rfl, hright, rfl⟩⟩
    have hlogical := logical_of_boolean hboolean (AtEnd.not_comparison hend)
    simpa [deepest] using negation_of_logical hlogical fun heq => nomatch heq

/-- Tokens that spell one expression spell the program of it alone. -/
theorem parse_of_expression {t z : Token} {ts : List Token} {e : Expr} (hstart : t.kind ∈ primaryStarts)
    (hts : ∀ u ∈ ts, u.kind ≠ .eof) (hz : z.kind = .eof)
    (h : Gives expression ⟨t :: ts, z, 0⟩ e ⟨[], z, 0⟩) :
    parse (t :: ts ++ [z]) = .ok ⟨[.expr e]⟩ := by
  have hkind : ∀ k ∉ primaryStarts, t.kind ≠ k := fun k hk heq => hk (heq ▸ hstart)
  have hw : ∀ u ∈ t :: ts, u.kind ≠ .eof := by
    intro u hu
    rcases List.mem_cons.mp hu with rfl | hu
    · exact hkind .eof (by decide)
    · exact hts u hu
  apply parse_of_topLevel hw hz
  have hfirst : Gives statement ⟨t :: ts, z, 0⟩ [.expr e] ⟨[], z, 0⟩ :=
    statementWith_of_expression hstart h
  exact gives_topLevel_succ.mpr (.inr ⟨hkind .eof (by decide), hkind .closeBrace (by decide), _, _, _,
    hfirst, topLevel_end hz, rfl⟩)

theorem times_no_eof {w : List Token} (hw : ∀ t ∈ w, t.kind ≠ .eof) (k : Nat) :
    ∀ t ∈ times k w, t.kind ≠ .eof := by
  induction k with
  | zero => exact fun t ht => nomatch ht
  | succ k ih =>
    intro t ht
    rw [times_succ] at ht
    rcases List.mem_append.mp ht with ht | ht
    · exact hw t ht
    · exact ih t ht

theorem deepest_no_eof (r : Nat) : ∀ t ∈ deepest r, t.kind ≠ .eof := by
  induction r with
  | zero => decide
  | succ r ih =>
    intro t ht
    simp only [deepest, List.mem_cons, List.mem_append] at ht
    rcases ht with rfl | ht | rfl | ht | ht | ht | ht | ht
    · decide
    · exact ih t ht
    · decide
    · exact times_no_eof (by decide) _ t ht
    · exact times_no_eof (by decide) _ t ht
    · exact times_no_eof (by decide) _ t ht
    · exact times_no_eof (by decide) _ t ht
    · exact (show ∀ u ∈ andWord, u.kind ≠ .eof by decide) t ht

theorem parse_deepest {r : Nat} (hr : r < maxNesting) :
    parse (deepest r ++ [.eof .start]) = .ok ⟨[.expr (tallest r)]⟩ := by
  have hgives : Gives expression ⟨deepest r ++ [], .eof .start, 0⟩ (tallest r) ⟨[], .eof .start, 0⟩ :=
    deepest_gives r (Nat.lt_succ_of_lt hr) (by omega) (by decide)
  have hno := deepest_no_eof r
  rw [List.append_nil] at hgives
  cases r with
  | zero => exact parse_of_expression (by decide) (fun u hu => hno u (List.mem_cons_of_mem _ hu)) rfl hgives
  | succ r => exact parse_of_expression (by decide) (fun u hu => hno u (List.mem_cons_of_mem _ hu)) rfl hgives

/-- The least bound on the height of all programs. The count of levels goes back to where it was
behind each fold, so it bounds the height by its square and not by itself. -/
theorem height_le_iff (n : Nat) : (∀ tokens p, parse tokens = .ok p → p.height ≤ n) ↔
    maxNesting * (2 * maxNesting - 1) ≤ n := by
  constructor
  · intro h
    have hle := h _ _ (parse_deepest (r := maxNesting - 1) (by decide))
    have hheight : Program.height ⟨[.expr (tallest (maxNesting - 1))]⟩ = cap maxNesting :=
      (heightOfList_singleton _).trans (tallest_height (maxNesting - 1))
    rw [hheight] at hle
    exact hle
  · intro hn tokens p h
    exact Nat.le_trans (height_le_of_parse h) hn

/-- A chain of members that uses up the levels. -/
def fullChain : Expr :=
  climb member (maxNesting - 1) (.identifier "a")

/-- A call of a full chain starts counting again. -/
theorem called_chain_exceeds_nesting :
    parse (leaf :: (times (maxNesting - 1) dotWord ++ callWord) ++ [.eof .start]) =
        .ok ⟨[.expr (call fullChain)]⟩ ∧
      maxNesting < Program.height ⟨[.expr (call fullChain)]⟩ := by
  constructor
  · refine parse_of_expression (by decide) ?_ rfl ?_
    · intro u hu
      rcases List.mem_append.mp hu with hu | hu
      · exact times_no_eof (by decide) _ u hu
      · exact (show ∀ u ∈ callWord, u.kind ≠ .eof by decide) u hu
    · apply expressionWithin_of_negation (by decide)
      have hmembers : Gives (memberChain (expressionWithin maxNesting)) _ fullChain _ :=
        members_give (by decide) rfl
          (leaf_primary _ (times (maxNesting - 1) dotWord ++ callWord) (.eof .start) 1)
      have hcall : Gives (callChain (expressionWithin maxNesting)) _ (call fullChain) ⟨[], .eof .start, 1⟩ :=
        calls_give (k := 1) (by decide) (fun heq => nomatch heq) hmembers
      exact negation_of_call hcall List.mem_cons_self (by decide)
  · have hchain : fullChain.height = 1 + (maxNesting - 1) :=
      climb_height (fun e he => by simp only [member, Expr.height]; omega) _ Nat.one_pos
    have hheight : Program.height ⟨[.expr (call fullChain)]⟩ = (call fullChain).height :=
      heightOfList_singleton _
    rw [hheight]
    simp only [call, Expr.height, Expr.heightOfList]
    omega

end Scriptlet.Proofs.Tallest
