import Scriptlet.Proofs.Grammar

namespace Scriptlet.Proofs.GrammarSound
open Scriptlet.Program Scriptlet.Program.Parser Reading Grammar

variable {α : Type} {expr : Parser Expr}

/-- Whatever a reader accepts is a word of its nonterminal: it takes exactly that word, gives the
tree of it, and comes back to the level where it started. -/
def Sound (p : Parser α) (s : Symbol α) : Prop :=
  ∀ c x c', Gives p c x c' → ∃ w, Past c w c' ∧ Derives s w x

theorem primary_sound (hexpr : Sound expr .expression) : Sound (primary expr) .primary := by
  intro c e c' h
  obtain ⟨t, d, ht, h⟩ := gives_primary.mp h
  rcases h with ⟨hk, rfl, rfl⟩ | ⟨hk, ⟨x, hx, rfl⟩, rfl⟩ | ⟨hk, rfl, rfl⟩ | ⟨hk, d', u, he, hu, huk⟩
  · exact ⟨[t], ht, .identifier hk⟩
  · exact ⟨[t], ht, .number hk hx⟩
  · exact ⟨[t], ht, .string hk⟩
  · obtain ⟨w, hw, hd⟩ := hexpr _ _ _ he
    exact ⟨[t] ++ w ++ [u], (ht.trans hw).trans hu, .parens hk hd huk⟩

/-- A member extends the chain before it, one level further down. -/
theorem memberStep_sound (hexpr : Sound expr .expression) {object e : Expr} {u : List Token}
    {c c' : Cursor} (hobject : Derives .chain u object) (h : MemberStep expr object c e c') :
    ∃ w, Past c w { c' with depth := c.depth } ∧ Derives .chain (u ++ w) e := by
  cases h with
  | dot hc ht hk hkey =>
    obtain ⟨hkey, name, rfl⟩ := gives_dotMember.mp hkey
    obtain ⟨w, hw, hd⟩ := primary_sound hexpr _ _ _ hkey
    exact ⟨_, (ht.trans hw).with_depth c.depth, .dot hobject hk hd⟩
  | index hc ht hk hkey hu huk =>
    obtain ⟨w, hw, hd⟩ := hexpr _ _ _ hkey
    exact ⟨_, ((ht.trans hw).trans hu).with_depth c.depth, .index hobject hk hd huk⟩

theorem memberTail_sound (hexpr : Sound expr .expression) (n : Nat) {object e : Expr}
    {u : List Token} {c c' : Cursor} (hobject : Derives .chain u object)
    (h : Gives (memberTail expr n object) c e c') :
    ∃ w, Past c w { c' with depth := c.depth } ∧ Derives .chain (u ++ w) e := by
  induction n generalizing object u c with
  | zero => exact (gives_failHere.mp h).elim
  | succ n ih =>
    rcases gives_memberTail_succ.mp h with ⟨more, d, hm, h⟩ | ⟨_, _, rfl, rfl⟩
    · obtain ⟨v, hv, hmore⟩ := memberStep_sound hexpr hobject hm
      obtain ⟨w, hw, hd⟩ := ih hmore h
      exact ⟨v ++ w, hv.trans (hw.with_depth c.depth), by simpa using hd⟩
    · exact ⟨[], .refl _, by simpa using hobject⟩

theorem memberChain_sound (hexpr : Sound expr .expression) : Sound (memberChain expr) .member := by
  intro c e c' h
  obtain ⟨first, d, object, d₁, hfirst, hmembers, h⟩ := gives_memberChain.mp h
  obtain ⟨u, hu, hprimary⟩ := primary_sound hexpr _ _ _ hfirst
  obtain ⟨d₂, htail, rfl⟩ := gives_leveled.mp hmembers
  obtain ⟨v, hv, hchain⟩ := memberTail_sound hexpr _ (.ofPrimary hprimary) htail
  rcases h with ⟨ha, t, d₃, value, ht, hvalue, he⟩ | ⟨_, rfl, rfl⟩
  · obtain ⟨w, hw, hd⟩ := hexpr _ _ _ hvalue
    exact ⟨_, ((hu.trans hv).trans ht).trans hw, .memberWrite hchain (ha.kind_eq ht) hd he⟩
  · exact ⟨_, hu.trans hv, .ofChain hchain⟩

/-- Behind a first expression, what else is listed makes one list with it. -/
theorem moreArguments_sound (hexpr : Sound expr .expression) (n : Nat) {first : Expr}
    {es : List Expr} {u : List Token} {c c' : Cursor} (hfirst : Derives .expression u first)
    (h : Gives (moreArguments expr n) c es c') :
    ∃ w, Past c w c' ∧ Derives .list (u ++ w) (first :: es) := by
  induction n generalizing first es u c with
  | zero =>
    obtain ⟨rfl, rfl⟩ := gives_pure.mp h
    exact ⟨[], .refl _, by simpa using Derives.listOne hfirst⟩
  | succ n ih =>
    rcases gives_moreArguments_succ.mp h with ⟨t, d, e, d₁, others, ht, hk, he, hothers, rfl⟩ |
        ⟨_, rfl, rfl⟩
    · obtain ⟨v, hv, hd⟩ := hexpr _ _ _ he
      obtain ⟨w, hw, hlist⟩ := ih hd hothers
      exact ⟨[t] ++ (v ++ w), ht.trans (hv.trans hw), by simpa using Derives.listMore hfirst hk hlist⟩
    · exact ⟨[], .refl _, by simpa using Derives.listOne hfirst⟩

theorem callTail_sound (hexpr : Sound expr .expression) (n : Nat) {callee e : Expr}
    {u : List Token} {c c' : Cursor} (hcallee : Derives .call u callee)
    (h : Gives (callTail expr n callee) c e c') :
    ∃ w, Past c w { c' with depth := c.depth } ∧ Derives .call (u ++ w) e := by
  induction n generalizing callee u c with
  | zero => exact (gives_failHere.mp h).elim
  | succ n ih =>
    rcases gives_callTail_succ.mp h with ⟨_, args, d, _, hargs, h⟩ | ⟨_, rfl, rfl⟩
    · obtain ⟨t, d₁, v, d₂, ht, htk, hv, hvk, hargs⟩ := gives_arguments.mp hargs
      have hcall : ∃ w, Past { c with depth := c.depth + 1 } w d ∧
          Derives .call (u ++ w) (.call callee args) := by
        rcases hargs with ⟨rfl, rfl⟩ | ⟨_, first, d₃, others, hfirst, hothers, rfl⟩
        · exact ⟨_, ht.trans hv, .emptyCall hcallee htk hvk⟩
        · obtain ⟨w, hw, hd⟩ := hexpr _ _ _ hfirst
          obtain ⟨w', hw', hlist⟩ := moreArguments_sound hexpr _ hd hothers
          exact ⟨_, (ht.trans (hw.trans hw')).trans hv, .callWith hcallee htk hlist hvk⟩
      obtain ⟨v, hv, hcall⟩ := hcall
      obtain ⟨w, hw, hd⟩ := ih hcall h
      exact ⟨v ++ w, (hv.with_depth c.depth).trans (hw.with_depth c.depth), by simpa using hd⟩
    · exact ⟨[], .refl _, by simpa using hcallee⟩

theorem callChain_sound (hexpr : Sound expr .expression) : Sound (callChain expr) .call := by
  intro c e c' h
  obtain ⟨first, d, hfirst, hmore⟩ := gives_bind.mp h
  obtain ⟨u, hu, hmember⟩ := memberChain_sound hexpr _ _ _ hfirst
  obtain ⟨d₁, htail, rfl⟩ := gives_leveled.mp hmore
  obtain ⟨w, hw, hd⟩ := callTail_sound hexpr _ (.ofMember hmember) htail
  exact ⟨u ++ w, hu.trans hw, hd⟩

theorem operator_of_operatorAt {accepted : BinaryOp → Bool} {c : Cursor} {t : Token} {op : BinaryOp}
    (h : operatorAt accepted c = some op) (ht : c.current = t) : Operator accepted t op := by
  subst ht
  unfold operatorAt at h
  split at h
  · rename_i hk
    obtain ⟨hop, ha⟩ := Option.filter_eq_some_iff.mp h
    exact ⟨hk, hop, ha⟩
  · contradiction

/-- Products and sums fold alike: `whole` is the layer of the fold, `part` that of its operands. -/
theorem foldTail_sound {accepted : BinaryOp → Bool} {operand : Parser Expr} {whole part : Symbol Expr}
    (hoperand : Sound operand part)
    (hfold : ∀ {t : Token} {u w : List Token} {l r : Expr} {op : BinaryOp}, Derives whole u l →
      Operator accepted t op → Derives part w r → Derives whole (u ++ [t] ++ w) (.binary l op r))
    (n : Nat) {left e : Expr} {u : List Token} {c c' : Cursor} (hleft : Derives whole u left)
    (h : Gives (foldTail accepted operand n left) c e c') :
    ∃ w, Past c w { c' with depth := c.depth } ∧ Derives whole (u ++ w) e := by
  induction n generalizing left u c with
  | zero => exact (gives_failHere.mp h).elim
  | succ n ih =>
    rcases gives_foldTail_succ.mp h with ⟨op, t, d, right, d₁, hop, _, ht, hright, h⟩ | ⟨_, rfl, rfl⟩
    · have hop := operator_of_operatorAt hop (show c.current = t from ht.current_eq)
      obtain ⟨v, hv, hd⟩ := hoperand _ _ _ hright
      obtain ⟨w, hw, hd⟩ := ih (hfold hleft hop hd) h
      exact ⟨[t] ++ v ++ w, ((ht.trans hv).with_depth c.depth).trans (hw.with_depth c.depth),
        by simpa using hd⟩
    · exact ⟨[], .refl _, by simpa using hleft⟩

theorem leftFold_sound {accepted : BinaryOp → Bool} {operand : Parser Expr} {whole part : Symbol Expr}
    (hoperand : Sound operand part) (hpart : ∀ {w e}, Derives part w e → Derives whole w e)
    (hfold : ∀ {t : Token} {u w : List Token} {l r : Expr} {op : BinaryOp}, Derives whole u l →
      Operator accepted t op → Derives part w r → Derives whole (u ++ [t] ++ w) (.binary l op r)) :
    Sound (leftFold accepted operand) whole := by
  intro c e c' h
  obtain ⟨first, d, hfirst, hmore⟩ := gives_bind.mp h
  obtain ⟨u, hu, hfirst⟩ := hoperand _ _ _ hfirst
  obtain ⟨d₁, htail, rfl⟩ := gives_leveled.mp hmore
  obtain ⟨w, hw, hd⟩ := foldTail_sound hoperand hfold _ (hpart hfirst) htail
  exact ⟨u ++ w, hu.trans hw, hd⟩

theorem multiplicative_sound (hexpr : Sound expr .expression) :
    Sound (multiplicative expr) .multiplicative :=
  leftFold_sound (callChain_sound hexpr) .ofCall .product

theorem additive_sound (hexpr : Sound expr .expression) : Sound (additive expr) .additive :=
  leftFold_sound (multiplicative_sound hexpr) .ofMultiplicative .sum

theorem properties_at_brace {n : Nat} {ps : List Property} {c c' : Cursor}
    (hc : c.current.kind = .closeBrace) (h : Gives (properties expr n) c ps c') : ps = [] ∧ c' = c := by
  cases n with
  | zero => exact gives_pure.mp h
  | succ n =>
    rcases gives_properties_succ.mp h with ⟨_, h⟩ | ⟨hn, _⟩
    · exact h
    · exact (hn (.inr hc)).elim

theorem properties_sound (hexpr : Sound expr .expression) (n : Nat) :
    Sound (properties expr n) .entries := by
  induction n with
  | zero =>
    intro c ps c' h
    obtain ⟨rfl, rfl⟩ := gives_pure.mp h
    exact ⟨[], .refl _, .noEntries⟩
  | succ n ih =>
    intro c ps c' h
    rcases gives_properties_succ.mp h with ⟨_, rfl, rfl⟩ | ⟨_, p, d, others, hp, hothers, rfl⟩
    · exact ⟨[], .refl _, .noEntries⟩
    · cases hp with
      | bare ht hk hu huk =>
        obtain ⟨w, hw, hd⟩ := ih _ _ _ hothers
        exact ⟨_, (ht.trans hu).trans hw, .moreEntries (.shorthand hk) huk hd⟩
      | bareLast ht hk hlast =>
        obtain ⟨rfl, rfl⟩ := properties_at_brace hlast hothers
        exact ⟨_, ht, .lastEntry (.shorthand hk)⟩
      | valued ht hk hu huk hvalue hv hvk =>
        obtain ⟨v, hpast, hd⟩ := hexpr _ _ _ hvalue
        obtain ⟨w, hw, hrest⟩ := ih _ _ _ hothers
        exact ⟨_, (((ht.trans hu).trans hpast).trans hv).trans hw, .moreEntries (.valued hk huk hd) hvk hrest⟩
      | valuedLast ht hk hu huk hvalue hlast =>
        obtain ⟨v, hpast, hd⟩ := hexpr _ _ _ hvalue
        obtain ⟨rfl, rfl⟩ := properties_at_brace hlast hothers
        exact ⟨_, (ht.trans hu).trans hpast, .lastEntry (.valued hk huk hd)⟩

theorem objectLiteral_sound (hexpr : Sound expr .expression) : Sound (objectLiteral expr) .object := by
  intro c e c' h
  rcases gives_objectLiteral.mp h with ⟨t, d, ps, d', u, ht, hk, hps, hu, huk, rfl⟩ | ⟨_, h⟩
  · obtain ⟨w, hw, hd⟩ := properties_sound hexpr _ _ _ _ hps
    exact ⟨_, (ht.trans hw).trans hu, .objectOf hk hd huk⟩
  · obtain ⟨w, hw, hd⟩ := additive_sound hexpr _ _ _ h
    exact ⟨w, hw, .ofAdditive hd⟩

/-- Elements that run up to the bracket are none, or a list without a comma at its end. -/
theorem elements_sound (hexpr : Sound expr .expression) (n : Nat) {es : List Expr} {c c' : Cursor}
    (h : Gives (elements expr n) c es c') (hend : c'.current.kind = .closeBracket) :
    es = [] ∧ c' = c ∨ ∃ w, Past c w c' ∧ Derives .list w es := by
  induction n generalizing es c with
  | zero => exact .inl (gives_pure.mp h)
  | succ n ih =>
    rcases gives_elements_succ.mp h with ⟨_, h⟩ | ⟨_, first, d, hfirst, h⟩
    · exact .inl h
    · obtain ⟨u, hu, hd⟩ := hexpr _ _ _ hfirst
      rcases h with ⟨t, d', others, ht, hk, hn, hothers, rfl⟩ | ⟨_, rfl, rfl⟩
      · rcases ih hothers with ⟨_, rfl⟩ | ⟨w, hw, hlist⟩
        · exact (hn hend).elim
        · exact .inr ⟨_, (hu.trans ht).trans hw, .listMore hd hk hlist⟩
      · exact .inr ⟨u, hu, .listOne hd⟩

theorem arrayLiteral_sound (hexpr : Sound expr .expression) : Sound (arrayLiteral expr) .array := by
  intro c e c' h
  rcases gives_arrayLiteral.mp h with ⟨t, d, es, d', u, ht, hk, hes, hu, huk, rfl⟩ | ⟨_, h⟩
  · rcases elements_sound hexpr _ hes (by rw [hu.current_eq, huk]) with ⟨rfl, rfl⟩ | ⟨w, hw, hd⟩
    · exact ⟨_, ht.trans hu, .emptyArray hk huk⟩
    · exact ⟨_, (ht.trans hw).trans hu, .arrayOf hk hd huk⟩
  · obtain ⟨w, hw, hd⟩ := objectLiteral_sound hexpr _ _ _ h
    exact ⟨w, hw, .ofObject hd⟩

theorem nested_sound {p : Parser α} {s : Symbol α} (hp : Sound p s) : Sound (nested p) s := by
  intro c x c' h
  obtain ⟨_, d, hd, rfl⟩ := gives_nested.mp h
  obtain ⟨w, hw, hx⟩ := hp _ _ _ hd
  refine ⟨w, ?_, hx⟩
  rw [hw.depth_eq]
  exact hw.with_depth c.depth

theorem assignment_sound (hexpr : Sound expr .expression) (n : Nat) :
    Sound (assignment expr n) .assignment := by
  induction n with
  | zero =>
    intro c e c' h
    exact (gives_failHere.mp h).elim
  | succ n ih =>
    intro c e c' h
    obtain ⟨target, d, htarget, h⟩ := gives_assignment_succ.mp h
    obtain ⟨u, hu, harray⟩ := arrayLiteral_sound hexpr _ _ _ htarget
    rcases h with ⟨ha, t, d', value, ht, hvalue, he⟩ | ⟨_, rfl, rfl⟩
    · obtain ⟨w, hw, hd⟩ := nested_sound ih _ _ _ hvalue
      exact ⟨_, (hu.trans ht).trans hw,
        .write harray (ha.kind_eq ht) (.ofLogical (.ofBoolean (.ofAssignment hd))) he⟩
    · exact ⟨u, hu, .ofArray harray⟩

theorem boolean_sound (hexpr : Sound expr .expression) : Sound (boolean expr) .boolean := by
  intro c e c' h
  obtain ⟨left, d, hleft, h⟩ := gives_boolean.mp h
  obtain ⟨u, hu, hl⟩ := assignment_sound hexpr _ _ _ _ hleft
  rcases h with ⟨t, d', v, d'', right, ht, hk, hv, hvk, hvt, hright, rfl⟩ | ⟨_, rfl, rfl⟩
  · obtain ⟨w, hw, hd⟩ := hexpr _ _ _ hright
    exact ⟨_, (hu.trans (ht.trans hv)).trans hw, .connective hl (.doubled hk hvk hvt) hd⟩
  · exact ⟨u, hu, .ofAssignment hl⟩

theorem comparison_sound {c c' : Cursor} {op : LogicalOp} {equals : Bool}
    (h : ComparisonStep c op equals c') : ∃ w, Past c w c' ∧ Comparison w op equals := by
  cases h with
  | order ht hk hn => exact ⟨_, ht, .order hk⟩
  | orderOrEqual ht hk hu huk => exact ⟨_, ht.trans hu, .orderOrEqual hk huk⟩
  | equal ht hk hu huk => exact ⟨_, ht.trans hu, .equal hk huk⟩
  | notEqual ht hk hu huk => exact ⟨_, ht.trans hu, .notEqual hk huk⟩

theorem logical_sound (hexpr : Sound expr .expression) : Sound (logical expr) .logical := by
  intro c e c' h
  obtain ⟨left, d, hleft, h⟩ := gives_logical.mp h
  obtain ⟨u, hu, hl⟩ := boolean_sound hexpr _ _ _ hleft
  rcases h with ⟨op, equals, d', right, hop, hright, rfl⟩ | ⟨_, rfl, rfl⟩
  · obtain ⟨v, hv, hop⟩ := comparison_sound hop
    obtain ⟨w, hw, hd⟩ := hexpr _ _ _ hright
    exact ⟨_, (hu.trans hv).trans hw, .comparison hl hop hd⟩
  · exact ⟨u, hu, .ofBoolean hl⟩

theorem negation_sound (hexpr : Sound expr .expression) : Sound (negation expr) .expression := by
  intro c e c' h
  rcases gives_negation.mp h with ⟨t, d, operand, ht, hk, hoperand, rfl⟩ | ⟨_, h⟩
  · obtain ⟨w, hw, hd⟩ := hexpr _ _ _ hoperand
    exact ⟨_, ht.trans hw, .negation hk hd⟩
  · obtain ⟨w, hw, hd⟩ := logical_sound hexpr _ _ _ h
    exact ⟨w, hw, .ofLogical hd⟩

/-- The knot of the layers: what an expression may grow by bounds the induction. -/
theorem expressionWithin_sound (n : Nat) : Sound (expressionWithin n) .expression := by
  induction n with
  | zero =>
    intro c e c' h
    exact (gives_failHere.mp h).elim
  | succ n ih => exact nested_sound (negation_sound ih)

theorem expression_sound : Sound expression .expression :=
  expressionWithin_sound levels

end Scriptlet.Proofs.GrammarSound
