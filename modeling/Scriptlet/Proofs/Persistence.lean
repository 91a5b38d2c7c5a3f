import Scriptlet.Proofs.GrammarStatements

namespace Scriptlet.Proofs.Persistence
open Scriptlet.Program Scriptlet.Program.Parser Reading

/-- What may stand in place of an end: a semicolon, other tokens and their own end. -/
structure Sequel where
  semicolon : Token
  others : List Token
  close : Token
  kind_eq : semicolon.kind = .semicolon
  closed : close.kind = .eof

/-- The place behind the semicolon. -/
def Sequel.start (q : Sequel) (depth : Nat) : Cursor :=
  ⟨q.others, q.close, depth⟩

/-- The same place before tokens that go on. -/
def followed (q : Sequel) (c : Cursor) : Cursor :=
  { c with rest := c.rest ++ q.semicolon :: q.others, close := q.close }

/-- The token behind all others is an end. -/
def Closed (c : Cursor) : Prop :=
  c.close.kind = .eof

/-- `c'` stands at `c` or further on, before the same end. -/
structure Onward (c c' : Cursor) : Prop where
  rest : c'.rest <:+ c.rest
  close : c'.close = c.close

/-- What a reader accepts before an end, it accepts as well if a semicolon and other tokens stand
there, and it reads none of them. -/
def Persists {α : Type} (q : Sequel) (p : Parser α) : Prop :=
  ∀ ⦃c x c'⦄, Gives p c x c' → Closed c → Onward c c' ∧ Gives p (followed q c) x (followed q c')

/-- A loop that stops before the end, in at most `n` turns before it and `m` turns before a semicolon. -/
def TurnsPersist {α : Type} (q : Sequel) (p : Nat → Parser α) (n m : Nat) : Prop :=
  ∀ ⦃c x c'⦄, Gives (p n) c x c' → Closed c → c.rest.length ≤ n → c'.rest ≠ [] →
    Onward c c' ∧ Gives (p m) (followed q c) x (followed q c')

/-- The same of a loop with as many turns as tokens are left. -/
def LoopPersists {α : Type} (q : Sequel) (p : Nat → Parser α) : Prop :=
  ∀ ⦃c x c'⦄, Gives (p c.rest.length) c x c' → Closed c → c'.rest ≠ [] →
    Onward c c' ∧ Gives (p (followed q c).rest.length) (followed q c) x (followed q c')

variable {α : Type} {q : Sequel} {c c' d : Cursor} {t : Token} {k : Token.Kind} {w : List Token}

section Cursors

theorem Onward.refl (c : Cursor) : Onward c c :=
  ⟨List.suffix_refl _, rfl⟩

theorem Onward.trans (h : Onward c d) (g : Onward d c') : Onward c c' :=
  ⟨g.rest.trans h.rest, g.close.trans h.close⟩

theorem Onward.past (h : Past c w c') : Onward c c' := by
  rw [h]
  exact ⟨List.suffix_append w c'.rest, rfl⟩

theorem Onward.closed (h : Onward c c') (hc : Closed c) : Closed c' := by
  unfold Closed
  rw [h.close]
  exact hc

theorem Onward.length_le (h : Onward c c') : c'.rest.length ≤ c.rest.length :=
  h.rest.length_le

theorem Onward.ne_nil (h : Onward c c') (hne : c'.rest ≠ []) : c.rest ≠ [] := by
  intro hnil
  have hsuffix := h.rest
  rw [hnil, List.suffix_nil] at hsuffix
  exact hne hsuffix

/-- How deep the tree has grown is no part of where a cursor stands. -/
theorem Onward.deeper {n : Nat} (h : Past { c with depth := n } w c') : Onward c c' :=
  ⟨(Onward.past h).rest, (Onward.past h).close⟩

theorem length_le_followed (q : Sequel) (c : Cursor) : c.rest.length ≤ (followed q c).rest.length := by
  unfold followed
  rw [List.length_append]
  exact Nat.le_add_right _ _

theorem past_ne_nil (h : Past c [t] c') : c.rest ≠ [] := by
  rw [h.rest_eq]
  exact List.cons_ne_nil _ _

theorem past_length_lt (h : Past c [t] c') : c'.rest.length < c.rest.length := by
  rw [h.rest_eq]
  exact Nat.lt_succ_self _

theorem past_followed (q : Sequel) (h : Past c w c') : Past (followed q c) w (followed q c') := by
  rw [h]
  simp [Past, followed]

theorem current_followed (h : c.rest ≠ []) : (followed q c).current = c.current := by
  obtain ⟨t, ts, hrest⟩ := List.exists_cons_of_ne_nil h
  simp [followed, Cursor.current, hrest]

theorem current_end (h : c.rest = []) : (followed q c).current = q.semicolon := by
  simp [followed, Cursor.current, h]

theorem kind_end (hc : Closed c) (h : c.rest = []) : c.current.kind = .eof := by
  unfold Cursor.current
  rw [h]
  exact hc

/-- A kind other than that of the end is there again. -/
theorem kind_followed (hc : Closed c) (h : c.current.kind = k) (hk : k ≠ .eof) :
    (followed q c).current.kind = k := by
  rw [current_followed]
  · exact h
  · intro hnil
    exact hk (h.symm.trans (kind_end hc hnil))

/-- Where another kind stands, no semicolon changes that. -/
theorem ne_followed (h : c.current.kind ≠ k) (hk : k ≠ .semicolon) : (followed q c).current.kind ≠ k := by
  by_cases hnil : c.rest = []
  · rw [current_end hnil, q.kind_eq]
    exact hk.symm
  · rw [current_followed hnil]
    exact h

/-- Neither an end nor a semicolon is the sign of equality that a look past one token asks for. -/
theorem next_followed (hc : Closed c) (hne : c.rest ≠ []) :
    ((followed q c).rest.tail.headD (followed q c).close).kind = .equals ↔
      (c.rest.tail.headD c.close).kind = .equals := by
  have hclose : c.close.kind = .eof := hc
  obtain ⟨t, ts, hrest⟩ := List.exists_cons_of_ne_nil hne
  cases ts with
  | nil => simp [followed, hrest, q.kind_eq, hclose]
  | cons u us => simp [followed, hrest]

theorem atAssignment_followed (hc : Closed c) : AtAssignment (followed q c) ↔ AtAssignment c := by
  unfold AtAssignment
  by_cases hnil : c.rest = []
  · simp [current_end hnil, q.kind_eq, kind_end hc hnil]
  · rw [current_followed hnil, Ne, Ne, next_followed hc hnil]

theorem atComparison_followed (hc : Closed c) : AtComparison (followed q c) ↔ AtComparison c := by
  unfold AtComparison
  by_cases hnil : c.rest = []
  · simp [current_end hnil, q.kind_eq, kind_end hc hnil]
  · rw [current_followed hnil, next_followed hc hnil]

theorem operatorAt_followed (hc : Closed c) (accepted : BinaryOp → Bool) :
    operatorAt accepted (followed q c) = operatorAt accepted c := by
  by_cases hnil : c.rest = []
  · rw [operatorAt, operatorAt, current_end hnil, q.kind_eq, kind_end hc hnil]
    rfl
  · rw [operatorAt, operatorAt, current_followed hnil]

end Cursors

/-- Loops persist turn by turn: no turn is left only where no token is. -/
theorem loopPersists_of_turn {p : Nat → Parser (List α)} (hzero : p 0 = pure [])
    (hturn : ∀ n m, TurnsPersist q p n m → TurnsPersist q p (n + 1) (m + 1)) : LoopPersists q p := by
  have hturns : ∀ n m, n ≤ m → TurnsPersist q p n m := by
    intro n
    induction n with
    | zero =>
      intro m _ c x c' h _ hn hne
      rw [hzero] at h
      obtain ⟨_, rfl⟩ := gives_pure.mp h
      exact absurd (List.length_eq_zero_iff.mp (Nat.le_zero.mp hn)) hne
    | succ n ih =>
      intro m hm
      cases m with
      | zero => omega
      | succ m => exact hturn n m (ih m (Nat.le_of_succ_le_succ hm))
  intro c x c' h hc hne
  exact hturns _ _ (length_le_followed q c) h hc (Nat.le_refl _) hne

section Expressions

variable {expr : Parser Expr} {e : Expr} {n : Nat}

theorem nested_persists {p : Parser α} (hp : Persists q p) : Persists q (nested p) := by
  intro c x c' h hc
  obtain ⟨hdepth, d, hd, rfl⟩ := gives_nested.mp h
  obtain ⟨hon, hgives⟩ := hp hd hc
  exact ⟨⟨hon.rest, hon.close⟩, gives_nested.mpr ⟨hdepth, _, hgives, rfl⟩⟩

theorem leveled_persists {p : Parser α} (hp : Persists q p) : Persists q (leveled p) := by
  intro c x c' h hc
  obtain ⟨d, hd, rfl⟩ := gives_leveled.mp h
  obtain ⟨hon, hgives⟩ := hp hd hc
  exact ⟨⟨hon.rest, hon.close⟩, gives_leveled.mpr ⟨_, hgives, rfl⟩⟩

theorem bind_persists {β : Type} {p : Parser α} {f : α → Parser β} (hp : Persists q p)
    (hf : ∀ x, Persists q (f x)) : Persists q (p >>= f) := by
  intro c y c' h hc
  obtain ⟨x, d, hx, hy⟩ := gives_bind.mp h
  obtain ⟨hd, hx⟩ := hp hx hc
  obtain ⟨hon, hy⟩ := hf x hy (hd.closed hc)
  exact ⟨hd.trans hon, gives_bind.mpr ⟨x, _, hx, hy⟩⟩

theorem primary_persists (hexpr : Persists q expr) : Persists q (primary expr) := by
  intro c e c' h hc
  obtain ⟨t, d, ht, h⟩ := gives_primary.mp h
  have hd : Onward c d := .past ht
  have ht := past_followed q ht
  rcases h with ⟨hk, rfl, rfl⟩ | ⟨hk, hx, rfl⟩ | ⟨hk, rfl, rfl⟩ | ⟨hk, d', u, he, hu, huk⟩
  · exact ⟨hd, gives_primary.mpr ⟨t, _, ht, .inl ⟨hk, rfl, rfl⟩⟩⟩
  · exact ⟨hd, gives_primary.mpr ⟨t, _, ht, .inr (.inl ⟨hk, hx, rfl⟩)⟩⟩
  · exact ⟨hd, gives_primary.mpr ⟨t, _, ht, .inr (.inr (.inl ⟨hk, rfl, rfl⟩))⟩⟩
  · obtain ⟨hon, he⟩ := hexpr he (hd.closed hc)
    exact ⟨(hd.trans hon).trans (.past hu), gives_primary.mpr ⟨t, _, ht,
      .inr (.inr (.inr ⟨hk, _, u, he, past_followed q hu, huk⟩))⟩⟩

theorem memberStep_persists (hexpr : Persists q expr) {object : Expr}
    (h : MemberStep expr object c e c') (hc : Closed c) :
    Onward c c' ∧ MemberStep expr object (followed q c) e (followed q c') := by
  cases h with
  | dot hdepth ht hk hkey =>
    obtain ⟨hkey, name, rfl⟩ := gives_dotMember.mp hkey
    have hd : Onward c _ := .deeper ht
    obtain ⟨hon, hkey⟩ := primary_persists hexpr hkey (hd.closed hc)
    exact ⟨hd.trans hon, .dot hdepth (past_followed q ht) hk (gives_dotMember.mpr ⟨hkey, name, rfl⟩)⟩
  | index hdepth ht hk hkey hu huk =>
    have hd : Onward c _ := .deeper ht
    obtain ⟨hon, hkey⟩ := hexpr hkey (hd.closed hc)
    exact ⟨(hd.trans hon).trans (.past hu),
      .index hdepth (past_followed q ht) hk hkey (past_followed q hu) huk⟩

theorem memberTail_persists (hexpr : Persists q expr) (n : Nat) (object : Expr) :
    Persists q (memberTail expr n object) := by
  induction n generalizing object with
  | zero =>
    intro c e c' h hc
    exact (gives_failHere.mp h).elim
  | succ n ih =>
    intro c e c' h hc
    rcases gives_memberTail_succ.mp h with ⟨more, d, hm, htail⟩ | ⟨hdot, hopen, rfl, rfl⟩
    · obtain ⟨hd, hm⟩ := memberStep_persists hexpr hm hc
      obtain ⟨hon, htail⟩ := ih more htail (hd.closed hc)
      exact ⟨hd.trans hon, gives_memberTail_succ.mpr (.inl ⟨more, _, hm, htail⟩)⟩
    · exact ⟨.refl _, gives_memberTail_succ.mpr
        (.inr ⟨ne_followed hdot (by decide), ne_followed hopen (by decide), rfl, rfl⟩)⟩

theorem memberChain_persists (hexpr : Persists q expr) : Persists q (memberChain expr) := by
  intro c e c' h hc
  obtain ⟨first, d, object, d₁, hfirst, hmembers, h⟩ := gives_memberChain.mp h
  obtain ⟨hd, hfirst⟩ := primary_persists hexpr hfirst hc
  obtain ⟨hd₁, hmembers⟩ := leveled_persists (memberTail_persists hexpr levels first) hmembers (hd.closed hc)
  have hon := hd.trans hd₁
  rcases h with ⟨ha, t, d₂, value, ht, hvalue, he⟩ | ⟨ha, rfl, rfl⟩
  · have hd₂ := hon.trans (.past ht)
    obtain ⟨hend, hvalue⟩ := hexpr hvalue (hd₂.closed hc)
    exact ⟨hd₂.trans hend, gives_memberChain.mpr ⟨first, _, object, _, hfirst, hmembers,
      .inl ⟨(atAssignment_followed (hon.closed hc)).mpr ha, t, _, value, past_followed q ht, hvalue, he⟩⟩⟩
  · exact ⟨hon, gives_memberChain.mpr ⟨first, _, _, _, hfirst, hmembers,
      .inr ⟨mt (atAssignment_followed (hon.closed hc)).mp ha, rfl, rfl⟩⟩⟩

theorem moreArguments_persists (hexpr : Persists q expr) : LoopPersists q (moreArguments expr) := by
  apply loopPersists_of_turn rfl
  intro n m ih c es c' h hc hn hne
  rcases gives_moreArguments_succ.mp h with ⟨t, d, first, d₁, others, ht, hk, hfirst, hothers, rfl⟩ |
    ⟨hk, rfl, rfl⟩
  · have hd : Onward c d := .past ht
    obtain ⟨hd₁, hfirst⟩ := hexpr hfirst (hd.closed hc)
    have hon := hd.trans hd₁
    have hshort := past_length_lt ht
    have hlength := hd₁.length_le
    obtain ⟨hend, hothers⟩ := ih hothers (hon.closed hc) (by omega) hne
    exact ⟨hon.trans hend, gives_moreArguments_succ.mpr
      (.inl ⟨t, _, first, _, others, past_followed q ht, hk, hfirst, hothers, rfl⟩)⟩
  · exact ⟨.refl _, gives_moreArguments_succ.mpr (.inr ⟨ne_followed hk (by decide), rfl, rfl⟩)⟩

theorem arguments_persists (hexpr : Persists q expr) : Persists q (arguments expr) := by
  intro c es c' h hc
  obtain ⟨t, d, u, d₁, ht, hk, hu, huk, h⟩ := gives_arguments.mp h
  have hd : Onward c d := .past ht
  rcases h with ⟨rfl, rfl⟩ | ⟨hn, first, d₂, others, hfirst, hothers, rfl⟩
  · exact ⟨hd.trans (.past hu), gives_arguments.mpr ⟨t, _, u, _, past_followed q ht, hk,
      past_followed q hu, huk, .inl ⟨rfl, rfl⟩⟩⟩
  · obtain ⟨hd₂, hfirst⟩ := hexpr hfirst (hd.closed hc)
    have hon := hd.trans hd₂
    obtain ⟨hd₁, hothers⟩ := moreArguments_persists hexpr hothers (hon.closed hc) (past_ne_nil hu)
    exact ⟨(hon.trans hd₁).trans (.past hu), gives_arguments.mpr ⟨t, _, u, _, past_followed q ht, hk,
      past_followed q hu, huk, .inr ⟨ne_followed hn (by decide), first, _, others, hfirst, hothers, rfl⟩⟩⟩

theorem callTail_persists (hexpr : Persists q expr) (n : Nat) (callee : Expr) :
    Persists q (callTail expr n callee) := by
  induction n generalizing callee with
  | zero =>
    intro c e c' h hc
    exact (gives_failHere.mp h).elim
  | succ n ih =>
    intro c e c' h hc
    rcases gives_callTail_succ.mp h with ⟨hdepth, args, d, hk, hargs, htail⟩ | ⟨hk, rfl, rfl⟩
    · obtain ⟨hd, hargs⟩ := arguments_persists hexpr hargs hc
      obtain ⟨hon, htail⟩ := ih (.call callee args) htail (hd.closed hc)
      exact ⟨Onward.trans ⟨hd.rest, hd.close⟩ hon, gives_callTail_succ.mpr
        (.inl ⟨hdepth, args, _, kind_followed hc hk (by decide), hargs, htail⟩)⟩
    · exact ⟨.refl _, gives_callTail_succ.mpr (.inr ⟨ne_followed hk (by decide), rfl, rfl⟩)⟩

theorem callChain_persists (hexpr : Persists q expr) : Persists q (callChain expr) :=
  bind_persists (memberChain_persists hexpr) fun first =>
    leveled_persists (callTail_persists hexpr levels first)

theorem foldTail_persists {accepted : BinaryOp → Bool} {operand : Parser Expr}
    (hoperand : Persists q operand) (n : Nat) (left : Expr) :
    Persists q (foldTail accepted operand n left) := by
  induction n generalizing left with
  | zero =>
    intro c e c' h hc
    exact (gives_failHere.mp h).elim
  | succ n ih =>
    intro c e c' h hc
    rcases gives_foldTail_succ.mp h with ⟨op, t, d, right, d₁, hop, hdepth, ht, hright, htail⟩ |
      ⟨hop, rfl, rfl⟩
    · have hd : Onward c d := .deeper ht
      obtain ⟨hd₁, hright⟩ := hoperand hright (hd.closed hc)
      have hon := hd.trans hd₁
      obtain ⟨hend, htail⟩ := ih (.binary left op right) htail (hon.closed hc)
      exact ⟨hon.trans hend, gives_foldTail_succ.mpr (.inl ⟨op, t, _, right, _,
        (operatorAt_followed hc accepted).trans hop, hdepth, past_followed q ht, hright, htail⟩)⟩
    · exact ⟨.refl _, gives_foldTail_succ.mpr
        (.inr ⟨(operatorAt_followed hc accepted).trans hop, rfl, rfl⟩)⟩

theorem leftFold_persists {accepted : BinaryOp → Bool} {operand : Parser Expr}
    (hoperand : Persists q operand) : Persists q (leftFold accepted operand) :=
  bind_persists hoperand fun first => leveled_persists (foldTail_persists hoperand levels first)

theorem additive_persists (hexpr : Persists q expr) : Persists q (additive expr) :=
  leftFold_persists (leftFold_persists (callChain_persists hexpr))

theorem entryStep_persists (hexpr : Persists q expr) {p : Property} (h : EntryStep expr c p c')
    (hc : Closed c) : Onward c c' ∧ c'.rest.length < c.rest.length ∧
      EntryStep expr (followed q c) p (followed q c') := by
  cases h with
  | bare ht hk hu huk =>
    have hd : Onward c _ := .past ht
    have hend : Onward _ c' := .past hu
    exact ⟨hd.trans hend, Nat.lt_of_le_of_lt hend.length_le (past_length_lt ht),
      .bare (past_followed q ht) hk (past_followed q hu) huk⟩
  | bareLast ht hk hlast =>
    have hend : Onward c c' := .past ht
    exact ⟨hend, past_length_lt ht, .bareLast (past_followed q ht) hk
      (kind_followed (hend.closed hc) hlast (by decide))⟩
  | valued ht hk hu huk hvalue hv hvk =>
    have hd : Onward c _ := .past (ht.trans hu)
    obtain ⟨hon, hvalue⟩ := hexpr hvalue (hd.closed hc)
    have hend := (Onward.past hu).trans (hon.trans (.past hv))
    exact ⟨(Onward.past ht).trans hend, Nat.lt_of_le_of_lt hend.length_le (past_length_lt ht),
      .valued (past_followed q ht) hk (past_followed q hu) huk hvalue (past_followed q hv) hvk⟩
  | valuedLast ht hk hu huk hvalue hlast =>
    have hd : Onward c _ := .past (ht.trans hu)
    obtain ⟨hon, hvalue⟩ := hexpr hvalue (hd.closed hc)
    have hend := (Onward.past hu).trans hon
    exact ⟨(Onward.past ht).trans hend, Nat.lt_of_le_of_lt hend.length_le (past_length_lt ht),
      .valuedLast (past_followed q ht) hk (past_followed q hu) huk hvalue
        (kind_followed (((Onward.past ht).trans hend).closed hc) hlast (by decide))⟩

theorem properties_persists (hexpr : Persists q expr) : LoopPersists q (properties expr) := by
  apply loopPersists_of_turn rfl
  intro n m ih c ps c' h hc hn hne
  rcases gives_properties_succ.mp h with ⟨hstop, rfl, rfl⟩ | ⟨hgo, p, d, others, hp, hothers, rfl⟩
  · refine ⟨.refl _, gives_properties_succ.mpr (.inl ⟨?_, rfl, rfl⟩)⟩
    rw [current_followed hne]
    exact hstop
  · obtain ⟨hd, hshort, hp⟩ := entryStep_persists hexpr hp hc
    obtain ⟨hon, hothers⟩ := ih hothers (hd.closed hc) (by omega) hne
    refine ⟨hd.trans hon, gives_properties_succ.mpr (.inr ⟨?_, p, _, others, hp, hothers, rfl⟩)⟩
    rw [current_followed ((hd.trans hon).ne_nil hne)]
    exact hgo

theorem objectLiteral_persists (hexpr : Persists q expr) : Persists q (objectLiteral expr) := by
  intro c e c' h hc
  rcases gives_objectLiteral.mp h with ⟨t, d, ps, d₁, u, ht, hk, hps, hu, huk, rfl⟩ | ⟨hk, h⟩
  · have hd : Onward c d := .past ht
    obtain ⟨hon, hps⟩ := properties_persists hexpr hps (hd.closed hc) (past_ne_nil hu)
    exact ⟨(hd.trans hon).trans (.past hu), gives_objectLiteral.mpr (.inl ⟨t, _, ps, _, u,
      past_followed q ht, hk, hps, past_followed q hu, huk, rfl⟩)⟩
  · obtain ⟨hon, h⟩ := additive_persists hexpr h hc
    exact ⟨hon, gives_objectLiteral.mpr (.inr ⟨ne_followed hk (by decide), h⟩)⟩

theorem elements_persists (hexpr : Persists q expr) : LoopPersists q (elements expr) := by
  apply loopPersists_of_turn rfl
  intro n m ih c es c' h hc hn hne
  rcases gives_elements_succ.mp h with ⟨hstop, rfl, rfl⟩ | ⟨hgo, first, d, hfirst, h⟩
  · refine ⟨.refl _, gives_elements_succ.mpr (.inl ⟨?_, rfl, rfl⟩)⟩
    rw [current_followed hne]
    exact hstop
  · obtain ⟨hd, hfirst⟩ := hexpr hfirst hc
    rcases h with ⟨t, d₁, others, ht, hk, hn', hothers, rfl⟩ | ⟨hk, rfl, rfl⟩
    · have hd₁ := hd.trans (.past ht)
      have hshort := past_length_lt ht
      have hlength := hd.length_le
      obtain ⟨hon, hothers⟩ := ih hothers (hd₁.closed hc) (by omega) hne
      refine ⟨hd₁.trans hon, gives_elements_succ.mpr (.inr ⟨?_, first, _, hfirst, .inl ⟨t, _, others,
        past_followed q ht, hk, ne_followed hn' (by decide), hothers, rfl⟩⟩)⟩
      rw [current_followed ((hd₁.trans hon).ne_nil hne)]
      exact hgo
    · refine ⟨hd, gives_elements_succ.mpr (.inr ⟨?_, first, _, hfirst,
        .inr ⟨ne_followed hk (by decide), rfl, rfl⟩⟩)⟩
      rw [current_followed (hd.ne_nil hne)]
      exact hgo

theorem arrayLiteral_persists (hexpr : Persists q expr) : Persists q (arrayLiteral expr) := by
  intro c e c' h hc
  rcases gives_arrayLiteral.mp h with ⟨t, d, es, d₁, u, ht, hk, hes, hu, huk, rfl⟩ | ⟨hk, h⟩
  · have hd : Onward c d := .past ht
    obtain ⟨hon, hes⟩ := elements_persists hexpr hes (hd.closed hc) (past_ne_nil hu)
    exact ⟨(hd.trans hon).trans (.past hu), gives_arrayLiteral.mpr (.inl ⟨t, _, es, _, u,
      past_followed q ht, hk, hes, past_followed q hu, huk, rfl⟩)⟩
  · obtain ⟨hon, h⟩ := objectLiteral_persists hexpr h hc
    exact ⟨hon, gives_arrayLiteral.mpr (.inr ⟨ne_followed hk (by decide), h⟩)⟩

theorem assignment_persists (hexpr : Persists q expr) (n : Nat) : Persists q (assignment expr n) := by
  induction n with
  | zero =>
    intro c e c' h hc
    exact (gives_failHere.mp h).elim
  | succ n ih =>
    intro c e c' h hc
    obtain ⟨target, d, htarget, h⟩ := gives_assignment_succ.mp h
    obtain ⟨hd, htarget⟩ := arrayLiteral_persists hexpr htarget hc
    have hassign := atAssignment_followed (q := q) (hd.closed hc)
    rcases h with ⟨ha, t, d₁, value, ht, hvalue, he⟩ | ⟨ha, rfl, rfl⟩
    · have hd₁ := hd.trans (.past ht)
      obtain ⟨hon, hvalue⟩ := nested_persists ih hvalue (hd₁.closed hc)
      exact ⟨hd₁.trans hon, gives_assignment_succ.mpr ⟨target, _, htarget,
        .inl ⟨hassign.mpr ha, t, _, value, past_followed q ht, hvalue, he⟩⟩⟩
    · exact ⟨hd, gives_assignment_succ.mpr ⟨_, _, htarget, .inr ⟨mt hassign.mp ha, rfl, rfl⟩⟩⟩

theorem boolean_persists (hexpr : Persists q expr) : Persists q (boolean expr) := by
  intro c e c' h hc
  obtain ⟨left, d, hleft, h⟩ := gives_boolean.mp h
  obtain ⟨hd, hleft⟩ := assignment_persists hexpr levels hleft hc
  rcases h with ⟨t, d₁, u, d₂, right, ht, hk, hu, huk, hut, hright, rfl⟩ | ⟨hk, rfl, rfl⟩
  · have hd₂ := hd.trans (.past (ht.trans hu))
    obtain ⟨hon, hright⟩ := hexpr hright (hd₂.closed hc)
    exact ⟨hd₂.trans hon, gives_boolean.mpr ⟨left, _, hleft, .inl ⟨t, _, u, _, right, past_followed q ht,
      hk, past_followed q hu, huk, hut, hright, rfl⟩⟩⟩
  · exact ⟨hd, gives_boolean.mpr ⟨_, _, hleft, .inr ⟨ne_followed hk (by decide), rfl, rfl⟩⟩⟩

theorem comparisonStep_persists {op : LogicalOp} {equals : Bool} (h : ComparisonStep c op equals c') :
    Onward c c' ∧ ComparisonStep (followed q c) op equals (followed q c') := by
  cases h with
  | order ht hk hn => exact ⟨.past ht, .order (past_followed q ht) hk (ne_followed hn (by decide))⟩
  | orderOrEqual ht hk hu huk =>
    exact ⟨.past (ht.trans hu), .orderOrEqual (past_followed q ht) hk (past_followed q hu) huk⟩
  | equal ht hk hu huk =>
    exact ⟨.past (ht.trans hu), .equal (past_followed q ht) hk (past_followed q hu) huk⟩
  | notEqual ht hk hu huk =>
    exact ⟨.past (ht.trans hu), .notEqual (past_followed q ht) hk (past_followed q hu) huk⟩

theorem logical_persists (hexpr : Persists q expr) : Persists q (logical expr) := by
  intro c e c' h hc
  obtain ⟨left, d, hleft, h⟩ := gives_logical.mp h
  obtain ⟨hd, hleft⟩ := boolean_persists hexpr hleft hc
  rcases h with ⟨op, equals, d₁, right, hop, hright, rfl⟩ | ⟨hn, rfl, rfl⟩
  · obtain ⟨hd₁, hop⟩ := comparisonStep_persists (q := q) hop
    have hd₁ := hd.trans hd₁
    obtain ⟨hon, hright⟩ := hexpr hright (hd₁.closed hc)
    exact ⟨hd₁.trans hon, gives_logical.mpr
      ⟨left, _, hleft, .inl ⟨op, equals, _, right, hop, hright, rfl⟩⟩⟩
  · exact ⟨hd, gives_logical.mpr ⟨_, _, hleft,
      .inr ⟨mt (atComparison_followed (hd.closed hc)).mp hn, rfl, rfl⟩⟩⟩

theorem negation_persists (hexpr : Persists q expr) : Persists q (negation expr) := by
  intro c e c' h hc
  rcases gives_negation.mp h with ⟨t, d, operand, ht, hk, hoperand, rfl⟩ | ⟨hk, h⟩
  · have hd : Onward c d := .past ht
    obtain ⟨hon, hoperand⟩ := hexpr hoperand (hd.closed hc)
    exact ⟨hd.trans hon, gives_negation.mpr (.inl ⟨t, _, operand, past_followed q ht, hk, hoperand, rfl⟩)⟩
  · obtain ⟨hon, h⟩ := logical_persists hexpr h hc
    exact ⟨hon, gives_negation.mpr (.inr ⟨ne_followed hk (by decide), h⟩)⟩

/-- The knot of the layers, by the levels that an expression may grow. -/
theorem expressionWithin_persists (n : Nat) : Persists q (expressionWithin n) := by
  induction n with
  | zero =>
    intro c e c' h hc
    exact (gives_failHere.mp h).elim
  | succ n ih => exact nested_persists (negation_persists ih)

theorem expression_persists : Persists q expression :=
  expressionWithin_persists levels

end Expressions

section Statements

variable {stmt : Stmt} {stmts : List Stmt} {n m : Nat}

theorem optionalComma_persists (h : OptionalComma c c') :
    Onward c c' ∧ OptionalComma (followed q c) (followed q c') := by
  rcases h with ⟨t, ht, hk⟩ | ⟨hk, rfl⟩
  · exact ⟨.past ht, .inl ⟨t, past_followed q ht, hk⟩⟩
  · exact ⟨.refl _, .inr ⟨ne_followed hk (by decide), rfl⟩⟩

theorem fields_persists : LoopPersists q fields := by
  apply loopPersists_of_turn rfl
  intro n m ih c fs c' h hc hn hne
  rcases gives_fields_succ.mp h with ⟨hstop, rfl, rfl⟩ |
    ⟨hgo, t, d, u, d₁, v, d₂, d₃, others, ht, hk, hu, huk, hv, hvk, hcomma, hothers, rfl⟩
  · refine ⟨.refl _, gives_fields_succ.mpr (.inl ⟨?_, rfl, rfl⟩)⟩
    rw [current_followed hne]
    exact hstop
  · obtain ⟨hd₃, hcomma⟩ := optionalComma_persists (q := q) hcomma
    have hd := (Onward.past (hu.trans hv)).trans hd₃
    have hshort := past_length_lt ht
    have hlength := hd.length_le
    obtain ⟨hon, hothers⟩ := ih hothers (((Onward.past ht).trans hd).closed hc) (by omega) hne
    refine ⟨((Onward.past ht).trans hd).trans hon, gives_fields_succ.mpr (.inr ⟨?_, t, _, u, _, v, _, _,
      others, past_followed q ht, hk, past_followed q hu, huk, past_followed q hv, hvk, hcomma,
      hothers, rfl⟩)⟩
    rw [current_followed (past_ne_nil ht)]
    exact hgo

theorem structDeclaration_persists : Persists q structDeclaration := by
  intro c stmt c' h hc
  obtain ⟨t, d, u, d₁, v, d₂, fs, d₃, x, ht, hk, hu, huk, hv, hvk, hfs, hne, hx, hxk, rfl⟩ :=
    gives_structDeclaration.mp h
  have hd : Onward c d₂ := .past ((ht.trans hu).trans hv)
  obtain ⟨hon, hfs⟩ := fields_persists hfs (hd.closed hc) (past_ne_nil hx)
  exact ⟨(hd.trans hon).trans (.past hx), gives_structDeclaration.mpr ⟨t, _, u, _, v, _, fs, _, x,
    past_followed q ht, hk, past_followed q hu, huk, past_followed q hv, hvk, hfs, hne,
    past_followed q hx, hxk, rfl⟩⟩

theorem initializer_persists : Persists q initializer := by
  intro c e c' h hc
  rcases gives_initializer.mp h with ⟨t, d, ht, hk, hvalue⟩ | ⟨hk, rfl, rfl⟩
  · have hd : Onward c d := .past ht
    obtain ⟨hon, hvalue⟩ := expression_persists hvalue (hd.closed hc)
    exact ⟨hd.trans hon, gives_initializer.mpr (.inl ⟨t, _, past_followed q ht, hk, hvalue⟩)⟩
  · exact ⟨.refl _, gives_initializer.mpr (.inr ⟨ne_followed hk (by decide), rfl, rfl⟩)⟩

/-- Declarations may end where the tokens do, and their count is one more than what is left. -/
theorem declarations_persists {constant : Bool} (h : Gives (declarations constant n) c stmts c')
    (hc : Closed c) (hn : c.rest.length < n) (hm : n ≤ m) :
    Onward c c' ∧ Gives (declarations constant m) (followed q c) stmts (followed q c') := by
  induction n generalizing m c stmts with
  | zero => omega
  | succ n ih =>
    obtain ⟨m, rfl⟩ : ∃ l, m = l + 1 := ⟨m - 1, by omega⟩
    obtain ⟨t, d, value, d₁, ht, hk, hvalue, h⟩ := gives_declarations_succ.mp h
    have hd : Onward c d := .past ht
    obtain ⟨hd₁, hvalue⟩ := initializer_persists (q := q) hvalue (hd.closed hc)
    rcases h with ⟨u, d₂, others, hu, huk, hothers, rfl⟩ | ⟨hk', rfl, rfl⟩
    · have hd₂ := hd₁.trans (.past hu)
      have hshort := past_length_lt ht
      have hlength := hd₂.length_le
      obtain ⟨hon, hothers⟩ := ih hothers ((hd.trans hd₂).closed hc) (by omega)
        (Nat.le_of_succ_le_succ hm)
      exact ⟨(hd.trans hd₂).trans hon, gives_declarations_succ.mpr ⟨t, _, value, _, past_followed q ht, hk,
        hvalue, .inl ⟨u, _, others, past_followed q hu, huk, hothers, rfl⟩⟩⟩
    · exact ⟨hd.trans hd₁, gives_declarations_succ.mpr ⟨t, _, value, _, past_followed q ht, hk, hvalue,
        .inr ⟨ne_followed hk' (by decide), rfl, rfl⟩⟩⟩

theorem parameters_persists : LoopPersists q parameters := by
  apply loopPersists_of_turn rfl
  intro n m ih c names c' h hc hn hne
  rcases gives_parameters_succ.mp h with ⟨hstop, rfl, rfl⟩ |
    ⟨hgo, t, d, d₁, others, ht, hk, hcomma, hothers, rfl⟩
  · refine ⟨.refl _, gives_parameters_succ.mpr (.inl ⟨?_, rfl, rfl⟩)⟩
    rw [current_followed hne]
    exact hstop
  · obtain ⟨hd, hcomma⟩ := optionalComma_persists (q := q) hcomma
    have hshort := past_length_lt ht
    have hlength := hd.length_le
    obtain ⟨hon, hothers⟩ := ih hothers (((Onward.past ht).trans hd).closed hc) (by omega) hne
    refine ⟨((Onward.past ht).trans hd).trans hon, gives_parameters_succ.mpr (.inr ⟨?_, t, _, _, others,
      past_followed q ht, hk, hcomma, hothers, rfl⟩)⟩
    rw [current_followed (past_ne_nil ht)]
    exact hgo

theorem returnStatement_persists : Persists q returnStatement := by
  intro c stmt c' h hc
  obtain ⟨t, d, ht, hk, h⟩ := gives_returnStatement.mp h
  have hd : Onward c d := .past ht
  rcases h with ⟨hstop, rfl, rfl⟩ | ⟨hgo, value, hvalue, rfl⟩
  · refine ⟨hd, gives_returnStatement.mpr ⟨t, _, past_followed q ht, hk, .inl ⟨?_, rfl, rfl⟩⟩⟩
    by_cases hnil : c'.rest = []
    · rw [current_end hnil, q.kind_eq]
      decide
    · rw [current_followed hnil]
      exact hstop
  · obtain ⟨hon, hvalue⟩ := expression_persists (q := q) hvalue (hd.closed hc)
    refine ⟨hd.trans hon, gives_returnStatement.mpr ⟨t, _, past_followed q ht, hk, .inr ⟨?_, value,
      hvalue, rfl⟩⟩⟩
    -- an end under the cursor would have stopped the statement
    rw [current_followed]
    · exact hgo
    · intro hnil
      rw [kind_end (hd.closed hc) hnil] at hgo
      exact hgo (by decide)

theorem condition_persists : Persists q condition := by
  intro c test c' h hc
  obtain ⟨t, d, d₁, u, ht, hk, htest, hu, huk⟩ := gives_condition.mp h
  have hd : Onward c d := .past ht
  obtain ⟨hon, htest⟩ := expression_persists htest (hd.closed hc)
  exact ⟨(hd.trans hon).trans (.past hu), gives_condition.mpr ⟨t, _, _, u, past_followed q ht, hk, htest,
    past_followed q hu, huk⟩⟩

/-- Where a cursor stands once it is past all semicolons under it. -/
def unseparated (c : Cursor) : Cursor :=
  { c with rest := c.rest.dropWhile fun t => t.kind == .semicolon }

/-- A reader of one statement persists if there is more than semicolons to read. -/
def StatementPersists (q : Sequel) (p : Parser (List Stmt)) : Prop :=
  ∀ ⦃c stmts c'⦄, Gives p c stmts c' → Closed c → Onward (unseparated c) c' ∧
    ((unseparated c).rest ≠ [] → Gives p (followed q c) stmts (followed q c'))

theorem onward_unseparated (c : Cursor) : Onward c (unseparated c) :=
  ⟨List.dropWhile_suffix _, rfl⟩

theorem unseparated_followed (h : (unseparated c).rest ≠ []) :
    unseparated (followed q c) = followed q (unseparated c) := by
  have h : (c.rest.dropWhile fun t => t.kind == .semicolon).isEmpty = false := List.isEmpty_eq_false_iff.mpr h
  simp [unseparated, followed, List.dropWhile_append, h]

section Blocks

variable {block : Parser (List Stmt)}

theorem functionDeclaration_persists (hblock : Persists q block) :
    Persists q (functionDeclaration block) := by
  intro c stmt c' h hc
  obtain ⟨t, d, u, d₁, v, d₂, names, d₃, x, d₄, body, ht, hk, hu, huk, hv, hvk, hnames, hx, hxk,
    hbody, rfl⟩ := gives_functionDeclaration.mp h
  have hd : Onward c d₂ := .past ((ht.trans hu).trans hv)
  obtain ⟨hon, hnames⟩ := parameters_persists hnames (hd.closed hc) (past_ne_nil hx)
  have hd₄ := (hd.trans hon).trans (.past hx)
  obtain ⟨hend, hbody⟩ := hblock hbody (hd₄.closed hc)
  exact ⟨hd₄.trans hend, gives_functionDeclaration.mpr ⟨t, _, u, _, v, _, names, _, x, _, body,
    past_followed q ht, hk, past_followed q hu, huk, past_followed q hv, hvk, hnames,
    past_followed q hx, hxk, hbody, rfl⟩⟩

theorem ifStatement_persists (hblock : Persists q block) : Persists q (ifStatement block) := by
  intro c stmt c' h hc
  obtain ⟨t, d, test, d₁, body, ht, hk, htest, hbody, rfl⟩ := gives_ifStatement.mp h
  have hd : Onward c d := .past ht
  obtain ⟨hon, htest⟩ := condition_persists htest (hd.closed hc)
  obtain ⟨hend, hbody⟩ := hblock hbody ((hd.trans hon).closed hc)
  exact ⟨(hd.trans hon).trans hend, gives_ifStatement.mpr ⟨t, _, test, _, body, past_followed q ht, hk,
    htest, hbody, rfl⟩⟩

theorem whileStatement_persists (hblock : Persists q block) : Persists q (whileStatement block) := by
  intro c stmt c' h hc
  obtain ⟨t, d, test, d₁, body, ht, hk, htest, hbody, rfl⟩ := gives_whileStatement.mp h
  have hd : Onward c d := .past ht
  obtain ⟨hon, htest⟩ := condition_persists htest (hd.closed hc)
  obtain ⟨hend, hbody⟩ := hblock hbody ((hd.trans hon).closed hc)
  exact ⟨(hd.trans hon).trans hend, gives_whileStatement.mpr ⟨t, _, test, _, body, past_followed q ht, hk,
    htest, hbody, rfl⟩⟩

theorem statementStep_persists (hblock : Persists q block) (h : StatementStep block c stmts c')
    (hc : Closed c) : Onward c c' ∧
      (c.rest ≠ [] → StatementStep block (followed q c) stmts (followed q c')) := by
  cases h with
  | nothing hk =>
    refine ⟨.refl _, fun hne => .nothing ?_⟩
    rw [current_followed hne]
    exact hk
  | struct hk h =>
    obtain ⟨hon, h⟩ := structDeclaration_persists h hc
    exact ⟨hon, fun _ => .struct (kind_followed hc hk (by decide)) h⟩
  | letOne ht hk h =>
    have hd : Onward c _ := .past ht
    obtain ⟨hon, h⟩ := declarations_persists h (hd.closed hc) (Nat.lt_succ_self _)
      (Nat.succ_le_succ (length_le_followed q _))
    exact ⟨hd.trans hon, fun _ => .letOne (past_followed q ht) hk h⟩
  | constOne ht hk h =>
    have hd : Onward c _ := .past ht
    obtain ⟨hon, h⟩ := declarations_persists h (hd.closed hc) (Nat.lt_succ_self _)
      (Nat.succ_le_succ (length_le_followed q _))
    exact ⟨hd.trans hon, fun _ => .constOne (past_followed q ht) hk h⟩
  | whileOne hk h =>
    obtain ⟨hon, h⟩ := whileStatement_persists hblock h hc
    exact ⟨hon, fun _ => .whileOne (kind_followed hc hk (by decide)) h⟩
  | function hk h =>
    obtain ⟨hon, h⟩ := functionDeclaration_persists hblock h hc
    exact ⟨hon, fun _ => .function (kind_followed hc hk (by decide)) h⟩
  | returned hk h =>
    obtain ⟨hon, h⟩ := returnStatement_persists h hc
    exact ⟨hon, fun _ => .returned (kind_followed hc hk (by decide)) h⟩
  | ifOne hk h =>
    obtain ⟨hon, h⟩ := ifStatement_persists hblock h hc
    exact ⟨hon, fun _ => .ifOne (kind_followed hc hk (by decide)) h⟩
  | plain hk h =>
    obtain ⟨hon, h⟩ := expression_persists h hc
    refine ⟨hon, fun hne => .plain ?_ h⟩
    rw [current_followed hne]
    exact hk

theorem statementWith_persists (hblock : Persists q block) : StatementPersists q (statementWith block) := by
  intro c stmts c' h hc
  obtain ⟨hon, h⟩ := statementStep_persists hblock (gives_statementWith.mp h)
    ((onward_unseparated c).closed hc)
  refine ⟨hon, fun hne => gives_statementWith.mpr ?_⟩
  have hstart : unseparated (followed q c) = followed q (unseparated c) := unseparated_followed hne
  unfold unseparated at hstart hne
  rw [hstart]
  exact h hne

end Blocks

/-- A statement that is there takes a token at least, and ends on the level where it began. -/
theorem statement_moves {statement : Parser (List Stmt)} (hlead : GrammarStatements.Leading statement)
    (h : Gives statement c stmts c') (hgo : ¬(c.current.kind = .closeBrace ∨ c.current.kind = .eof)) :
    Onward c c' ∧ c'.rest.length < c.rest.length ∧ c'.depth = c.depth := by
  obtain ⟨u, hu, htake, _⟩ := hlead _ _ _ h
  have hpos : 0 < u.length := List.length_pos_iff.mpr fun hnil => hgo (htake hnil)
  have hlength := hu.length_eq
  exact ⟨.past hu, by omega, hu.depth_eq⟩

/-- The loop of a block stops before its brace, so each of its statements is more than semicolons. -/
theorem statements_persists {statement : Parser (List Stmt)} (hlead : GrammarStatements.Leading statement)
    (hstatement : StatementPersists q statement) : LoopPersists q (statements statement) := by
  apply loopPersists_of_turn rfl
  intro n m ih c stmts c' h hc hn hne
  rcases gives_statements_succ.mp h with ⟨hstop, rfl, rfl⟩ | ⟨hgo, first, d, others, hfirst, hothers, rfl⟩
  · refine ⟨.refl _, gives_statements_succ.mpr (.inl ⟨?_, rfl, rfl⟩)⟩
    rw [current_followed hne]
    exact hstop
  · obtain ⟨_, hshort, _⟩ := statement_moves hlead hfirst hgo
    obtain ⟨hd, hfirst⟩ := hstatement hfirst hc
    have hcd := (onward_unseparated c).trans hd
    obtain ⟨hon, hothers⟩ := ih hothers (hcd.closed hc) (by omega) hne
    refine ⟨hcd.trans hon, gives_statements_succ.mpr (.inr ⟨?_, first, _, others,
      hfirst ((hd.trans hon).ne_nil hne), hothers, rfl⟩)⟩
    rw [current_followed ((hcd.trans hon).ne_nil hne)]
    exact hgo

theorem blockOf_persists {statement : Parser (List Stmt)} (hlead : GrammarStatements.Leading statement)
    (hstatement : StatementPersists q statement) : Persists q (blockOf statement) := by
  intro c stmts c' h hc
  obtain ⟨hdepth, t, d, d₁, u, d₂, ht, hk, hstmts, hu, huk, rfl⟩ := gives_blockOf.mp h
  have hd : Onward c d := .deeper ht
  obtain ⟨hon, hstmts⟩ := statements_persists hlead hstatement hstmts (hd.closed hc) (past_ne_nil hu)
  have hend : Onward d₁ d₂ := .past hu
  exact ⟨(hd.trans hon).trans ⟨hend.rest, hend.close⟩, gives_blockOf.mpr ⟨hdepth, t, _, _, u, _,
    past_followed q ht, hk, hstmts, past_followed q hu, huk, rfl⟩⟩

theorem statementWithin_persists (n : Nat) : StatementPersists q (statementWithin n) := by
  induction n with
  | zero =>
    intro c stmts c' h _
    exact (gives_failHere.mp h).elim
  | succ n ih =>
    exact statementWith_persists (blockOf_persists (GrammarStatements.statementWithin_leading n) ih)

end Statements

end Scriptlet.Proofs.Persistence
