import Scriptlet.Program.Parse

namespace Scriptlet.Proofs.Reading
open Scriptlet.Program Scriptlet.Program.Parser

variable {α β : Type} {c c' : Cursor} {t : Token} {k : Token.Kind}

/-- A reader succeeds at `c` with `x` and leaves the cursor at `c'`. Failures are not told apart. -/
def Gives (p : Parser α) (c : Cursor) (x : α) (c' : Cursor) : Prop :=
  p.run c = .ok (x, c')

theorem gives_pure {a x : α} : Gives (pure a) c x c' ↔ x = a ∧ c' = c := by
  change (Except.ok (a, c) : Except ParseError (α × Cursor)) = .ok (x, c') ↔ _
  simp [eq_comm]

theorem gives_bind {p : Parser α} {f : α → Parser β} {y : β} :
    Gives (p >>= f) c y c' ↔ ∃ x d, Gives p c x d ∧ Gives (f x) d y c' := by
  simp only [Gives, StateT.run_bind]
  cases p.run c with
  | error e => simp [bind, Except.bind]
  | ok r =>
    obtain ⟨x, d⟩ := r
    simp only [bind, Except.bind, Except.ok.injEq, Prod.mk.injEq]
    constructor
    · intro h
      exact ⟨x, d, ⟨rfl, rfl⟩, h⟩
    · rintro ⟨_, _, ⟨rfl, rfl⟩, h⟩
      exact h

theorem gives_ite {b : Prop} [Decidable b] {p q : Parser α} {x : α} :
    Gives (if b then p else q) c x c' ↔ b ∧ Gives p c x c' ∨ ¬b ∧ Gives q c x c' := by
  split <;> simp [*]

theorem gives_failAt {position : Text.Position} {cause : ParseCause} {x : α} :
    Gives (failAt position cause) c x c' ↔ False := by
  simp [Gives, failAt, throw, throwThe, MonadExceptOf.throw, StateT.lift, StateT.run, bind,
    Except.bind]

theorem gives_get {d : Cursor} : Gives (get : Parser Cursor) c d c' ↔ d = c ∧ c' = c := by
  simp [Gives, get, getThe, MonadStateOf.get, StateT.get, StateT.run, pure, Except.pure, eq_comm]

theorem gives_set {d : Cursor} {u : PUnit} : Gives (set d : Parser PUnit) c u c' ↔ c' = d := by
  change (Except.ok (PUnit.unit, d) : Except ParseError (PUnit × Cursor)) = .ok (u, c') ↔ _
  simp [eq_comm]

theorem gives_modify {f : Cursor → Cursor} {u : PUnit} :
    Gives (modify f : Parser PUnit) c u c' ↔ c' = f c := by
  change (Except.ok (PUnit.unit, f c) : Except ParseError (PUnit × Cursor)) = .ok (u, c') ↔ _
  simp [eq_comm]

theorem gives_peek : Gives peek c t c' ↔ t = c.current ∧ c' = c := by
  simp only [peek, gives_bind, gives_get, gives_pure]
  grind

theorem gives_failHere {cause : ParseCause} {x : α} : Gives (failHere cause) c x c' ↔ False := by
  simp only [failHere, gives_bind, gives_failAt, and_false, exists_false]

theorem gives_remaining {n : Nat} : Gives remaining c n c' ↔ n = c.rest.length ∧ c' = c := by
  simp only [remaining, gives_bind, gives_get, gives_pure]
  grind

theorem gives_sees {b : Bool} : Gives (sees k) c b c' ↔ b = (c.current.kind == k) ∧ c' = c := by
  simp only [sees, gives_bind, gives_peek, gives_pure]
  constructor
  · rintro ⟨_, _, ⟨rfl, rfl⟩, hb, hc⟩
    exact ⟨hb, hc⟩
  · rintro ⟨hb, hc⟩
    exact ⟨_, _, ⟨rfl, rfl⟩, hb, hc⟩

theorem gives_seesNext {b : Bool} :
    Gives (seesNext k) c b c' ↔ b = ((c.rest.tail.headD c.close).kind == k) ∧ c' = c := by
  simp only [seesNext, gives_bind, gives_get, gives_pure]
  constructor
  · rintro ⟨_, _, ⟨rfl, rfl⟩, _, _, ⟨rfl, rfl⟩, hb, hc⟩
    exact ⟨hb, hc⟩
  · rintro ⟨hb, hc⟩
    exact ⟨_, _, ⟨rfl, rfl⟩, _, _, ⟨rfl, rfl⟩, hb, hc⟩

/-- `c'` stands behind the tokens `w` that `c` stands before; nothing else differs. -/
def Past (c : Cursor) (w : List Token) (c' : Cursor) : Prop :=
  c = { c' with rest := w ++ c'.rest }

theorem Past.refl (c : Cursor) : Past c [] c := rfl

theorem Past.cons (t : Token) (ts : List Token) (close : Token) (depth : Nat) :
    Past ⟨t :: ts, close, depth⟩ [t] ⟨ts, close, depth⟩ := rfl

theorem Past.trans {d : Cursor} {u v : List Token} (h : Past c u d) (g : Past d v c') :
    Past c (u ++ v) c' := by
  simp only [Past] at h g ⊢
  rw [h, g]
  simp

theorem Past.of_rest {w ts : List Token} (h : c.rest = w ++ ts) :
    Past c w { c with rest := ts } := by
  obtain ⟨rest, close, depth⟩ := c
  simp only at h
  simp [Past, h]

theorem Past.rest_eq {w : List Token} (h : Past c w c') : c.rest = w ++ c'.rest := by
  rw [h]

theorem Past.length_eq {w : List Token} (h : Past c w c') :
    c.rest.length = w.length + c'.rest.length := by
  rw [h.rest_eq, List.length_append]

theorem Past.depth_eq {w : List Token} (h : Past c w c') : c'.depth = c.depth := by
  rw [h]

theorem Past.current_eq (h : Past c [t] c') : c.current = t := by
  simp [Cursor.current, h.rest_eq]

theorem Past.next_eq (h : Past c [t] c') : c.rest.tail.headD c.close = c'.current := by
  rw [h]
  rfl

/-- A change of depth on both sides moves along. -/
theorem Past.with_depth {w : List Token} (h : Past c w c') (n : Nat) :
    Past { c with depth := n } w { c' with depth := n } := by
  rw [h]
  rfl

theorem gives_eat : Gives eat c t c' ↔ Past c [t] c' := by
  simp only [eat, gives_bind, gives_get]
  constructor
  · rintro ⟨_, _, ⟨rfl, rfl⟩, h⟩
    split at h
    · exact (gives_failAt.mp h).elim
    · rename_i u us hr
      simp only [gives_bind, gives_set, gives_pure] at h
      obtain ⟨_, _, rfl, rfl, rfl⟩ := h
      exact .of_rest (by simpa using hr)
  · intro h
    refine ⟨c, c, ⟨rfl, rfl⟩, ?_⟩
    simp only [h.rest_eq, List.singleton_append, gives_bind, gives_set, gives_pure]
    exact ⟨⟨⟩, _, rfl, trivial, by rw [h]⟩

theorem gives_expect : Gives (expect k) c t c' ↔ Past c [t] c' ∧ t.kind = k := by
  simp only [expect, gives_bind, gives_eat, gives_ite, gives_failAt, gives_pure]
  grind

theorem gives_skip {b : Bool} : Gives (skip k) c b c' ↔
    b = true ∧ (∃ t, Past c [t] c' ∧ t.kind = k) ∨ b = false ∧ c.current.kind ≠ k ∧ c' = c := by
  simp only [skip, gives_bind, gives_sees, gives_ite, gives_eat, gives_pure]
  constructor
  · rintro ⟨_, _, ⟨rfl, rfl⟩, ⟨hk, t, d, ht, rfl, rfl⟩ | ⟨hk, rfl, rfl⟩⟩
    · exact .inl ⟨rfl, t, ht, by simpa [ht.current_eq] using hk⟩
    · exact .inr ⟨rfl, by simpa using hk, rfl⟩
  · rintro (⟨rfl, t, ht, hk⟩ | ⟨rfl, hk, rfl⟩)
    · exact ⟨_, _, ⟨rfl, rfl⟩, .inl ⟨by simp [ht.current_eq, hk], t, _, ht, rfl, rfl⟩⟩
    · exact ⟨_, _, ⟨rfl, rfl⟩, .inr ⟨by simpa using hk, rfl, rfl⟩⟩

theorem gives_descend {u : Unit} :
    Gives descend c u c' ↔ c.depth < maxNesting ∧ c' = { c with depth := c.depth + 1 } := by
  simp only [descend, gives_bind, gives_get, gives_ite, gives_failHere, gives_set]
  grind

/-- A nested reader starts one level down, and its end comes back up by one. -/
theorem gives_nested {p : Parser α} {x : α} : Gives (nested p) c x c' ↔
    c.depth < maxNesting ∧ ∃ d, Gives p { c with depth := c.depth + 1 } x d ∧
      c' = { d with depth := d.depth - 1 } := by
  simp only [nested, gives_bind, gives_descend, gives_modify, gives_pure]
  grind

theorem gives_leveled {p : Parser α} {x : α} : Gives (leveled p) c x c' ↔
    ∃ d, Gives p c x d ∧ c' = { d with depth := c.depth } := by
  simp only [leveled, gives_bind, gives_get, gives_modify, gives_pure]
  grind

section Steps

variable {x : α}

theorem gives_peek_bind {f : Token → Parser α} :
    Gives (peek >>= f) c x c' ↔ Gives (f c.current) c x c' := by
  simp only [gives_bind, gives_peek, and_assoc, exists_and_left, exists_eq_left]

theorem gives_sees_bind {f : Bool → Parser α} :
    Gives (sees k >>= f) c x c' ↔ Gives (f (c.current.kind == k)) c x c' := by
  simp only [gives_bind, gives_sees, and_assoc, exists_and_left, exists_eq_left]

theorem gives_seesNext_bind {f : Bool → Parser α} : Gives (seesNext k >>= f) c x c' ↔
    Gives (f ((c.rest.tail.headD c.close).kind == k)) c x c' := by
  simp only [gives_bind, gives_seesNext, and_assoc, exists_and_left, exists_eq_left]

theorem gives_remaining_bind {f : Nat → Parser α} :
    Gives (remaining >>= f) c x c' ↔ Gives (f c.rest.length) c x c' := by
  simp only [gives_bind, gives_remaining, and_assoc, exists_and_left, exists_eq_left]

theorem gives_eat_bind {f : Token → Parser α} :
    Gives (eat >>= f) c x c' ↔ ∃ t d, Past c [t] d ∧ Gives (f t) d x c' := by
  simp only [gives_bind, gives_eat]

theorem gives_expect_bind {f : Token → Parser α} : Gives (expect k >>= f) c x c' ↔
    ∃ t d, Past c [t] d ∧ t.kind = k ∧ Gives (f t) d x c' := by
  simp only [gives_bind, gives_expect, and_assoc]

theorem gives_skip_bind {f : Bool → Parser α} : Gives (skip k >>= f) c x c' ↔
    (∃ t d, Past c [t] d ∧ t.kind = k ∧ Gives (f true) d x c') ∨
    c.current.kind ≠ k ∧ Gives (f false) c x c' := by
  simp only [gives_bind, gives_skip]
  constructor
  · rintro ⟨_, d, ⟨rfl, t, ht, hk⟩ | ⟨rfl, hk, rfl⟩, h⟩
    · exact .inl ⟨t, d, ht, hk, h⟩
    · exact .inr ⟨hk, h⟩
  · rintro (⟨t, d, ht, hk, h⟩ | ⟨hk, h⟩)
    · exact ⟨true, d, .inl ⟨rfl, t, ht, hk⟩, h⟩
    · exact ⟨false, c, .inr ⟨rfl, hk, rfl⟩, h⟩

theorem gives_descend_bind {f : Unit → Parser α} : Gives (descend >>= f) c x c' ↔
    c.depth < maxNesting ∧ Gives (f ()) { c with depth := c.depth + 1 } x c' := by
  simp only [gives_bind, gives_descend]
  exact ⟨fun ⟨_, _, ⟨hd, he⟩, h⟩ => ⟨hd, he ▸ h⟩, fun ⟨hd, h⟩ => ⟨(), _, ⟨hd, rfl⟩, h⟩⟩

end Steps

section Expressions

variable {expr : Parser Expr} {e : Expr} {es : List Expr} {n : Nat}

/-- What a target becomes when it is written: a variable or a member. -/
inductive Written : Expr → Expr → Expr → Prop where
  | assign (name : String) (value : Expr) : Written (.identifier name) value (.assign name value)
  | member (object key value : Expr) (computed : Bool) :
      Written (.member object key computed none) value (.member object key computed (some value))

theorem gives_assignTo {target value : Expr} {position : Text.Position} :
    Gives (assignTo target value position) c e c' ↔ Written target value e ∧ c' = c := by
  unfold assignTo
  split
  · rename_i name
    rw [gives_pure]
    constructor
    · rintro ⟨rfl, rfl⟩
      exact ⟨.assign name value, rfl⟩
    · rintro ⟨⟨⟩, rfl⟩
      exact ⟨rfl, rfl⟩
  · rename_i object key computed
    rw [gives_pure]
    constructor
    · rintro ⟨rfl, rfl⟩
      exact ⟨.member object key value computed, rfl⟩
    · rintro ⟨⟨⟩, rfl⟩
      exact ⟨rfl, rfl⟩
  · rename_i hv hm
    rw [gives_failAt, false_iff]
    rintro ⟨⟨⟩, rfl⟩
    · exact hv _ rfl
    · exact hm _ _ _ rfl

/-- An assignment, and not a comparison, begins at the cursor. -/
def AtAssignment (c : Cursor) : Prop :=
  c.current.kind = .equals ∧ (c.rest.tail.headD c.close).kind ≠ .equals

instance (c : Cursor) : Decidable (AtAssignment c) :=
  inferInstanceAs (Decidable (_ ∧ _))

theorem AtAssignment.kind_eq (h : AtAssignment c) (ht : Past c [t] c') : t.kind = .equals := by
  rw [← ht.current_eq]
  exact h.1

theorem gives_seesAssignment_bind {f : Bool → Parser α} {x : α} :
    Gives (seesAssignment >>= f) c x c' ↔ Gives (f (decide (AtAssignment c))) c x c' := by
  have h : decide (AtAssignment c) =
      (c.current.kind == .equals && !((c.rest.tail.headD c.close).kind == .equals)) := by
    rw [Bool.eq_iff_iff, decide_eq_true_eq]
    simp only [AtAssignment, Bool.and_eq_true, beq_iff_eq, Bool.not_eq_true', beq_eq_false_iff_ne]
  simp only [seesAssignment, bind_assoc, pure_bind, ↓gives_sees_bind, ↓gives_seesNext_bind, h]

theorem gives_primary : Gives (primary expr) c e c' ↔ ∃ t d, Past c [t] d ∧
    (t.kind = .identifier ∧ e = .identifier t.text ∧ c' = d ∨
      t.kind = .number ∧ (∃ x, Decimal.read? t.text.toList = some x ∧ e = .number x) ∧ c' = d ∨
      t.kind = .string ∧ e = .text t.text ∧ c' = d ∨
      t.kind = .openParen ∧ ∃ d' u, Gives expr d e d' ∧ Past d' [u] c' ∧ u.kind = .closeParen) := by
  unfold primary
  rw [gives_peek_bind]
  constructor
  · intro h
    split at h
    all_goals simp only [↓gives_eat_bind, ↓gives_expect_bind, gives_bind, gives_pure, gives_failAt] at h
    · rename_i hk
      obtain ⟨t, d, ht, rfl, rfl⟩ := h
      rw [ht.current_eq] at hk ⊢
      exact ⟨t, c', ht, .inl ⟨hk, rfl, rfl⟩⟩
    · rename_i hk
      obtain ⟨t, d, ht, h⟩ := h
      rw [ht.current_eq] at hk h
      split at h
      · rename_i x hx
        obtain ⟨rfl, rfl⟩ := gives_pure.mp h
        exact ⟨t, c', ht, .inr (.inl ⟨hk, ⟨x, hx, rfl⟩, rfl⟩)⟩
      · exact (gives_failAt.mp h).elim
    · rename_i hk
      obtain ⟨t, d, ht, rfl, rfl⟩ := h
      rw [ht.current_eq] at hk ⊢
      exact ⟨t, c', ht, .inr (.inr (.inl ⟨hk, rfl, rfl⟩))⟩
    · rename_i hk
      obtain ⟨t, d, ht, e', d', he, u, _, hu, huk, rfl, rfl⟩ := h
      rw [ht.current_eq] at hk
      exact ⟨t, d, ht, .inr (.inr (.inr ⟨hk, d', u, he, hu, huk⟩))⟩
  · rintro ⟨t, d, ht, h⟩
    rw [ht.current_eq]
    rcases h with ⟨hk, rfl, rfl⟩ | ⟨hk, ⟨x, hx, rfl⟩, rfl⟩ | ⟨hk, rfl, rfl⟩ | ⟨hk, d', u, he, hu, huk⟩
    all_goals simp only [hk]
    all_goals simp only [↓gives_eat_bind, ↓gives_expect_bind, gives_bind, gives_pure]
    · exact ⟨t, c', ht, trivial, rfl⟩
    · exact ⟨t, c', ht, by simp [hx, gives_pure]⟩
    · exact ⟨t, c', ht, trivial, rfl⟩
    · exact ⟨t, d, ht, e, d', he, u, c', hu, huk, rfl, rfl⟩

/-- Only an identifier, bare or in parentheses, follows a dot. -/
theorem gives_dotMember : Gives (dotMember expr) c e c' ↔
    Gives (primary expr) c e c' ∧ ∃ name, e = .identifier name := by
  unfold dotMember
  rw [gives_peek_bind, gives_bind]
  constructor
  · rintro ⟨x, d, hx, h⟩
    split at h
    · obtain ⟨rfl, rfl⟩ := gives_pure.mp h
      exact ⟨hx, _, rfl⟩
    · exact (gives_failAt.mp h).elim
  · rintro ⟨h, name, rfl⟩
    exact ⟨_, _, h, gives_pure.mpr ⟨rfl, rfl⟩⟩

/-- One more member, given what the member before it is read into. -/
inductive MemberStep (expr : Parser Expr) (object : Expr) : Cursor → Expr → Cursor → Prop where
  | dot {c d c' : Cursor} {t : Token} {key : Expr} (hc : c.depth < maxNesting)
      (ht : Past { c with depth := c.depth + 1 } [t] d) (hk : t.kind = .dot)
      (hkey : Gives (dotMember expr) d key c') :
      MemberStep expr object c (.member object key false none) c'
  | index {c d d' c' : Cursor} {t u : Token} {key : Expr} (hc : c.depth < maxNesting)
      (ht : Past { c with depth := c.depth + 1 } [t] d) (hk : t.kind = .openBracket)
      (hkey : Gives expr d key d') (hu : Past d' [u] c') (huk : u.kind = .closeBracket) :
      MemberStep expr object c (.member object key true none) c'

theorem gives_memberTail_succ {object : Expr} :
    Gives (memberTail expr (n + 1) object) c e c' ↔
    (∃ more d, MemberStep expr object c more d ∧ Gives (memberTail expr n more) d e c') ∨
    c.current.kind ≠ .dot ∧ c.current.kind ≠ .openBracket ∧ e = object ∧ c' = c := by
  rw [memberTail, gives_peek_bind]
  constructor
  · intro h
    split at h
    all_goals simp only [↓gives_descend_bind, ↓gives_eat_bind, ↓gives_expect_bind, gives_bind,
      gives_pure] at h
    · rename_i hk
      obtain ⟨hc, t, d, ht, key, d', hkey, h⟩ := h
      have he : c.current = t := ht.current_eq
      exact .inl ⟨_, d', .dot hc ht (he ▸ hk) hkey, h⟩
    · rename_i hk
      obtain ⟨hc, t, d, ht, key, d', hkey, u, d'', hu, huk, h⟩ := h
      have he : c.current = t := ht.current_eq
      exact .inl ⟨_, d'', .index hc ht (he ▸ hk) hkey hu huk, h⟩
    · rename_i hdot hopen
      exact .inr ⟨hdot, hopen, h⟩
  · rintro (⟨more, d, ⟨hc, ht, hk, hkey⟩ | ⟨hc, ht, hk, hkey, hu, huk⟩, h⟩ | ⟨hdot, hopen, h⟩)
    · rw [show c.current = _ from ht.current_eq]
      simp only [hk]
      simp only [↓gives_descend_bind, ↓gives_eat_bind, gives_bind]
      exact ⟨hc, _, _, ht, _, _, hkey, h⟩
    · rw [show c.current = _ from ht.current_eq]
      simp only [hk]
      simp only [↓gives_descend_bind, ↓gives_eat_bind, ↓gives_expect_bind, gives_bind]
      exact ⟨hc, _, _, ht, _, _, hkey, _, _, hu, huk, h⟩
    · split
      · contradiction
      · contradiction
      · exact gives_pure.mpr h

theorem gives_memberChain : Gives (memberChain expr) c e c' ↔
    ∃ first d object d' , Gives (primary expr) c first d ∧
      Gives (leveled (memberTail expr levels first)) d object d' ∧
      (AtAssignment d' ∧ (∃ t d'' value, Past d' [t] d'' ∧ Gives expr d'' value c' ∧
          Written object value e) ∨
        ¬AtAssignment d' ∧ e = object ∧ c' = d') := by
  unfold memberChain
  simp only [↓gives_seesAssignment_bind, ↓gives_eat_bind, gives_bind, gives_ite, gives_assignTo,
    gives_pure, decide_eq_true_eq]
  grind

theorem gives_moreArguments_succ : Gives (moreArguments expr (n + 1)) c es c' ↔
    (∃ t d first d' others, Past c [t] d ∧ t.kind = .comma ∧ Gives expr d first d' ∧
      Gives (moreArguments expr n) d' others c' ∧ es = first :: others) ∨
    c.current.kind ≠ .comma ∧ es = [] ∧ c' = c := by
  rw [moreArguments]
  simp only [↓gives_skip_bind, gives_bind, gives_ite, gives_pure]
  grind

theorem gives_arguments : Gives (arguments expr) c es c' ↔
    ∃ t d u d', Past c [t] d ∧ t.kind = .openParen ∧ Past d' [u] c' ∧ u.kind = .closeParen ∧
      (es = [] ∧ d' = d ∨ d.current.kind ≠ .closeParen ∧ ∃ first d'' others,
        Gives expr d first d'' ∧ Gives (moreArguments expr d''.rest.length) d'' others d' ∧
        es = first :: others) := by
  unfold arguments
  simp only [↓gives_expect_bind, ↓gives_sees_bind, ↓gives_remaining_bind, gives_bind, gives_ite,
    gives_pure, beq_iff_eq]
  constructor
  · rintro ⟨t, d, ht, hk, ⟨_, u, _, hu, huk, rfl, rfl⟩ |
      ⟨hn, first, d'', hfirst, others, d', hothers, u, _, hu, huk, rfl, rfl⟩⟩
    · exact ⟨t, d, u, d, ht, hk, hu, huk, .inl ⟨rfl, rfl⟩⟩
    · exact ⟨t, d, u, d', ht, hk, hu, huk, .inr ⟨hn, first, d'', others, hfirst, hothers, rfl⟩⟩
  · rintro ⟨t, d, u, d', ht, hk, hu, huk, ⟨rfl, rfl⟩ |
      ⟨hn, first, d'', others, hfirst, hothers, rfl⟩⟩
    · exact ⟨t, d', ht, hk, .inl ⟨by rw [hu.current_eq, huk], u, c', hu, huk, rfl, rfl⟩⟩
    · exact ⟨t, d, ht, hk, .inr ⟨hn, first, d'', hfirst, others, d', hothers, u, c', hu, huk, rfl,
        rfl⟩⟩

theorem gives_callTail_succ {callee : Expr} : Gives (callTail expr (n + 1) callee) c e c' ↔
    (c.depth < maxNesting ∧ ∃ args d, c.current.kind = .openParen ∧
      Gives (arguments expr) { c with depth := c.depth + 1 } args d ∧
      Gives (callTail expr n (.call callee args)) d e c') ∨
    c.current.kind ≠ .openParen ∧ e = callee ∧ c' = c := by
  rw [callTail]
  simp only [↓gives_sees_bind, ↓gives_descend_bind, gives_bind, gives_ite, gives_pure, beq_iff_eq]
  grind

/-- The operator at the cursor, if it is an accepted one. -/
def operatorAt (accepted : BinaryOp → Bool) (c : Cursor) : Option BinaryOp :=
  if c.current.kind = .binaryOperator then (BinaryOp.ofSymbol? c.current.text).filter accepted
  else none

theorem gives_seesOperator_bind {accepted : BinaryOp → Bool} {f : Option BinaryOp → Parser α}
    {x : α} : Gives (seesOperator accepted >>= f) c x c' ↔
    Gives (f (operatorAt accepted c)) c x c' := by
  simp only [seesOperator, bind_assoc, ↓gives_peek_bind, operatorAt]
  split <;> simp only [pure_bind]

theorem gives_foldTail_succ {accepted : BinaryOp → Bool} {operand : Parser Expr} {left : Expr} :
    Gives (foldTail accepted operand (n + 1) left) c e c' ↔
    (∃ op t d right d', operatorAt accepted c = some op ∧ c.depth < maxNesting ∧
      Past { c with depth := c.depth + 1 } [t] d ∧ Gives operand d right d' ∧
      Gives (foldTail accepted operand n (.binary left op right)) d' e c') ∨
    operatorAt accepted c = none ∧ e = left ∧ c' = c := by
  rw [foldTail, gives_seesOperator_bind]
  cases operatorAt accepted c with
  | none => simp only [gives_pure, reduceCtorEq, false_and, exists_false, true_and, false_or]
  | some op =>
    simp only [↓gives_descend_bind, ↓gives_eat_bind, gives_bind]
    grind

/-- One entry of an object literal, together with the comma behind it if there is one. -/
inductive EntryStep (expr : Parser Expr) : Cursor → Property → Cursor → Prop where
  | bare {c d c' : Cursor} {t u : Token} (ht : Past c [t] d) (hk : t.kind = .identifier)
      (hu : Past d [u] c') (huk : u.kind = .comma) : EntryStep expr c (.shorthand t.text) c'
  | bareLast {c c' : Cursor} {t : Token} (ht : Past c [t] c') (hk : t.kind = .identifier)
      (hlast : c'.current.kind = .closeBrace) : EntryStep expr c (.shorthand t.text) c'
  | valued {c d d' d'' c' : Cursor} {t u v : Token} {value : Expr} (ht : Past c [t] d)
      (hk : t.kind = .identifier) (hu : Past d [u] d') (huk : u.kind = .colon)
      (hvalue : Gives expr d' value d'') (hv : Past d'' [v] c') (hvk : v.kind = .comma) :
      EntryStep expr c (.valued t.text value) c'
  | valuedLast {c d d' c' : Cursor} {t u : Token} {value : Expr} (ht : Past c [t] d)
      (hk : t.kind = .identifier) (hu : Past d [u] d') (huk : u.kind = .colon)
      (hvalue : Gives expr d' value c') (hlast : c'.current.kind = .closeBrace) :
      EntryStep expr c (.valued t.text value) c'

theorem gives_properties_succ {ps : List Property} : Gives (properties expr (n + 1)) c ps c' ↔
    ((c.current.kind = .eof ∨ c.current.kind = .closeBrace) ∧ ps = [] ∧ c' = c) ∨
    (¬(c.current.kind = .eof ∨ c.current.kind = .closeBrace) ∧ ∃ p d others,
      EntryStep expr c p d ∧ Gives (properties expr n) d others c' ∧ ps = p :: others) := by
  rw [properties, atEnd]
  simp only [↓gives_sees_bind, ↓gives_expect_bind, ↓gives_skip_bind, gives_bind, gives_ite,
    gives_pure, Bool.or_eq_true, beq_iff_eq, Bool.not_eq_true', beq_eq_false_iff_ne, ne_eq,
    Bool.false_eq_true, not_true_eq_false, not_false_eq_true, true_and, false_and, or_false, false_or]
  constructor
  · rintro (⟨hend, rfl, rfl⟩ | ⟨hmore, t, d, ht, hk, h⟩)
    · exact .inl ⟨hend, rfl, rfl⟩
    · refine .inr ⟨hmore, ?_⟩
      rcases h with ⟨u, d', hu, huk, others, _, hothers, rfl, rfl⟩ |
        ⟨_, ⟨hlast, others, _, hothers, rfl, rfl⟩ | ⟨_, u, d', hu, huk, value, d'', hvalue, h⟩⟩
      · exact ⟨_, d', others, .bare ht hk hu huk, hothers, rfl⟩
      · exact ⟨_, d, others, .bareLast ht hk hlast, hothers, rfl⟩
      · rcases h with ⟨_, v, d3, hv, hvk, others, _, hothers, rfl, rfl⟩ |
          ⟨hlast, others, _, hothers, rfl, rfl⟩
        · exact ⟨_, d3, others, .valued ht hk hu huk hvalue hv hvk, hothers, rfl⟩
        · exact ⟨_, d'', others, .valuedLast ht hk hu huk hvalue (by simpa using hlast), hothers, rfl⟩
  · rintro (⟨hend, rfl, rfl⟩ | ⟨hmore, p, d, others, hp, hothers, rfl⟩)
    · exact .inl ⟨hend, rfl, rfl⟩
    · refine .inr ⟨hmore, ?_⟩
      cases hp with
      | bare ht hk hu huk => exact ⟨_, _, ht, hk, .inl ⟨_, _, hu, huk, _, _, hothers, rfl, rfl⟩⟩
      | bareLast ht hk hlast =>
        exact ⟨_, _, ht, hk, .inr ⟨by simp [hlast], .inl ⟨hlast, _, _, hothers, rfl, rfl⟩⟩⟩
      | valued ht hk hu huk hvalue hv hvk =>
        refine ⟨_, _, ht, hk, .inr ⟨by simp [hu.current_eq, huk], .inr ⟨by simp [hu.current_eq, huk],
          _, _, hu, huk, _, _, hvalue, .inl ⟨by simp [hv.current_eq, hvk], _, _, hv, hvk, _, _, hothers,
          rfl, rfl⟩⟩⟩⟩
      | valuedLast ht hk hu huk hvalue hlast =>
        refine ⟨_, _, ht, hk, .inr ⟨by simp [hu.current_eq, huk], .inr ⟨by simp [hu.current_eq, huk],
          _, _, hu, huk, _, _, hvalue, .inr ⟨by simp [hlast], _, _, hothers, rfl, rfl⟩⟩⟩⟩

theorem gives_objectLiteral : Gives (objectLiteral expr) c e c' ↔
    (∃ t d ps d' u, Past c [t] d ∧ t.kind = .openBrace ∧
      Gives (properties expr d.rest.length) d ps d' ∧ Past d' [u] c' ∧ u.kind = .closeBrace ∧
      e = .object ps) ∨
    c.current.kind ≠ .openBrace ∧ Gives (additive expr) c e c' := by
  unfold objectLiteral
  simp only [↓gives_skip_bind, ↓gives_remaining_bind, gives_bind, gives_ite, gives_pure,
    gives_failHere]
  grind

theorem gives_elements_succ : Gives (elements expr (n + 1)) c es c' ↔
    ((c.current.kind = .eof ∨ c.current.kind = .closeBracket) ∧ es = [] ∧ c' = c) ∨
    (¬(c.current.kind = .eof ∨ c.current.kind = .closeBracket) ∧ ∃ first d, Gives expr c first d ∧
      ((∃ t d' others, Past d [t] d' ∧ t.kind = .comma ∧ d'.current.kind ≠ .closeBracket ∧
          Gives (elements expr n) d' others c' ∧ es = first :: others) ∨
        d.current.kind ≠ .comma ∧ es = [first] ∧ c' = d)) := by
  rw [elements, atEnd]
  simp only [↓gives_sees_bind, ↓gives_eat_bind, gives_bind, gives_ite, gives_pure, gives_failAt,
    Bool.or_eq_true, beq_iff_eq]
  grind [Past.current_eq]

theorem gives_arrayLiteral : Gives (arrayLiteral expr) c e c' ↔
    (∃ t d es d' u, Past c [t] d ∧ t.kind = .openBracket ∧
      Gives (elements expr d.rest.length) d es d' ∧ Past d' [u] c' ∧ u.kind = .closeBracket ∧
      e = .array es) ∨
    c.current.kind ≠ .openBracket ∧ Gives (objectLiteral expr) c e c' := by
  unfold arrayLiteral
  simp only [↓gives_skip_bind, ↓gives_remaining_bind, gives_bind, gives_ite, gives_pure,
    gives_failHere]
  grind

theorem gives_assignment_succ : Gives (assignment expr (n + 1)) c e c' ↔
    ∃ target d, Gives (arrayLiteral expr) c target d ∧
      (AtAssignment d ∧ (∃ t d' value, Past d [t] d' ∧ Gives (nested (assignment expr n)) d' value c' ∧
          Written target value e) ∨
        ¬AtAssignment d ∧ e = target ∧ c' = d) := by
  rw [assignment]
  simp only [↓gives_seesAssignment_bind, ↓gives_eat_bind, gives_bind, gives_ite, gives_assignTo,
    gives_pure, decide_eq_true_eq]
  grind

theorem gives_boolean : Gives (boolean expr) c e c' ↔
    ∃ left d, Gives (assignment expr levels) c left d ∧
      ((∃ t d' u d'' right, Past d [t] d' ∧ t.kind = .booleanOperator ∧ Past d' [u] d'' ∧
          u.kind = .booleanOperator ∧ u.text = t.text ∧ Gives expr d'' right c' ∧
          e = .boolean left (if t.text = "&" then .and else .or) right) ∨
        d.current.kind ≠ .booleanOperator ∧ e = left ∧ c' = d) := by
  unfold boolean
  simp only [↓gives_sees_bind, ↓gives_eat_bind, ↓gives_peek_bind, gives_bind, gives_ite,
    gives_failAt, gives_pure, beq_iff_eq, and_false, false_or, ne_eq, not_or,
    Decidable.not_not]
  constructor
  · rintro ⟨left, d, hleft, ⟨hk, t, d', ht, ⟨huk, hut⟩, u, d'', hu, right, _, hright, rfl, rfl⟩ |
      ⟨hk, rfl, rfl⟩⟩
    · rw [ht.current_eq] at hk
      rw [hu.current_eq] at huk hut
      exact ⟨left, d, hleft, .inl ⟨t, d', u, d'', right, ht, hk, hu, huk, hut, hright, rfl⟩⟩
    · exact ⟨_, _, hleft, .inr ⟨hk, rfl, rfl⟩⟩
  · rintro ⟨left, d, hleft, ⟨t, d', u, d'', right, ht, hk, hu, huk, hut, hright, rfl⟩ |
      ⟨hk, rfl, rfl⟩⟩
    · rw [← ht.current_eq] at hk
      rw [← hu.current_eq] at huk hut
      exact ⟨left, d, hleft, .inl ⟨hk, t, d', ht, ⟨huk, hut⟩, u, d'', hu, right, c', hright, rfl, rfl⟩⟩
    · exact ⟨_, _, hleft, .inr ⟨hk, rfl, rfl⟩⟩

/-- The comparison at the cursor, with its flag for equality. -/
inductive ComparisonStep : Cursor → LogicalOp → Bool → Cursor → Prop where
  | order {c c' : Cursor} {t : Token} (ht : Past c [t] c') (hk : t.kind = .logicalOperator)
      (hn : c'.current.kind ≠ .equals) :
      ComparisonStep c (if t.text = "<" then .less else .greater) false c'
  | orderOrEqual {c d c' : Cursor} {t u : Token} (ht : Past c [t] d) (hk : t.kind = .logicalOperator)
      (hu : Past d [u] c') (huk : u.kind = .equals) :
      ComparisonStep c (if t.text = "<" then .less else .greater) true c'
  | equal {c d c' : Cursor} {t u : Token} (ht : Past c [t] d) (hk : t.kind = .equals)
      (hu : Past d [u] c') (huk : u.kind = .equals) : ComparisonStep c .equal true c'
  | notEqual {c d c' : Cursor} {t u : Token} (ht : Past c [t] d) (hk : t.kind = .not)
      (hu : Past d [u] c') (huk : u.kind = .equals) : ComparisonStep c .notEqual true c'

/-- A comparison begins at the cursor. -/
def AtComparison (c : Cursor) : Prop :=
  c.current.kind = .logicalOperator ∨
    (c.current.kind = .equals ∨ c.current.kind = .not) ∧ (c.rest.tail.headD c.close).kind = .equals

theorem gives_comparison {o : Option (LogicalOp × Bool)} : Gives comparison c o c' ↔
    (∃ op equals, ComparisonStep c op equals c' ∧ o = some (op, equals)) ∨
    ¬AtComparison c ∧ o = none ∧ c' = c := by
  unfold comparison
  simp only [↓gives_sees_bind, ↓gives_seesNext_bind, ↓gives_eat_bind, ↓gives_skip_bind, gives_ite,
    gives_pure, Bool.and_eq_true, beq_iff_eq]
  constructor
  · rintro (⟨hk, t, d, ht, ⟨u, _, hu, huk, rfl, rfl⟩ | ⟨hn, rfl, rfl⟩⟩ |
      ⟨_, ⟨⟨hk, hnk⟩, t, d, ht, u, _, hu, rfl, rfl⟩ | ⟨_, ⟨⟨hk, hnk⟩, t, d, ht, u, _, hu, rfl, rfl⟩ |
        ⟨_, rfl, rfl⟩⟩⟩)
    · exact .inl ⟨_, _, .orderOrEqual ht (ht.current_eq ▸ hk) hu huk, rfl⟩
    · exact .inl ⟨_, _, .order ht (ht.current_eq ▸ hk) hn, rfl⟩
    · rw [ht.next_eq, hu.current_eq] at hnk
      exact .inl ⟨_, _, .equal ht (ht.current_eq ▸ hk) hu hnk, rfl⟩
    · rw [ht.next_eq, hu.current_eq] at hnk
      exact .inl ⟨_, _, .notEqual ht (ht.current_eq ▸ hk) hu hnk, rfl⟩
    · exact .inr ⟨by unfold AtComparison; grind, rfl, rfl⟩
  · rintro (⟨op, equals, h, rfl⟩ | ⟨hn, rfl, rfl⟩)
    · cases h with
      | order ht hk hn =>
        exact .inl ⟨ht.current_eq ▸ hk, _, _, ht, .inr ⟨hn, rfl, rfl⟩⟩
      | orderOrEqual ht hk hu huk =>
        exact .inl ⟨ht.current_eq ▸ hk, _, _, ht, .inl ⟨_, _, hu, huk, rfl, rfl⟩⟩
      | equal ht hk hu huk =>
        rw [ht.next_eq, hu.current_eq, ht.current_eq, hk, huk]
        exact .inr ⟨by simp, .inl ⟨⟨rfl, rfl⟩, _, _, ht, _, _, hu, rfl, rfl⟩⟩
      | notEqual ht hk hu huk =>
        rw [ht.next_eq, hu.current_eq, ht.current_eq, hk, huk]
        exact .inr ⟨by simp, .inr ⟨by simp, .inl ⟨⟨rfl, rfl⟩, _, _, ht, _, _, hu, rfl, rfl⟩⟩⟩
    · unfold AtComparison at hn
      grind

theorem gives_logical : Gives (logical expr) c e c' ↔
    ∃ left d, Gives (boolean expr) c left d ∧
      ((∃ op equals d' right, ComparisonStep d op equals d' ∧ Gives expr d' right c' ∧
          e = .logical left op equals right) ∨
        ¬AtComparison d ∧ e = left ∧ c' = d) := by
  unfold logical
  simp only [gives_bind, gives_comparison]
  constructor
  · rintro ⟨left, d, hleft, o, d', ⟨op, equals, hop, rfl⟩ | ⟨hn, rfl, rfl⟩, h⟩
    · simp only [gives_bind, gives_pure] at h
      obtain ⟨right, _, hright, rfl, rfl⟩ := h
      exact ⟨left, d, hleft, .inl ⟨op, equals, d', right, hop, hright, rfl⟩⟩
    · exact ⟨left, d', hleft, .inr ⟨hn, gives_pure.mp h⟩⟩
  · rintro ⟨left, d, hleft, ⟨op, equals, d', right, hop, hright, rfl⟩ | ⟨hn, h⟩⟩
    · refine ⟨left, d, hleft, _, d', .inl ⟨op, equals, hop, rfl⟩, ?_⟩
      simp only [gives_bind, gives_pure]
      exact ⟨right, c', hright, rfl, rfl⟩
    · exact ⟨left, d, hleft, none, d, .inr ⟨hn, rfl, rfl⟩, gives_pure.mpr h⟩

theorem gives_negation : Gives (negation expr) c e c' ↔
    (∃ t d operand, Past c [t] d ∧ t.kind = .not ∧ Gives expr d operand c' ∧ e = .not operand) ∨
    c.current.kind ≠ .not ∧ Gives (logical expr) c e c' := by
  unfold negation
  simp only [↓gives_skip_bind, gives_bind, gives_ite, gives_pure]
  grind

end Expressions

end Scriptlet.Proofs.Reading
