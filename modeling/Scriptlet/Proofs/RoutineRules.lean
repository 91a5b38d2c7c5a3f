import Scriptlet.Proofs.RoutineRuns

namespace Scriptlet.Proofs.RoutineRules
open Scriptlet.Program Reading Routines RoutineRuns

variable {ts : List Token} {p q : Place} {α β : Type} {k : Token.Kind}

/-- From a place on, acts end inside and come to what a reader gives. -/
def Serves (ts : List Token) (c : Code α) (p : Place) (reader : Parser α) : Prop :=
  ∃ x q, Runs ts c p x q ∧ Inside ts q ∧ Further p q ∧ Follows ts reader p x q

/-- A routine can be called at a place. -/
def Keeps (ts : List Token) (r : Routine α) (p : Place) : Prop :=
  ∃ x q, Runs ts r.code p x q ∧ Kept ts r p x q

/-- A routine can be called wherever the counter is not below `d`. -/
def Reliable (ts : List Token) (d : Nat) (r : Routine α) : Prop :=
  ∀ p, Inside ts p → d ≤ p.depth → Keeps ts r p

theorem code_bind_assoc {γ : Type} (c : Code α) (f : α → Code β) (g : β → Code γ) :
    c >>= f >>= g = c >>= fun x => f x >>= g := by
  change (c.bind f).bind g = c.bind fun x => (f x).bind g
  induction c with
  | done x => cases x <;> rfl
  | look next ih => exact congrArg Code.look (funext ih)
  | lookNext next ih => exact congrArg Code.lookNext (funext ih)
  | advance next ih => exact congrArg Code.advance ih
  | level next ih => exact congrArg Code.level (funext ih)
  | setLevel n next ih => exact congrArg (Code.setLevel n) ih
  | lower next ih => exact congrArg Code.lower ih
  | call r next ih => exact congrArg (Code.call r) (funext ih)

section Rules

variable {c : Code α} {f : α → Code β} {reader : Parser α} {g : α → Parser β}

theorem serves_pure (h : Inside ts p) (v : α) : Serves ts (pure v) p (pure v) :=
  ⟨.ok v, p, .done _ _, h, .refl p, rfl⟩

theorem serves_failAt (h : Inside ts p) (position : Text.Position) (cause : ParseCause) :
    Serves ts (Code.failAt position cause : Code α) p (Parser.failAt position cause) :=
  ⟨.error ⟨position, cause⟩, p, .done _ _, h, .refl p, rfl⟩

/-- Only what a reader does at the place counts. -/
theorem Serves.congr {reader' : Parser α} (h : Serves ts c p reader')
    (heq : reader.run (cursorAt ts p) = reader'.run (cursorAt ts p)) : Serves ts c p reader := by
  obtain ⟨x, q, hrun, hq, hpq, hfollows⟩ := h
  exact ⟨x, q, hrun, hq, hpq, heq.trans hfollows⟩

/-- Both sides go on from a value, and both end at an error. -/
theorem Serves.bind (h : Serves ts c p reader)
    (hf : ∀ v q, Inside ts q → Further p q → Gives reader (cursorAt ts p) v (cursorAt ts q) →
      Serves ts (f v) q (g v)) : Serves ts (c >>= f) p (reader >>= g) := by
  obtain ⟨x, q, hrun, hq, hpq, hfollows⟩ := h
  cases x with
  | error e =>
    refine ⟨.error e, q, hrun.bind_error rfl, hq, hpq, ?_⟩
    unfold Follows at hfollows ⊢
    rw [StateT.run_bind, hfollows]
    rfl
  | ok v =>
    obtain ⟨y, q', hrun', hq', hqq', hfollows'⟩ := hf v q hq hpq hfollows
    refine ⟨y, q', hrun.bind_ok rfl hrun', hq', hpq.trans hqq', ?_⟩
    unfold Follows at hfollows ⊢
    rw [StateT.run_bind, hfollows]
    exact hfollows'

theorem serves_ite {b : Prop} [Decidable b] {c c' : Code α} {reader reader' : Parser α}
    (hpos : b → Serves ts c p reader) (hneg : ¬b → Serves ts c' p reader') :
    Serves ts (if b then c else c') p (if b then reader else reader') := by
  split
  · exact hpos ‹_›
  · exact hneg ‹_›

theorem serves_peek_bind {f : Token → Code β} {g : Token → Parser β} (h : Inside ts p)
    (hf : Serves ts (f (cursorAt ts p).current) p (g (cursorAt ts p).current)) :
    Serves ts (Code.peek >>= f) p (Parser.peek >>= g) := by
  obtain ⟨x, q, hrun, hq, hpq, hfollows⟩ := hf
  exact ⟨x, q, .look (getElem?_index h) hrun, hq, hpq, hfollows⟩

theorem serves_failHere (h : Inside ts p) (cause : ParseCause) :
    Serves ts (Code.failHere cause : Code α) p (Parser.failHere cause) :=
  serves_peek_bind h (serves_failAt h _ _)

theorem serves_sees_bind {f : Bool → Code β} {g : Bool → Parser β} (h : Inside ts p)
    (hf : Serves ts (f ((cursorAt ts p).current.kind == k)) p (g ((cursorAt ts p).current.kind == k))) :
    Serves ts (Code.sees k >>= f) p (Parser.sees k >>= g) :=
  serves_peek_bind (f := fun t => f (t.kind == k)) (g := fun t => g (t.kind == k)) h hf

/-- The token behind may be looked at where the one at the index is no end. -/
theorem serves_seesNext_bind {f : Bool → Code β} {g : Bool → Parser β} (h : Inside ts p)
    (hend : (cursorAt ts p).current.kind ≠ .eof) (hf : ∀ b, Serves ts (f b) p (g b)) :
    Serves ts (Code.seesNext k >>= f) p (Parser.seesNext k >>= g) := by
  obtain ⟨x, q, hrun, hq, hpq, hfollows⟩ :=
    hf (((cursorAt ts p).rest.tail.headD (cursorAt ts p).close).kind == k)
  refine ⟨x, q, .lookNext ((index_lt_iff h).mpr hend) ?_, hq, hpq, hfollows⟩
  rw [getElem?_next h hend]
  exact hrun

/-- The end cannot be taken. -/
theorem eat_nil {c : Cursor} (h : c.rest = []) :
    Parser.eat.run c = .error ⟨c.current.position, .unexpectedEnd⟩ := by
  obtain ⟨rest, close, depth⟩ := c
  subst h
  rfl

theorem serves_eat_bind {f : Token → Code β} {g : Token → Parser β} (h : Inside ts p)
    (hf : (cursorAt ts p).current.kind ≠ .eof → Inside ts p.next →
      Serves ts (f (cursorAt ts p).current) p.next (g (cursorAt ts p).current)) :
    Serves ts (Code.eat >>= f) p (Parser.eat >>= g) := by
  have hlook := getElem?_index h
  by_cases hend : (cursorAt ts p).current.kind = .eof
  · have hnil : (cursorAt ts p).rest = [] := by
      rw [← List.length_eq_zero_iff, rest_length h]
      have hlast := (index_lt_iff h).not.mpr (not_not_intro hend)
      omega
    have hrun : Runs ts (Code.eat >>= f) p
        (.error ⟨(cursorAt ts p).current.position, .unexpectedEnd⟩) p := by
      refine .look hlook ?_
      change Runs ts (Code.bind (if _ then _ else _) f) p _ p
      rw [if_pos hend]
      exact .done _ _
    refine ⟨_, p, hrun, h, .refl p, ?_⟩
    unfold Follows
    rw [StateT.run_bind, show Parser.eat.run (cursorAt ts p) = _ from eat_nil hnil]
    rfl
  · have hlt := (index_lt_iff h).mpr hend
    obtain ⟨x, q, hrun, hq, hpq, hfollows⟩ := hf hend (h.next hlt)
    refine ⟨x, q, .look hlook ?_, hq, (further_next p).trans hpq, ?_⟩
    · change Runs ts (Code.bind (if _ then _ else _) f) p _ q
      rw [if_neg hend]
      exact .advance hlt hrun
    · unfold Follows
      rw [StateT.run_bind, show Parser.eat.run (cursorAt ts p) = _ from gives_eat.mpr (past_next h hend)]
      exact hfollows

theorem serves_expect_bind {f : Token → Code β} {g : Token → Parser β} (h : Inside ts p)
    (hf : (cursorAt ts p).current.kind = k → Inside ts p.next →
      Serves ts (f (cursorAt ts p).current) p.next (g (cursorAt ts p).current)) :
    Serves ts (Code.expect k >>= f) p (Parser.expect k >>= g) := by
  unfold Code.expect Parser.expect
  rw [code_bind_assoc, bind_assoc]
  refine serves_eat_bind h fun _ hnext => ?_
  by_cases hk : (cursorAt ts p).current.kind = k
  · rw [if_pos hk, if_pos hk]
    exact hf hk hnext
  · rw [if_neg hk, if_neg hk]
    exact serves_failAt hnext _ _

theorem serves_skip_bind {f : Bool → Code β} {g : Bool → Parser β} (h : Inside ts p)
    (htrue : (cursorAt ts p).current.kind = k → Inside ts p.next → Serves ts (f true) p.next (g true))
    (hfalse : (cursorAt ts p).current.kind ≠ k → Serves ts (f false) p (g false)) :
    Serves ts (Code.skip k >>= f) p (Parser.skip k >>= g) := by
  unfold Code.skip Parser.skip
  rw [code_bind_assoc, bind_assoc]
  refine serves_sees_bind h ?_
  by_cases hk : (cursorAt ts p).current.kind = k
  · rw [if_pos (beq_iff_eq.mpr hk), if_pos (beq_iff_eq.mpr hk), code_bind_assoc, bind_assoc]
    exact serves_eat_bind h fun _ hnext => htrue hk hnext
  · rw [if_neg (mt beq_iff_eq.mp hk), if_neg (mt beq_iff_eq.mp hk)]
    exact hfalse hk

theorem descend_deep {c : Cursor} (h : maxNesting ≤ c.depth) :
    Parser.descend.run c = .error ⟨c.current.position, .nestedTooDeep⟩ := by
  change (if _ then _ else _ : Parser Unit).run c = _
  rw [if_pos h]
  rfl

/-- One level is counted, unless there are too many. -/
theorem serves_descend_bind {f : Unit → Code β} {g : Unit → Parser β} (h : Inside ts p)
    (hf : Inside ts (p.atDepth (p.depth + 1)) →
      Serves ts (f ()) (p.atDepth (p.depth + 1)) (g ())) :
    Serves ts (Code.descend >>= f) p (Parser.descend >>= g) := by
  by_cases hdeep : maxNesting ≤ p.depth
  · obtain ⟨x, q, hrun, hq, hpq, hfollows⟩ :=
      serves_failHere (α := β) h .nestedTooDeep
    refine ⟨x, q, .level ?_, hq, hpq, ?_⟩
    · change Runs ts (Code.bind (if _ then _ else _) f) p _ q
      rw [if_pos hdeep]
      exact hrun
    · unfold Follows
      rw [StateT.run_bind, show Parser.descend.run (cursorAt ts p) = _ from descend_deep hdeep]
      exact hfollows
  · have hn : p.depth + 1 ≤ maxNesting := Nat.lt_of_not_le hdeep
    obtain ⟨x, q, hrun, hq, hpq, hfollows⟩ := hf (h.at_depth hn)
    refine ⟨x, q, .level ?_, hq, (further_deeper p).trans hpq, ?_⟩
    · change Runs ts (Code.bind (if _ then _ else _) f) p _ q
      rw [if_neg hdeep]
      exact .setLevel hn hrun
    · unfold Follows
      rw [StateT.run_bind, show Parser.descend.run (cursorAt ts p) = _ from gives_descend.mpr ⟨hn, rfl⟩]
      exact hfollows

/-- The number of tokens that are left is no concern of the acts. -/
theorem serves_remaining_bind {c : Code β} {g : Nat → Parser β}
    (h : Serves ts c p (g (cursorAt ts p).rest.length)) : Serves ts c p (Parser.remaining >>= g) :=
  h

theorem serves_ask {n : Counts} {r : Routine α} (h : Keeps ts r p) (hn : Enough ts p n) :
    Serves ts (Code.ask r) p (readerWithin n r) := by
  obtain ⟨x, q, hrun, kept⟩ := h
  exact ⟨x, q, .call hrun kept (.done x q), kept.inside, kept.further, kept.follows n hn⟩

theorem nested_run {reader : Parser α} {c : Cursor} (h : c.depth < maxNesting) :
    (Parser.nested reader).run c = (reader.run { c with depth := c.depth + 1 }).map fun r =>
      (r.1, { r.2 with depth := r.2.depth - 1 }) := by
  have hdescend : Parser.descend.run c = .ok ((), { c with depth := c.depth + 1 }) :=
    gives_descend.mpr ⟨h, rfl⟩
  unfold Parser.nested
  rw [StateT.run_bind, hdescend]
  change StateT.run (do let x ← reader; modify _; return x) _ = _
  rw [StateT.run_bind]
  cases reader.run { c with depth := c.depth + 1 } <;> rfl

theorem leveled_run (reader : Parser α) (c : Cursor) :
    (Parser.leveled reader).run c = (reader.run c).map fun r => (r.1, { r.2 with depth := c.depth }) := by
  change StateT.run (do let x ← reader; modify fun d => { d with depth := c.depth }; return x) c = _
  rw [StateT.run_bind]
  cases reader.run c <;> rfl

/-- The level is taken back after an error as well, and an error has left the counter no lower. -/
theorem serves_nested {n : Counts} {r : Routine α} (h : Inside ts p)
    (hr : Inside ts (p.atDepth (p.depth + 1)) →
      Enough ts (p.atDepth (p.depth + 1)) n ∧ Keeps ts r (p.atDepth (p.depth + 1))) :
    Serves ts (Code.nested r) p (Parser.nested (readerWithin n r)) := by
  by_cases hdeep : maxNesting ≤ p.depth
  · exact serves_descend_bind h fun hdeeper =>
      absurd hdeeper.depth_le (Nat.not_le.mpr (Nat.lt_succ_of_le hdeep))
  · have hlt : p.depth + 1 ≤ maxNesting := Nat.lt_of_not_le hdeep
    obtain ⟨hn, x, q, hrun, kept⟩ := hr (h.at_depth hlt)
    -- with an error, levels of chains may be left on the counter: all that is known is that it is
    -- not below where the call found it, which is enough to take one off
    have hdepth : p.depth + 1 ≤ q.depth := kept.further.depth_le
    have hq := kept.inside.depth_le
    refine ⟨x, q.atDepth (q.depth - 1), .level ?_, kept.inside.at_depth (by omega),
      ⟨kept.further.index_le, Nat.le_sub_one_of_lt hdepth⟩, ?_⟩
    · change Runs ts (Code.bind (if _ then _ else _) _) p _ _
      rw [if_neg hdeep]
      exact .setLevel hlt (.call hrun kept (.lower (by omega) (.done _ _)))
    · have hfollows : (readerWithin n r).run (cursorAt ts (p.atDepth (p.depth + 1))) = _ :=
        kept.follows n hn
      unfold Follows
      rw [nested_run (show (cursorAt ts p).depth < maxNesting from hlt)]
      change Except.map _ ((readerWithin n r).run (cursorAt ts (p.atDepth (p.depth + 1)))) = _
      rw [hfollows]
      cases x <;> rfl

/-- The counter is set back after the chain; after an error it is not. -/
theorem serves_leveled {n : Counts} {r : Routine α} (h : Inside ts p) (hr : Keeps ts r p)
    (hn : Enough ts p n) : Serves ts (Code.leveled r) p (Parser.leveled (readerWithin n r)) := by
  obtain ⟨x, q, hrun, kept⟩ := hr
  have hfollows : (readerWithin n r).run (cursorAt ts p) = _ := kept.follows n hn
  cases x with
  | error e =>
    refine ⟨.error e, q, .level (.call hrun kept (.done _ _)), kept.inside, kept.further, ?_⟩
    unfold Follows
    rw [leveled_run, hfollows]
    rfl
  | ok v =>
    refine ⟨.ok v, q.atDepth p.depth, .level (.call hrun kept (.setLevel h.depth_le (.done _ _))),
      kept.inside.at_depth h.depth_le, ⟨kept.further.index_le, Nat.le_refl _⟩, ?_⟩
    unfold Follows
    rw [leveled_run, hfollows]
    rfl

end Rules

section Reliable

variable {d : Nat} {n : Counts} {r : Routine α}

/-- A place with the counter not below `d`, and counts that last from there. -/
structure Ready (ts : List Token) (d : Nat) (p : Place) (n : Counts) : Prop where
  inside : Inside ts p
  depth_le : d ≤ p.depth
  enough : Enough ts p n

theorem Ready.further (h : Ready ts d p n) (hq : Inside ts q) (hpq : Further p q) : Ready ts d q n :=
  ⟨hq, h.depth_le.trans hpq.depth_le, h.enough.further h.inside hq hpq⟩

theorem Ready.next (h : Ready ts d p n) (hnext : Inside ts p.next) : Ready ts d p.next n :=
  h.further hnext (further_next p)

theorem Ready.serves (hp : Ready ts d p n) (hr : Reliable ts d r) :
    Serves ts (Code.ask r) p (readerWithin n r) :=
  serves_ask (hr p hp.inside hp.depth_le) hp.enough

/-- Acts have one result, so that it is that of the reader with any counts that last. -/
theorem keeps_of_serves (h : Inside ts p)
    (hr : ∀ n, Enough ts p n → Serves ts r.code p (readerWithin n r)) : Keeps ts r p := by
  obtain ⟨x, q, hrun, hq, hpq, _⟩ := hr (lasting ts) (enough_lasting h)
  refine ⟨x, q, hrun, hq, hpq, fun n hn => ?_⟩
  obtain ⟨_, _, hrun', _, _, hfollows⟩ := hr n hn
  obtain ⟨rfl, rfl⟩ := hrun.unique hrun'
  exact hfollows

theorem reliable_of_serves (hr : ∀ p n, Ready ts d p n → Serves ts r.code p (readerWithin n r)) :
    Reliable ts d r :=
  fun p hp hd => keeps_of_serves hp fun n hn => hr p n ⟨hp, hd, hn⟩

/-- A family of routines that call one another only behind a token, by induction on what is left. -/
theorem reliable_of_loop {ι : Type} {r : ι → Routine α}
    (hr : ∀ i p n, Ready ts d p n → (∀ j q, Inside ts q → Further p.next q → Keeps ts (r j) q) →
      Serves ts (r i).code p (readerWithin n (r i))) (i : ι) : Reliable ts d (r i) := by
  suffices h : ∀ m i p, Inside ts p → d ≤ p.depth → firstEnd ts - p.index = m → Keeps ts (r i) p from
    fun p hp hd => h _ i p hp hd rfl
  intro m
  induction m using Nat.strongRecOn with
  | ind m ih =>
    intro i p hp hd hm
    refine keeps_of_serves hp fun n hn => hr i p n ⟨hp, hd, hn⟩ fun j q hq hpq => ?_
    have hle := hq.index_le
    have hlt : p.index + 1 ≤ q.index := hpq.index_le
    exact ih (firstEnd ts - q.index) (by omega) j q hq (hd.trans hpq.depth_le) rfl

/-- A family that counts a level and takes a token before each of its calls. -/
theorem reliable_of_links {ι : Type} {r : ι → Routine α}
    (hr : ∀ i p (n : Counts), Ready ts d p { n with links := n.links + 1 } →
      (∀ q, Inside ts q → Further (p.atDepth (p.depth + 1)).next q → Enough ts q n ∧ ∀ j, Keeps ts (r j) q) →
      Serves ts (r i).code p (readerWithin { n with links := n.links + 1 } (r i))) (i : ι) :
    Reliable ts d (r i) := by
  refine reliable_of_loop (fun i p n hp ih => ?_) i
  obtain ⟨nesting, links, turns⟩ := n
  have hdepth := hp.inside.depth_le
  have hlinks := hp.enough.links
  cases links with
  -- no link is left only where the counter is past its greatest value
  | zero => exact absurd hlinks (Nat.not_lt.mpr hdepth)
  | succ links =>
    refine hr i p ⟨nesting, links, turns⟩ hp fun q hq hpq => ?_
    have hnext : Further p.next q := ⟨hpq.index_le, (Nat.le_succ _).trans hpq.depth_le⟩
    have henough := hp.enough.further hp.inside hq ((further_next p).trans hnext)
    refine ⟨⟨henough.nesting, ?_, henough.turns⟩, fun j => ih j q hq hnext⟩
    have hdeeper : p.depth + 1 ≤ q.depth := hpq.depth_le
    simp only at hlinks ⊢
    omega

theorem cursorAt_end (h : Inside ts p) (hrest : (cursorAt ts p).rest = []) :
    ∃ text position, cursorAt ts p = ⟨[], ⟨.eof, text, position⟩, p.depth⟩ := by
  have hk := (ofTokens_close h.closed).2
  cases hclose : (Cursor.ofTokens ts).close with
  | mk kind text position =>
    rw [hclose] at hk
    refine ⟨text, position, ?_⟩
    rw [← hrest, ← show kind = .eof from hk, ← hclose]
    rfl

/-- A loop with a count of turns: one turn at the end of the tokens does what none does. -/
theorem reliable_of_turns
    (hend : ∀ (n : Counts) text position depth,
      (readerWithin { n with turns := 1 } r).run ⟨[], ⟨.eof, text, position⟩, depth⟩ =
        (readerWithin { n with turns := 0 } r).run ⟨[], ⟨.eof, text, position⟩, depth⟩)
    (hr : ∀ p (n : Counts), Ready ts d p { n with turns := n.turns + 1 } →
      (∀ q, Inside ts q → Further p.next q → Serves ts (Code.ask r) q (readerWithin n r)) →
      Serves ts r.code p (readerWithin { n with turns := n.turns + 1 } r)) : Reliable ts d r := by
  have hturn : ∀ p (n : Counts), Ready ts d p { n with turns := n.turns + 1 } →
      (∀ q, Inside ts q → Further p.next q → Keeps ts r q) →
      Serves ts r.code p (readerWithin { n with turns := n.turns + 1 } r) := by
    intro p n hp ih
    refine hr p n hp fun q hq hpq => serves_ask (ih q hq hpq) ?_
    have henough := hp.enough.further hp.inside hq ((further_next p).trans hpq)
    refine ⟨henough.nesting, henough.links, ?_⟩
    have hlength := rest_length hp.inside
    have hturns := hp.enough.turns
    have hlt : p.index + 1 ≤ q.index := hpq.index_le
    simp only at hturns
    rw [rest_length hq]
    omega
  refine reliable_of_loop (r := fun _ : Unit => r) (fun _ p n hp ih => ?_) ()
  obtain ⟨nesting, links, turns⟩ := n
  cases turns with
  | succ turns => exact hturn p ⟨nesting, links, turns⟩ hp (ih ())
  | zero =>
    -- no turn is left, and so no token
    obtain ⟨text, position, hc⟩ := cursorAt_end hp.inside
      (List.length_eq_zero_iff.mp (Nat.le_zero.mp hp.enough.turns))
    have hone := hturn p ⟨nesting, links, 0⟩ ⟨hp.inside, hp.depth_le, hp.enough.nesting, hp.enough.links,
      hp.enough.turns.trans (Nat.zero_le _)⟩ (ih ())
    refine hone.congr ?_
    rw [hc]
    exact (hend ⟨nesting, links, 0⟩ text position p.depth).symm

/-- What can be called one level down can be called here; then it can be called everywhere, by
induction on the levels that are left. -/
theorem reliable_downward (hr : ∀ d, Reliable ts (d + 1) r → Reliable ts d r) (d : Nat) :
    Reliable ts d r := by
  suffices h : ∀ room d, maxNesting < d + room → Reliable ts d r from
    h Parser.levels d (Nat.lt_add_left _ (Nat.lt_succ_self _))
  intro room
  induction room with
  | zero =>
    intro d hd p hp hle
    exact absurd hp.depth_le (Nat.not_le.mpr (hd.trans_le hle))
  | succ room ih =>
    intro d hd
    exact hr d (ih (d + 1) (by omega))

end Reliable

end Scriptlet.Proofs.RoutineRules
