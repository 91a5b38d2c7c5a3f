import Scriptlet.Proofs.ReadingStatements
import Scriptlet.Proofs.RootFrame
import Scriptlet.Proofs.SelfReference

namespace Scriptlet

/-- What the name of the null constant means at a frame: null if the nearest declaration is that in the root
frame, and the value of a nearer one otherwise. -/
inductive Store.NullMeans (s : Store) (frame : Nat) : Value → Prop where
  | constant (h : s.Nearest frame "null" Host.root) : s.NullMeans frame .null
  | captured {owner : Nat} {b : Binding} (h : s.Nearest frame "null" owner) (hinner : owner ≠ Host.root)
      (hb : s.bindingIn? owner "null" = some b) : s.NullMeans frame b.value

/-- The statements that leave out a value, at a frame where `v` takes its place. -/
structure Machine.FillsIn (m : Machine) (frame : Nat) (v : Value) : Prop where
  /-- A bare return in a block of a call. -/
  returned : m.depth ≠ 0 → ∀ n, 2 ≤ n → execute frame n (.ret .omitted) m = .done (.returned v) m
  /-- A bare return where no call is under way is as stray as any other. -/
  stray : m.depth = 0 → ∀ n, 2 ≤ n → execute frame n (.ret .omitted) m = .fault (.irregular .strayReturn) m
  /-- A bare return that ends the body of a function. -/
  ended : ∀ n rest, 2 ≤ n → executeBody frame n (.ret .omitted :: rest) m = .done v m
  /-- A name that is new to the frame. -/
  declared : ∀ name constant n, 2 ≤ n → m.store.declaresIn frame name = false →
    ∃ m', execute frame n (.varDecl name constant .omitted) m = .done (.normal .null) m' ∧
      m'.store.bindingIn? frame name = some ⟨v, constant⟩ ∧ m'.store.lookup frame name = .ok v
  redeclared : ∀ name constant n, 2 ≤ n → m.store.declaresIn frame name = true →
    execute frame n (.varDecl name constant .omitted) m = .fault (.redeclared name) m

open Program Program.Parser Proofs.Reading in
/-- What is read at a cursor where a value is left out. -/
structure Program.Cursor.ReadsOmitted (c : Cursor) : Prop where
  /-- A return before a closing brace, a semicolon or the end. -/
  bareReturn : ∀ t d, Past c [t] d → t.kind = .returnWord → d.current.kind ∈ [.closeBrace, .semicolon, .eof] →
    Gives statement c [.ret .omitted] d
  /-- A declared name with no equals sign behind it. -/
  bareName : ∀ t d, Past c [t] d → t.kind = .identifier → d.current.kind ≠ .equals →
    ∀ constant n stmts c', Gives (declarations constant (n + 1)) c stmts c' →
      ∃ others, stmts = .varDecl t.text constant .omitted :: others

namespace Proofs.OmittedValues
open Machine Plans Scopes RootFrame

section Reading

open Program Program.Parser Reading

theorem past_unique {c d d' : Cursor} {t t' : Token} (h : Past c [t] d) (h' : Past c [t'] d') :
    t = t' ∧ d = d' := by
  obtain ⟨rest, close, depth⟩ := d
  obtain ⟨rest', close', depth'⟩ := d'
  cases h
  cases h'
  exact ⟨rfl, rfl⟩

theorem gives_statement_bareReturn {c d : Cursor} {t : Token} (hpast : Past c [t] d)
    (ht : t.kind = .returnWord)
    (hd : d.current.kind ∈ [.closeBrace, .semicolon, .eof]) : Gives statement c [.ret .omitted] d := by
  have hstays : { c with rest := c.rest.dropWhile fun t => t.kind == .semicolon } = c := by
    cases hpast
    simp [ht]
  refine gives_statementWith.mpr ?_
  rw [hstays]
  exact .returned (hpast.current_eq ▸ ht) (gives_returnStatement.mpr ⟨t, d, hpast, ht, .inl ⟨hd, rfl, rfl⟩⟩)

theorem readsOmitted (c : Cursor) : c.ReadsOmitted where
  bareReturn _ _ := gives_statement_bareReturn
  bareName t d hpast ht hd constant n stmts c' h := by
    obtain ⟨u, d', value, d₁, hpast', _, hvalue, hstmts⟩ := gives_declarations_succ.mp h
    obtain ⟨rfl, rfl⟩ := past_unique hpast hpast'
    have homitted : value = .omitted := by
      rcases gives_initializer.mp hvalue with ⟨v, e, hv, hequals, _⟩ | ⟨_, hvalue, _⟩
      · exact (hd (hv.current_eq ▸ hequals)).elim
      · exact hvalue
    rw [homitted] at hstmts
    rcases hstmts with ⟨_, _, others, _, _, _, hstmts⟩ | ⟨_, hstmts, _⟩
    · exact ⟨others, hstmts⟩
    · exact ⟨[], hstmts⟩

end Reading

section Lookups

variable {s : Store} {frame : Nat}

/-- Wherever frames lie inside of the root, the name of the null constant means something. -/
theorem nullMeans_of_rooted (hs : s.Rooted) (hframe : frame < s.frames.size) :
    ∃ v, s.NullMeans frame v ∧ s.lookup frame "null" = .ok v := by
  obtain ⟨inner, hchain⟩ := path_root hs (path_chain hs.ordered hframe)
  have hfound : (s.resolve? frame "null").isSome = true := by
    unfold Store.resolve?
    rw [hchain, List.find?_isSome]
    exact ⟨Host.root, by simp, by simp [Store.declaresIn, root_null hs]⟩
  obtain ⟨owner, hresolve⟩ := Option.isSome_iff_exists.mp hfound
  obtain ⟨b, hb⟩ := declares_of_resolve hresolve
  have hnearest := (resolve_iff hs.ordered).mp hresolve
  refine ⟨b.value, ?_, lookup_of_resolve hresolve hb⟩
  by_cases howner : owner = Host.root
  · subst howner
    cases hb.symm.trans (root_null hs)
    exact .constant hnearest
  · exact .captured hnearest howner hb

end Lookups

section Statements

variable {m : Machine} {frame n : Nat} {v : Value}

theorem eval_omitted (h : m.store.lookup frame "null" = .ok v) :
    eval frame (n + 1) .omitted m = .done v m := by
  change Action.read (fun s => s.lookup frame "null") m = _
  simp only [Action.read, h]

theorem execute_bareReturn (h : m.store.lookup frame "null" = .ok v) :
    execute frame (n + 2) (.ret .omitted) m =
    if m.depth = 0 then .fault (.irregular .strayReturn) m else .done (.returned v) m := by
  change Task.run (n + 2) (.execute frame (.ret .omitted)) m = _
  rw [Tasks.run_succ]
  change (guardReturn >>= fun _ => eval frame (n + 1) .omitted >>= fun v => pure (Flow.returned v)) m = _
  rw [bind_eq, OwnActions.guardReturn_eq]
  by_cases hdepth : m.depth = 0
  · rw [if_pos hdepth, if_pos hdepth]
  · rw [if_neg hdepth, if_neg hdepth]
    dsimp only
    rw [bind_eq, eval_omitted h]
    rfl

theorem executeBody_bareReturn (h : m.store.lookup frame "null" = .ok v) (rest : List Stmt) :
    executeBody frame (n + 2) (.ret .omitted :: rest) m = .done v m := by
  change eval frame (n + 1) .omitted m = _
  exact eval_omitted h

theorem execute_bareName (h : m.store.lookup frame "null" = .ok v) (name : String) (constant : Bool) :
    execute frame (n + 2) (.varDecl name constant .omitted) m =
      if m.store.declaresIn frame name = true then .fault (.redeclared name) m
      else .done (.normal .null) { m with store := m.store.apply (.bind frame name ⟨v, constant⟩) } := by
  change (eval frame (n + 1) .omitted >>= fun v =>
    declare frame name v constant >>= fun _ => pure (Flow.normal .null)) m = _
  rw [bind_eq, eval_omitted h]
  dsimp only
  rw [bind_eq, DeclaredNames.declare_eq]
  by_cases hdeclared : m.store.declaresIn frame name = true
  · rw [if_pos hdeclared, if_pos hdeclared]
  · rw [if_neg hdeclared, if_neg hdeclared]
    rfl

theorem fillsIn_of_lookup (hframe : frame < m.store.frames.size) (h : m.store.lookup frame "null" = .ok v) :
    m.FillsIn frame v where
  returned hdepth n hn := by
    obtain ⟨k, rfl⟩ := Nat.exists_eq_add_of_le' hn
    rw [execute_bareReturn h, if_neg hdepth]
  stray hdepth n hn := by
    obtain ⟨k, rfl⟩ := Nat.exists_eq_add_of_le' hn
    rw [execute_bareReturn h, if_pos hdepth]
  ended n rest hn := by
    obtain ⟨k, rfl⟩ := Nat.exists_eq_add_of_le' hn
    exact executeBody_bareReturn h rest
  declared name constant n hn hnew := by
    obtain ⟨k, rfl⟩ := Nat.exists_eq_add_of_le' hn
    have hend := execute_bareName (n := k) h name constant
    rw [if_neg (Bool.eq_false_iff.mp hnew)] at hend
    have hbinding := SoundActions.bindingIn_bind_self hframe hnew ⟨v, constant⟩
    exact ⟨_, hend, hbinding, SelfReference.lookup_local hbinding⟩
  redeclared name constant n hn hold := by
    obtain ⟨k, rfl⟩ := Nat.exists_eq_add_of_le' hn
    rw [execute_bareName h, if_pos hold]

end Statements

/-- Values that are left out are what the name of the null constant means. Wherever a text leaves a value out,
this name is read in its place. At every point that a run comes to, the name means something: null, unless a
frame on the way outward to the root declares it, and then the value of the nearest such declaration. This
value is what a bare return in a call returns, and what a new name without a value is bound to. -/
theorem omitted_values (fuel : Nat) (h : Host) (program : Program) :
    (∀ c : Program.Cursor, c.ReadsOmitted) ∧
    ∀ t m frame, h.Reaches fuel program t m → frame ∈ t.frames →
      ∃ v, m.store.NullMeans frame v ∧ m.FillsIn frame v := by
  refine ⟨readsOmitted, fun t m frame ht hframe => ?_⟩
  obtain ⟨hm, hframes⟩ := reached_rooted ht
  obtain ⟨v, hmeans, hlookup⟩ := nullMeans_of_rooted hm (hframes frame hframe)
  exact ⟨v, hmeans, fillsIn_of_lookup (hframes frame hframe) hlookup⟩

/-- A function that leaves out two values, and waits for the first frame. -/
def sparing : Program where
  body :=
    [.fnDecl "f" [] [.varDecl "x" false .omitted, .ret .omitted],
      .expr (.call (.identifier "nextFrame") [.identifier "f"])]

/-- The frame and the machine on which the body of a function begins, if its call is started. -/
def begun? (s : Start) : Option (Nat × List Stmt × Machine) :=
  match s.task with
  | .call (.function ref) vs =>
    match s.machine.store.functions[ref]? with
    | some f =>
      if s.machine.depth < s.machine.limit then
        match enterFunction f vs { s.machine with depth := s.machine.depth + 1 } with
        | .done frame m => some (frame, f.body, m)
        | _ => none
      else none
    | none => none
  | _ => none

theorem reaches_begun {n : Nat} {s : Start} {frame : Nat} {stmts : List Stmt} {m : Machine}
    (h : begun? s = some (frame, stmts, m)) :
    Task.Reaches (fun _ => True) (n + 1) s.task s.machine (.executeBody frame stmts) m := by
  obtain ⟨task, machine⟩ := s
  unfold begun? at h
  split at h
  · rename_i ref vs htask
    split at h
    · rename_i f hf
      split at h
      · rename_i hroom
        split at h
        · rename_i hentry
          cases h
          cases htask
          exact .step (.body hf hroom hentry) trivial (.refl ..)
        · cases h
      · cases h
    · cases h
  · cases h

theorem omitted_values_sparing : ∃ stmts m, (Host.new .default).Reaches 20 sparing (.executeBody 1 stmts) m ∧
    m.store.NullMeans 1 .null ∧ m.FillsIn 1 .null := by
  have hbegins : ((Host.new .default).stages 20 sparing).any
      (fun g => g.starts.any fun s => (begun? s).any fun b =>
        b.1 == 1 && b.2.2.store.resolve? 1 "null" == some Host.root) = true := by decide +kernel
  obtain ⟨g, hg, hstarts⟩ := List.any_eq_true.mp hbegins
  obtain ⟨s, hs, hstarted⟩ := List.any_eq_true.mp hstarts
  obtain ⟨⟨frame, stmts, m⟩, hbegun, hresolves⟩ := (Option.any_eq_true _ _).mp hstarted
  rw [Bool.and_eq_true, beq_iff_eq, beq_iff_eq] at hresolves
  obtain ⟨rfl, hresolve⟩ := hresolves
  have hreaches : (Host.new .default).Reaches 20 sparing (.executeBody 1 stmts) m :=
    ⟨g, hg, s, hs, reaches_begun hbegun⟩
  obtain ⟨v, hmeans, hfills⟩ :=
    (omitted_values 20 (Host.new .default) sparing).2 _ m 1 hreaches List.mem_cons_self
  refine ⟨stmts, m, hreaches, ?_⟩
  cases hmeans with
  | constant h => exact ⟨.constant h, hfills⟩
  | captured h hinner _ =>
    rw [(resolve_iff (reached_rooted hreaches).1.ordered).mpr h] at hresolve
    exact (hinner (Option.some.inj hresolve)).elim

/-- A function that declares a variable of the name before it returns. -/
def capturing : String :=
  "fn f() \x7b let null = 5 return \x7d f()"

/-- Whether a run gives a number. -/
def givesNumber (x : Float) (run : Run) : Bool :=
  match run.result with
  | .ok (.number y) => y = x
  | _ => false

theorem result_of_givesNumber {x : Float} {run : Run} (h : givesNumber x run = true) :
    run.result = .ok (.number x) := by
  unfold givesNumber at h
  split at h
  · rename_i y hresult
    rw [hresult, of_decide_eq_true h]
  · cases h

/-- The bare return of a call gives what the function itself has declared. -/
theorem bare_return_captured :
    ∃ run, (Host.new .default).runSource 20 capturing = some run ∧ run.result = .ok (.number 5) := by
  have hgives : ((Host.new .default).runSource 20 capturing).any (givesNumber 5) = true := by decide +kernel
  obtain ⟨run, hrun, hresult⟩ := (Option.any_eq_true _ _).mp hgives
  exact ⟨run, hrun, result_of_givesNumber hresult⟩

end Proofs.OmittedValues

end Scriptlet
