import Scriptlet.Proofs.Installation
import Scriptlet.Proofs.RegularTrees

namespace Scriptlet

mutual

/-- Whether a return occurs in a statement outside of function bodies. -/
def Stmt.strays : Stmt → Bool
  | .ret _ => true
  | .ifThen _ body | .whileDo _ body => Stmt.anyStrays body
  | .structDecl .. | .fnDecl .. | .varDecl .. | .expr _ => false

/-- Whether a return occurs in some statements outside of function bodies. -/
def Stmt.anyStrays : List Stmt → Bool
  | [] => false
  | s :: ss => s.strays || Stmt.anyStrays ss

end

/-- Whether a return occurs in a program outside of function bodies. -/
def Program.strays (p : Program) : Bool :=
  Stmt.anyStrays p.body

/-- Whether a return occurs in the statements of a task outside of function bodies. -/
def Task.strays : Task → Bool
  | .execute _ stmt => stmt.strays
  | .executeBlock _ stmts | .executeAll _ stmts | .loop _ _ stmts => Stmt.anyStrays stmts
  | .eval .. | .evalAll .. | .evalProperties .. | .evalKey .. | .call .. | .executeBody .. => false

/-- A run begins a statement of the body on a machine, after the steps for those before it. -/
inductive Execution.ComesTo (fuel : Nat) : Execution → Machine → Stmt → Machine → Prop where
  | here {e : Execution} {stmt : Stmt} (m : Machine) (h : e.program.body[e.progress.position]? = some stmt) :
      e.ComesTo fuel m stmt m
  | next {e e' : Execution} {m m' m'' : Machine} {stmt : Stmt} (h : e.step fuel m = (e', .done .yielded m'))
      (hrest : e'.ComesTo fuel m' stmt m'') : e.ComesTo fuel m stmt m''

/-- The body of a program, run by a host, comes to a return with no call under way, from a statement of its
own and through no function. -/
def Host.MeetsStrayReturn (fuel : Nat) (h : Host) (program : Program) : Prop :=
  ∃ installed stmt m frame value m', Toolbox.standard.install root h.machine = .done () installed ∧
    (Execution.start program root).ComesTo fuel installed stmt m ∧
    Task.Reaches (·.isBody = false) fuel (.execute root stmt) m (.execute frame (.ret value)) m' ∧
    m'.depth = 0

namespace Proofs.StrayReturns
open Machine Plans PlainActions OwnActions Parts StoredCode RegularTrees

variable {α β : Type}

theorem part_isBody {size : Nat} {t t' : Task} (h : t.Part size t') (ht : t.isBody = false) :
    t'.isBody = false := by
  cases h <;> simp_all [Task.isBody]

theorem part_strays {size : Nat} {t t' : Task} (h : t.Part size t') (ht : t.isBody = false)
    (ht' : t'.strays = true) : t.strays = true := by
  cases h <;> simp_all [Task.isBody, Task.strays, Stmt.strays, Stmt.anyStrays]

/-- Through no function, a task comes to a return only if one occurs in it outside of function bodies. -/
theorem strays_of_reaches {n : Nat} {t t' : Task} {m m' : Machine}
    (h : Task.Reaches (·.isBody = false) n t m t' m') (ht : t.isBody = false) (ht' : t'.strays = true) :
    t.strays = true := by
  induction h with
  | refl n t m => exact ht'
  | step h hbody _ ih =>
    obtain ⟨_, ⟨hpart, _⟩ | ⟨⟨frame, stmts, rfl, _⟩, _⟩⟩ := invokes_parts h
    · exact part_strays hpart ht (ih hbody ht')
    · cases hbody

theorem own_avoids_irregular {t : Task} (ht : t.isRegular = true)
    (hret : ∀ frame e, t ≠ .execute frame (.ret e)) {x : Action α} (h : t.Own x) (c : Irregularity) :
    x.Avoids (.fault (.irregular c)) := by
  refine own_avoids h rfl fun m c' hblames => ?_
  cases hblames with
  | stray frame e _ => exact (hret frame e rfl).elim
  | key frame he _ =>
    obtain ⟨name, hname⟩ := exists_name (Bool.and_eq_true_iff.mp ht).2
    exact (he name hname).elim

/-- A task that blames the tree comes to one that does, or is a return with no call under way. -/
theorem invokes_irregular {n : Nat} {t : Task} (ht : t.isRegular = true) {m : Machine} {c : Irregularity}
    (h : (t.run (n + 1) m).ending = .fault (.irregular c)) :
    (∃ frame e, t = .execute frame (.ret e) ∧ m.depth = 0 ∧ c = .strayReturn) ∨
      ∃ t' m', t.Invokes n m t' m' ∧ (t'.run n m').ending = .fault (.irregular c) := by
  by_cases hret : ∃ frame e, t = .execute frame (.ret e)
  · obtain ⟨frame, e, rfl⟩ := hret
    have hguard := guardReturn_eq m
    rw [Tasks.run_succ] at h
    rcases ending_bind h with hfault | ⟨_, m₁, hdone, hrest⟩
    · by_cases hdepth : m.depth = 0
      · rw [hguard, if_pos hdepth] at hfault
        cases hfault
        exact .inl ⟨frame, e, rfl, hdepth, rfl⟩
      · rw [hguard, if_neg hdepth] at hfault
        cases hfault
    · rcases ending_bind hrest with heval | ⟨v, m₂, _, hpure⟩
      · exact .inr ⟨_, m₁, .act hdone (.here ..), heval⟩
      · cases hpure
  · right
    rw [Tasks.run_succ] at h
    have hother (frame : Nat) (e : Expr) (heq : t = .execute frame (.ret e)) := hret ⟨frame, e, heq⟩
    have hacts : t.plan.Acts (·.Avoids (.fault (.irregular c))) :=
      acts_mono (fun hown => own_avoids_irregular ht hother hown c) (own_plan t)
    exact invokes_of_ending Ending.noConfusion (fun _ => by simp)
      (fun f vs => avoids_of_proper (proper_enterFunction f vs) rfl) hacts h

/-- Regular code blames the tree only for a return to which it comes through no function. -/
theorem irregular_origin {n : Nat} {t : Task} (ht : t.isRegular = true) {m : Machine}
    (hm : m.store.Holds (·.isRegular = true)) {c : Irregularity}
    (h : (t.run n m).ending = .fault (.irregular c)) :
    c = .strayReturn ∧ m.depth = 0 ∧ (t.isBody = false → ∃ frame e m',
      Task.Reaches (·.isBody = false) n t m (.execute frame (.ret e)) m' ∧ m'.depth = 0) := by
  induction n generalizing t m with
  | zero =>
    rw [run_zero] at h
    cases h
  | succ n ih =>
    rcases invokes_irregular ht h with ⟨frame, e, rfl, hdepth, hc⟩ | ⟨t', m', hinvokes, hend⟩
    · exact ⟨hc, hdepth, fun _ => ⟨frame, e, m, .refl _ _ _, hdepth⟩⟩
    · obtain ⟨ht', hm'⟩ := invokes_holds regular_inherited ht hm hinvokes
      obtain ⟨hc, hdepth, hreach⟩ := ih ht' hm' hend
      obtain ⟨_, ⟨hpart, hsame⟩ | ⟨_, _, hcounted⟩⟩ := invokes_parts hinvokes
      · refine ⟨hc, hsame ▸ hdepth, fun hbody => ?_⟩
        have hbody' := part_isBody hpart hbody
        obtain ⟨frame, e, m'', hrest, hend⟩ := hreach hbody'
        exact ⟨frame, e, m'', .step hinvokes hbody' hrest, hend⟩
      · -- inside of a function some call is under way
        rw [hcounted] at hdepth
        cases hdepth

/-- A step blames what the statement it runs blames, and goes on only after one that ended. -/
theorem step_cases {C : Task → Prop} (hC : Task.Inherited C) (fuel : Nat) {e : Execution}
    (hbody : ∀ s ∈ e.program.body, C (.execute e.root s)) {m : Machine} (hm : m.store.Holds C) :
    (e.step fuel m).1.program = e.program ∧ (e.step fuel m).1.root = e.root ∧
      (e.step fuel m).2.Leaves (Store.Holds C) ∧
      ∀ c, (e.step fuel m).2.ending = .fault c → ∃ stmt ∈ e.program.body, e.ComesTo fuel m stmt m ∧
        (Machine.execute e.root fuel stmt m).ending = .fault c := by
  cases hstmt : e.program.body[e.progress.position]? with
  | none =>
    rw [Runs.step_none hstmt]
    exact ⟨rfl, rfl, hm, fun c h => by cases h⟩
  | some stmt =>
    have hmem := List.mem_of_getElem? hstmt
    have hkeep := runs_keep hC fuel (.execute e.root stmt) m (hbody stmt hmem) hm
    change (Machine.execute e.root fuel stmt m).Leaves _ at hkeep
    rw [Runs.step_some hstmt]
    cases hend : Machine.execute e.root fuel stmt m with
    | done flow m' =>
      rw [hend] at hkeep
      exact ⟨rfl, rfl, hkeep, fun c h => by cases h⟩
    | fault c m' =>
      rw [hend] at hkeep
      exact ⟨rfl, rfl, hkeep, fun c' h => ⟨stmt, hmem, .here m hstmt, hend ▸ h⟩⟩
    | starved => exact ⟨rfl, rfl, trivial, fun c h => by cases h⟩

/-- So does a run, step by step. -/
theorem runWithin_cases {C : Task → Prop} (hC : Task.Inherited C) (fuel : Nat) (limit : Option Nat)
    (n steps : Nat) {e : Execution} (hbody : ∀ s ∈ e.program.body, C (.execute e.root s)) {m : Machine}
    (hm : m.store.Holds C) :
    (e.runWithin fuel limit n steps m).2.Leaves (Store.Holds C) ∧
      ∀ c, (e.runWithin fuel limit n steps m).2.ending = .fault c → ∃ stmt ∈ e.program.body, ∃ m',
        e.ComesTo fuel m stmt m' ∧ m'.store.Holds C ∧
          (Machine.execute e.root fuel stmt m').ending = .fault c := by
  induction n generalizing steps e m with
  | zero => exact ⟨trivial, fun c h => by cases h⟩
  | succ n ih =>
    obtain ⟨hprogram, hroot, hleaves, hfault⟩ := step_cases hC fuel hbody hm
    unfold Execution.runWithin
    split
    · exact ⟨hm, fun c h => by cases h⟩
    · split
      all_goals
        rename_i hstep
        rw [hstep] at hprogram hroot hleaves hfault
      · rename_i e' m'
        have hbody' : ∀ s ∈ e'.program.body, C (.execute e'.root s) := by
          rw [hprogram, hroot]
          exact hbody
        obtain ⟨hrest, hblame⟩ := ih (steps + 1) hbody' hleaves
        refine ⟨hrest, fun c h => ?_⟩
        obtain ⟨stmt, hmem, m'', hcomes, hm'', hend⟩ := hblame c h
        exact ⟨stmt, hprogram ▸ hmem, m'', .next hstep hcomes, hm'', hroot ▸ hend⟩
      · exact ⟨hleaves, fun c h => by cases h⟩
      · refine ⟨hleaves, fun c h => ?_⟩
        obtain ⟨stmt, hmem, hcomes, hend⟩ := hfault c h
        exact ⟨stmt, hmem, m, hcomes, hm, hend⟩
      · exact ⟨trivial, fun c h => by cases h⟩

/-- On a store with regular code only, the action leaves such a store and does not blame the tree. -/
def Blameless (x : Action α) : Prop :=
  ∀ m, m.store.Holds (·.isRegular = true) →
    (x m).Leaves (Store.Holds (·.isRegular = true)) ∧ ∀ c, (x m).ending ≠ .fault (.irregular c)

theorem blameless_pure (a : α) : Blameless (pure a : Action α) :=
  fun _ hm => ⟨hm, fun _ h => by cases h⟩

theorem blameless_bind {x : Action α} {f : α → Action β} (hx : Blameless x) (hf : ∀ a, Blameless (f a)) :
    Blameless (x >>= f) := by
  intro m hm
  obtain ⟨hleaves, hending⟩ := hx m hm
  rw [bind_eq]
  cases hend : x m with
  | done a m' =>
    rw [hend] at hleaves
    exact hf a m' hleaves
  | fault e m' =>
    rw [hend] at hleaves hending
    exact ⟨hleaves, hending⟩
  | starved => exact ⟨trivial, fun _ h => by cases h⟩

/-- A call blames nothing: the returns that it comes to are in functions. -/
theorem blameless_call (fuel : Nat) (f : Value) (vs : List Value) : Blameless (Machine.call fuel f vs) := by
  intro m hm
  refine ⟨runs_keep regular_inherited fuel (.call f vs) m rfl hm, fun c h => ?_⟩
  obtain ⟨_, _, hreach⟩ := irregular_origin (t := .call f vs) rfl hm h
  obtain ⟨frame, e, m', hreaches, _⟩ := hreach rfl
  cases strays_of_reaches hreaches rfl rfl

theorem blameless_callAll (fuel : Nat) (callbacks : List Value) :
    Blameless (Host.callAll fuel callbacks) := by
  induction callbacks with
  | nil => exact blameless_pure ()
  | cons f fs ih =>
    refine blameless_bind (fun m hm => ⟨hm, fun _ h => by cases h⟩) fun stopped => ?_
    split
    · exact blameless_pure ()
    · exact blameless_bind (blameless_call fuel f []) fun _ => ih

theorem blameless_runFrame (fuel : Nat) (frameMs : Float) : Blameless (Host.runFrame fuel frameMs) := by
  intro m hm
  unfold Host.runFrame
  split
  · exact ⟨trivial, fun _ h => by cases h⟩
  · exact blameless_callAll fuel _ _ hm

theorem blameless_runFrames (fuel : Nat) (frameMs : Float) (n : Nat) :
    Blameless (Host.runFrames fuel frameMs n) := by
  induction n with
  | zero => exact blameless_pure ()
  | succ n ih =>
    refine blameless_bind (fun m hm => ⟨hm, fun _ h => by cases h⟩) fun schedule => ?_
    split
    · exact blameless_pure ()
    · exact blameless_bind (blameless_runFrame fuel frameMs) fun _ => ih

/-- A host blames the tree of a regular program only if its body comes to a stray return. -/
theorem drive_irregular {fuel : Nat} {h : Host} {program : Program}
    (hregular : Stmt.areRegular program.body = true) {c : Irregularity}
    (hend : (Host.drive fuel h.settings program h.machine).ending = .fault (.irregular c)) :
    c = .strayReturn ∧ h.MeetsStrayReturn fuel program := by
  obtain ⟨installed, hinstall, hfunctions, _⟩ := Installation.host_installs h
  have hm : installed.store.Holds (·.isRegular = true) := by
    intro ref f hf
    rw [hfunctions] at hf
    cases hf
  have hbody : ∀ s ∈ (Execution.start program Host.root).program.body,
      (Task.execute Host.root s).isRegular = true := fun s hs => isRegular_of_mem hregular hs
  obtain ⟨hleaves, hfault⟩ := runWithin_cases regular_inherited fuel h.settings.maxSteps
    (program.body.length + 1) 0 hbody hm
  unfold Host.drive at hend
  rw [bind_eq, hinstall] at hend
  rcases ending_bind hend with hrun | ⟨v, m, hrun, hframes⟩
  · obtain ⟨stmt, hmem, m, hcomes, hm', hstmt⟩ := hfault _ hrun
    obtain ⟨hc, _, hreach⟩ := irregular_origin (t := .execute Host.root stmt) (hbody stmt hmem) hm' hstmt
    obtain ⟨frame, e, m', hreaches, hdepth⟩ := hreach rfl
    exact ⟨hc, installed, stmt, m, frame, e, m', hinstall, hcomes, hreaches, hdepth⟩
  · have hquiet := blameless_bind (blameless_runFrames fuel h.settings.frameMs h.settings.maxFrames) fun _ =>
      blameless_pure v
    exact ((hquiet m (hleaves.of_done hrun)).2 c hframes).elim

theorem comesTo_mem {fuel : Nat} {e : Execution} {m m' : Machine} {stmt : Stmt}
    (h : e.ComesTo fuel m stmt m') : stmt ∈ e.program.body := by
  induction h with
  | here m h => exact List.mem_of_getElem? h
  | @next e e' m m' _ _ hstep _ ih =>
    have hprogram : (e.step fuel m).1.program = e.program := rfl
    rw [hstep] at hprogram
    rw [← hprogram]
    exact ih

theorem anyStrays_of_mem {ss : List Stmt} {s : Stmt} (hs : s ∈ ss) (h : s.strays = true) :
    Stmt.anyStrays ss = true := by
  induction ss with
  | nil => cases hs
  | cons first rest ih =>
    rcases List.mem_cons.mp hs with rfl | hmem
    · exact Bool.or_eq_true_iff.mpr (.inl h)
    · exact Bool.or_eq_true_iff.mpr (.inr (ih hmem))

theorem strays_of_meets {fuel : Nat} {h : Host} {program : Program}
    (hmeets : h.MeetsStrayReturn fuel program) : program.strays = true := by
  obtain ⟨_, stmt, m, frame, e, m', _, hcomes, hreaches, _⟩ := hmeets
  exact anyStrays_of_mem (comesTo_mem hcomes) (strays_of_reaches hreaches rfl rfl)

theorem runSource_parsed {source : String} {tokens : List Token} {program : Program}
    (hscan : Token.scan source = .ok tokens) (hparse : Program.parse tokens = .ok program) (fuel : Nat)
    (h : Host) : h.runSource fuel source = h.runProgram fuel program := by
  unfold Host.runSource
  rw [hscan]
  dsimp only
  rw [hparse]

theorem runProgram_fault {fuel : Nat} {h : Host} {program : Program} {f : Fault} {m : Machine}
    (hdrive : Host.drive fuel h.settings program h.machine = .fault f m) :
    h.runProgram fuel program = some ⟨.error (.runtime f), m.store, h.after m⟩ := by
  unfold Host.runProgram
  rw [hdrive]

/-- Where a source text is a program, an error of its run is one of the run. The tree is blamed only if the
body came to a return that stands in no function, and never if there is none; no callback blames it. -/
theorem parsed_blames_strays (fuel : Nat) (h : Host) (source : String) (tokens : List Token)
    (program : Program) (run : Run) (e : Error) (hscan : Token.scan source = .ok tokens)
    (hparse : Program.parse tokens = .ok program) (hrun : h.runSource fuel source = some run)
    (he : run.result = .error e) :
    e.category = .runtime ∧
    (∀ c, e = .runtime (.irregular c) → c = .strayReturn ∧ h.MeetsStrayReturn fuel program) ∧
    (program.strays = false → ∀ c, e ≠ .runtime (.irregular c)) := by
  have hregular := parse_regular hparse
  rw [runSource_parsed hscan hparse] at hrun
  cases hdrive : Host.drive fuel h.settings program h.machine with
  | done v m =>
    unfold Host.runProgram at hrun
    rw [hdrive] at hrun
    cases hrun
    cases he
  | starved =>
    unfold Host.runProgram at hrun
    rw [hdrive] at hrun
    cases hrun
  | fault f m =>
    rw [runProgram_fault hdrive] at hrun
    cases hrun
    cases he
    have hblames (c : Irregularity) (hc : Error.runtime f = .runtime (.irregular c)) :
        c = .strayReturn ∧ h.MeetsStrayReturn fuel program := by
      cases hc
      exact drive_irregular hregular (by rw [hdrive]; rfl)
    refine ⟨rfl, hblames, fun hnone c hc => ?_⟩
    have hstrays := strays_of_meets (hblames c hc).2
    rw [hnone] at hstrays
    cases hstrays

/-- A block of the body that returns. -/
def blockReturn : String :=
  "if (\"a\") \x7b return \x7d"

/-- Whether reading gives the tree of `blockReturn`. -/
def isBlockReturn : Except ParseError Program → Bool
  | .ok ⟨[.ifThen (.text "a") [.ret (.identifier "null")]]⟩ => true
  | _ => false

theorem eq_of_isBlockReturn {x : Except ParseError Program} (h : isBlockReturn x = true) :
    x = .ok ⟨[.ifThen (.text "a") [.ret .omitted]]⟩ := by
  unfold isBlockReturn at h
  split at h
  · rfl
  · cases h

theorem blockReturn_parses : ∃ tokens, Token.scan blockReturn = .ok tokens ∧
    Program.parse tokens = .ok ⟨[.ifThen (.text "a") [.ret .omitted]]⟩ := by
  have hreads : ((Token.scan blockReturn).toOption.any
      fun tokens => isBlockReturn (Program.parse tokens)) = true := by decide +kernel
  cases hscan : Token.scan blockReturn with
  | error e =>
    rw [hscan] at hreads
    cases hreads
  | ok tokens =>
    rw [hscan] at hreads
    exact ⟨tokens, rfl, eq_of_isBlockReturn hreads⟩

theorem blockReturn_faults (h : Host) (hsteps : h.settings.maxSteps = none) :
    ∃ m, Host.drive 10 h.settings ⟨[.ifThen (.text "a") [.ret .omitted]]⟩ h.machine =
      .fault (.irregular .strayReturn) m := by
  obtain ⟨installed, hinstall, _, hdepth, _⟩ := Installation.host_installs h
  unfold Host.drive
  rw [bind_eq, hinstall, hsteps]
  obtain ⟨store, output, schedule, random, depth, limit⟩ := installed
  cases hdepth
  exact ⟨_, rfl⟩

theorem parsed_blames_strays_blockReturn : ∃ tokens program run,
    Token.scan blockReturn = .ok tokens ∧ Program.parse tokens = .ok program ∧
    (Host.new .default).runSource 10 blockReturn = some run ∧
    run.result = .error (.runtime (.irregular .strayReturn)) ∧
    (Host.new .default).MeetsStrayReturn 10 program ∧ program.strays = true := by
  obtain ⟨tokens, hscan, hparse⟩ := blockReturn_parses
  obtain ⟨m, hdrive⟩ := blockReturn_faults (Host.new .default) rfl
  have hrun := (runSource_parsed hscan hparse 10 (Host.new .default)).trans (runProgram_fault hdrive)
  have hblames := parsed_blames_strays 10 (Host.new .default) blockReturn tokens _ _ _ hscan hparse hrun rfl
  exact ⟨tokens, _, _, hscan, hparse, hrun, rfl, (hblames.2.1 _ rfl).2, rfl⟩

end Proofs.StrayReturns

end Scriptlet
