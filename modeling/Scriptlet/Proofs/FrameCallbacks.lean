import Scriptlet.Proofs.Courses

namespace Scriptlet

namespace Start

/-- The callbacks for the next frame that a started task requests, in the order of its requests. -/
def requests (fuel : Nat) (s : Start) : List Value :=
  Call.requests (s.task.calls fuel s.machine)

/-- The callback that is called, if the started task is the call of one. -/
def callback? (s : Start) : Option Value :=
  match s.task with
  | .call f [] => some f
  | _ => none

/-- A started task ends in a fault. -/
def Faults (fuel : Nat) (s : Start) : Prop :=
  ∃ e m, s.outcome fuel = .fault e m

end Start

namespace Stage

/-- All requests for the next frame that are made in a stage, in their order. -/
def requests (fuel : Nat) (g : Stage) : List Value :=
  g.starts.flatMap (Start.requests fuel)

/-- The callbacks that a host calls in a stage, in their order. -/
def called (g : Stage) : List Value :=
  g.starts.filterMap Start.callback?

/-- What a host is to call in a stage: first the callbacks that were requested before it, then the intervals
that fire. -/
def due (requested : List Value) (g : Stage) : List Value :=
  requested ++ g.firings.map Firing.callback

/-- What was started last in a stage ends in a fault. -/
def Faults (fuel : Nat) (g : Stage) : Prop :=
  ∃ s, g.starts.getLast? = some s ∧ s.Faults fuel

/-- Stages of which each calls what the one before requested, and then the intervals that fire; at most `n` of
them, and some callbacks are requested already. They break off at a fault, and they end where nothing is
requested. Where a bound is spent, they end anywhere. -/
inductive Relay (fuel : Nat) (spent : Prop) : Nat → List Value → List Stage → Prop where
  | idle (n : Nat) : Relay fuel spent n [] []
  | ended (requested : List Value) : Relay fuel spent 0 requested []
  | late (n : Nat) (requested : List Value) (h : spent) : Relay fuel spent n requested []
  | next {n : Nat} {requested : List Value} {g : Stage} {gs : List Stage}
      (hcalled : g.called = g.due requested)
      (h : Relay fuel spent n (g.requests fuel) gs) : Relay fuel spent (n + 1) requested (g :: gs)
  | broken {requested : List Value} {g : Stage} (n : Nat) (hcalled : g.called <+: g.due requested)
      (h : g.Faults fuel ∨ spent) : Relay fuel spent (n + 1) requested [g]

end Stage

namespace Proofs.FrameCallbacks
open Machine Plans Calls Courses

variable {fuel : Nat}

section Chains

variable {α : Type} {m : Machine} {ss : List Start}

/-- Tasks that are started one after another gain for the next frame what they request. -/
theorem chain_gains {o : Outcome α} (h : Start.Chain fuel m ss o) (hlive : m.schedule.stopped = false) :
    o.Gains m.schedule (ss.flatMap (Start.requests fuel)) := by
  refine gains_of_machine fun m' hend => ?_
  have hgains := gains_through (chain_through h m' hend) hlive
  rw [Call.requests, List.filterMap_flatMap] at hgains
  exact hgains

theorem chain_faults {e : Fault} {m' : Machine} (h : Start.Chain fuel m ss (.fault e m' : Outcome α)) :
    ∃ s, ss.getLast? = some s ∧ s.Faults fuel := by
  generalize ho : (Outcome.fault e m' : Outcome α) = o at h
  induction h with
  | nil a m => cases ho
  | spent m => cases ho
  | next ht _ ih =>
    obtain ⟨s, hs, hfaults⟩ := ih ho
    refine ⟨s, ?_, hfaults⟩
    rw [List.getLast?_cons, hs]
    rfl
  | fault ht => exact ⟨_, rfl, _, _, ht⟩
  | starved ht => cases ho

end Chains

section Frames

/-- Callbacks are called in their order, from the first. -/
theorem callStarts_prefix (fuel : Nat) (fs : List Value) (m : Machine) :
    (Host.callStarts fuel fs m).filterMap Start.callback? <+: fs := by
  induction fs generalizing m with
  | nil => exact List.prefix_refl []
  | cons f fs ih =>
    unfold Host.callStarts
    split
    · exact List.nil_prefix
    · rw [List.filterMap_cons_some (by rfl : Start.callback? ⟨.call f [], m⟩ = some f), List.prefix_cons_inj]
      split
      · exact ih _
      · exact List.nil_prefix

/-- If all of them end as usual, no callback is left out. -/
theorem callStarts_all {fs : List Value} {m m' : Machine} (hlive : m.schedule.stopped = false)
    (h : Host.callAll fuel fs m = .done () m') :
    (Host.callStarts fuel fs m).filterMap Start.callback? = fs := by
  induction fs generalizing m with
  | nil => rfl
  | cons f fs ih =>
    have hgains := gains_run fuel (.call f []) hlive
    change (call fuel f [] m).Gains _ _ at hgains
    rw [Stages.callAll_cons, if_neg (Bool.eq_false_iff.mp hlive)] at h
    unfold Host.callStarts
    rw [if_neg (Bool.eq_false_iff.mp hlive),
      List.filterMap_cons_some (by rfl : Start.callback? ⟨.call f [], m⟩ = some f)]
    cases hcall : call fuel f [] m with
    | done v m₁ =>
      rw [hcall] at h hgains
      exact congrArg (f :: ·) (ih hgains.running h)
    | fault e m₁ =>
      rw [hcall] at h
      cases h
    | starved =>
      rw [hcall] at h
      cases h

/-- When the clock moves, the callbacks that waited are due before the intervals, and none is left waiting. -/
theorem advance_due {s t : Schedule} {frameMs : Float} {due : List Value} (hlive : s.stopped = false)
    (h : s.advance? fuel frameMs = some (due, t)) :
    due = s.frames ++ (s.firings fuel frameMs).map Firing.callback ∧ t.frames = [] ∧ t.stopped = false := by
  unfold Schedule.advance? at h
  rw [if_neg (Bool.eq_false_iff.mp hlive)] at h
  unfold Schedule.firings
  dsimp only at h
  split at h
  · cases h
  · rename_i firings intervals hadvance
    cases h
    rw [hadvance]
    exact ⟨rfl, rfl, hlive⟩

/-- The frames of a run hand on the callbacks that are requested in them. -/
theorem frames_relay (fuel : Nat) (frameMs : Float) (n : Nat) {m : Machine}
    (hlive : m.schedule.stopped = false) :
    Stage.Relay fuel (Host.runFrames fuel frameMs n m = .starved) n m.schedule.frames
      (Host.frameStages fuel frameMs n m) := by
  induction n generalizing m with
  | zero => exact .ended _
  | succ n ih =>
    rw [Stages.runFrames_succ]
    unfold Host.frameStages
    by_cases hidle : (m.schedule.stopped || m.schedule.pending == 0) = true
    · rw [if_pos hidle, if_pos hidle]
      rw [hlive, Bool.false_or, beq_iff_eq] at hidle
      rw [List.eq_nil_of_length_eq_zero (Nat.eq_zero_of_add_eq_zero_right hidle)]
      exact .idle _
    · rw [if_neg hidle, if_neg hidle]
      cases hadvance : m.schedule.advance? fuel frameMs with
      | none => exact .late _ _ rfl
      | some r =>
        obtain ⟨hdue, hempty, hrunning⟩ := advance_due hlive hadvance
        have hchain := Stages.chain_callStarts fuel r.1 { m with schedule := r.2 }
        have hgains := chain_gains hchain hrunning
        have hprefix : (Host.callStarts fuel r.1 { m with schedule := r.2 }).filterMap Start.callback? <+:
            m.schedule.frames ++ (m.schedule.firings fuel frameMs).map Firing.callback := by
          rw [← hdue]
          exact callStarts_prefix fuel r.1 _
        dsimp only
        cases hcalls : Host.callAll fuel r.1 { m with schedule := r.2 } with
        | done u m' =>
          rw [hcalls] at hgains
          have hrest := ih hgains.running
          rw [hgains.frames, hempty, List.nil_append] at hrest
          exact .next ((callStarts_all hrunning hcalls).trans hdue) hrest
        | fault e m' =>
          rw [hcalls] at hchain
          exact .broken n hprefix (.inl (chain_faults hchain))
        | starved => exact .broken n hprefix (.inr rfl)

end Frames

section Hosts

/-- The body of a program consists of statements, not of callbacks. -/
theorem bodyStage_called (fuel : Nat) (h : Host) (program : Program) :
    (h.bodyStage fuel program).called = [] := by
  obtain ⟨installed, hinstall, _⟩ := Installation.host_installs h
  rw [Stages.bodyStage_eq hinstall]
  refine List.filterMap_eq_nil_iff.mpr fun s hs => ?_
  obtain ⟨stmt, htask⟩ := Stages.starts_task hs
  unfold Start.callback?
  rw [htask]

theorem runProgram_none {h : Host} {program : Program} :
    h.runProgram fuel program = none ↔ Host.drive fuel h.settings program h.machine = .starved := by
  unfold Host.runProgram
  cases Host.drive fuel h.settings program h.machine <;> simp

theorem relay_mono {spent spent' : Prop} (hspent : spent → spent') {n : Nat} {requested : List Value}
    {gs : List Stage}
    (h : Stage.Relay fuel spent n requested gs) : Stage.Relay fuel spent' n requested gs := by
  induction h with
  | idle n => exact .idle n
  | ended requested => exact .ended requested
  | late n requested h => exact .late n requested (hspent h)
  | next hcalled _ ih => exact .next hcalled ih
  | broken n hcalled h => exact .broken n hcalled (h.imp_right hspent)

/-- From the body on, the stages of a run hand on the callbacks that are requested in them. -/
theorem stages_relay (fuel : Nat) (h : Host) (program : Program) :
    Stage.Relay fuel (h.runProgram fuel program = none) (h.settings.maxFrames + 1) []
      (h.stages fuel program) := by
  obtain ⟨⟨store, hmachine⟩, hchain⟩ := body_chain fuel h program
  have hschedule : (h.bodyStage fuel program).machine.schedule = Schedule.idle := by
    rw [hmachine]
    rfl
  have hcalled : (h.bodyStage fuel program).called = (h.bodyStage fuel program).due [] := by
    obtain ⟨installed, hinstall, _⟩ := Installation.host_installs h
    rw [bodyStage_called, Stages.bodyStage_eq hinstall]
    rfl
  rw [runProgram_none, Stages.drive_eq, bind_eq]
  unfold Host.stages Host.frames
  -- what the body is no longer matters, only that its statements form a chain
  generalize h.bodyStage fuel program = body at hchain hcalled hschedule ⊢
  generalize Host.runBody fuel h.settings program h.machine = outcome at hchain ⊢
  have hgains := chain_gains hchain (by rw [hschedule]; rfl)
  cases outcome with
  | done v m =>
    rw [hschedule] at hgains
    have hrest := frames_relay fuel h.settings.frameMs h.settings.maxFrames hgains.running
    rw [hgains.frames] at hrest
    refine .next hcalled (relay_mono (fun hspent => ?_) hrest)
    dsimp only
    rw [bind_eq, hspent]
  | fault e m => exact .broken _ (hcalled ▸ List.prefix_rfl) (.inl (chain_faults hchain))
  | starved => exact .broken _ (hcalled ▸ List.prefix_rfl) (.inr rfl)

end Hosts

section Order

variable {spent : Prop} {n : Nat} {requested : List Value} {gs : List Stage}

/-- The first stage of a relay calls what was requested before it, all of it if another stage follows. There
is a first stage if it is needed. -/
theorem relay_first (h : Stage.Relay fuel spent n requested gs) :
    (∀ g, gs[0]? = some g → g.called <+: g.due requested ∧
        (g.called = g.due requested ∨ gs[1]? = none ∧ (g.Faults fuel ∨ spent))) ∧
      (gs[0]? = none → requested = [] ∨ n = 0 ∨ spent) := by
  cases h with
  | idle n => exact ⟨nofun, fun _ => .inl rfl⟩
  | ended requested => exact ⟨nofun, fun _ => .inr (.inl rfl)⟩
  | late n requested h => exact ⟨nofun, fun _ => .inr (.inr h)⟩
  | next hcalled _ =>
    refine ⟨fun g hg => ?_, nofun⟩
    cases hg
    exact ⟨hcalled ▸ List.prefix_rfl, .inl hcalled⟩
  | broken n hcalled h =>
    refine ⟨fun g hg => ?_, nofun⟩
    cases hg
    exact ⟨hcalled, .inr ⟨rfl, h⟩⟩

/-- Each stage of a relay is followed by one that calls what was requested in it, if that is needed. -/
theorem relay_next (h : Stage.Relay fuel spent n requested gs) (i : Nat) (a : Stage) (ha : gs[i]? = some a) :
    (∀ g, gs[i + 1]? = some g → g.called <+: g.due (a.requests fuel) ∧
        (g.called = g.due (a.requests fuel) ∨ gs[i + 2]? = none ∧ (g.Faults fuel ∨ spent))) ∧
      (gs[i + 1]? = none → a.requests fuel = [] ∨ a.Faults fuel ∨ n ≤ i + 1 ∨ spent) := by
  induction h generalizing i with
  | idle n => cases ha
  | ended requested => cases ha
  | late n requested h => cases ha
  | next hcalled hrest ih =>
    cases i with
    | zero =>
      cases ha
      obtain ⟨hsome, hnone⟩ := relay_first hrest
      refine ⟨hsome, fun hend => ?_⟩
      rcases hnone hend with hnothing | hover | hspent
      · exact .inl hnothing
      · exact .inr (.inr (.inl (Nat.succ_le_succ (Nat.le_of_eq hover))))
      · exact .inr (.inr (.inr hspent))
    | succ i =>
      obtain ⟨hsome, hnone⟩ := ih i ha
      exact ⟨hsome, fun hend => (hnone hend).imp_right (Or.imp_right (Or.imp_left Nat.succ_le_succ))⟩
  | broken n hcalled h =>
    cases i with
    | zero =>
      cases ha
      exact ⟨nofun, fun _ => .inr (h.imp_right .inr)⟩
    | succ i => cases ha

end Order

/-- Callbacks that are requested for the next frame run exactly once, in order, one frame later. In the body
of a program no callback is called. In every frame, the calls are those that the stage before requested, in
the order of its calls of `nextFrame`, and then the intervals that fire; they break off only in the last
frame, at a fault or where the bound on the run is spent. There is no frame after a stage only if it requested
nothing or ended in a fault, if all frames were driven, or if the bound is spent. -/
theorem frame_callbacks_run_once_in_order (fuel : Nat) (h : Host) (program : Program) :
    (h.bodyStage fuel program).called = [] ∧
      ∀ i a, (h.stages fuel program)[i]? = some a →
        (∀ b, (h.stages fuel program)[i + 1]? = some b →
          b.called <+: a.requests fuel ++ b.firings.map Firing.callback ∧
            (b.called = a.requests fuel ++ b.firings.map Firing.callback ∨
              (h.stages fuel program)[i + 2]? = none ∧ (b.Faults fuel ∨ h.runProgram fuel program = none))) ∧
        ((h.stages fuel program)[i + 1]? = none →
          a.requests fuel = [] ∨ a.Faults fuel ∨ h.settings.maxFrames ≤ i ∨
            h.runProgram fuel program = none) := by
  refine ⟨bodyStage_called fuel h program, fun i a ha => ?_⟩
  obtain ⟨hsome, hnone⟩ := relay_next (stages_relay fuel h program) i a ha
  refine ⟨hsome, fun hend => ?_⟩
  exact (hnone hend).imp_right (Or.imp_right (Or.imp_left Nat.le_of_succ_le_succ))

/-- A function that asks for the next frame whenever it is called. Two requests and an interval set it off. -/
def relaying : Program where
  body :=
    [.fnDecl "f" [] [.expr (.call (.identifier "nextFrame") [.identifier "f"])],
      .expr (.call (.identifier "interval") [.identifier "f", .number 16]),
      .expr (.call (.identifier "nextFrame") [.identifier "f"]),
      .expr (.call (.identifier "nextFrame") [.identifier "f"])]

theorem frame_callbacks_run_once_in_order_relaying :
    ∃ a b, ((Host.new { Settings.default with maxFrames := 2 }).stages 20 relaying)[1]? = some a ∧
      ((Host.new { Settings.default with maxFrames := 2 }).stages 20 relaying)[2]? = some b ∧
      (a.requests 20).length = 3 ∧ b.firings.length = 1 ∧
      b.called = a.requests 20 ++ b.firings.map Firing.callback := by
  have hfirst : ((Host.new { Settings.default with maxFrames := 2 }).stages 20 relaying)[1]?.any
      (fun a => (a.requests 20).length == 3) = true := by decide +kernel
  have hsecond : ((Host.new { Settings.default with maxFrames := 2 }).stages 20 relaying)[2]?.any
      (fun b => b.called.length == 4 && b.firings.length == 1) = true := by decide +kernel
  obtain ⟨a, ha, hrequests⟩ := (Option.any_eq_true _ _).mp hfirst
  obtain ⟨b, hb, hlengths⟩ := (Option.any_eq_true _ _).mp hsecond
  rw [beq_iff_eq] at hrequests
  rw [Bool.and_eq_true, beq_iff_eq, beq_iff_eq] at hlengths
  obtain ⟨hcalled, hfirings⟩ := hlengths
  have hnext := (frame_callbacks_run_once_in_order 20 _ relaying).2 1 a ha
  refine ⟨a, b, ha, hb, hrequests, hfirings, (hnext.1 b hb).1.eq_of_length ?_⟩
  rw [List.length_append, List.length_map, hcalled, hrequests, hfirings]

end Proofs.FrameCallbacks

end Scriptlet
