import Scriptlet.Proofs.LockstepHosts

namespace Scriptlet

/-- A host with another limit of calls. -/
def Host.withCallLimit (h : Host) (limit : Nat) : Host :=
  { h with settings := { h.settings with maxCallDepth := limit } }

/-- The second machine may have a greater limit of calls. A run that meets its limit is followed no
further. -/
def Leeway.roomier : Leeway :=
  { Leeway.same with
    limit := (· ≤ ·)
    excused := fun e => ∃ l, e = .callDepthExceeded l
    limit_le := fun h => h
    limit_eq := fun _ => .inr ⟨_, rfl⟩ }

namespace Proofs.CallLimit
open Machine Plans Lockstep LockstepHosts

theorem machines_start (h : Host) {limit : Nat} (hle : h.settings.maxCallDepth ≤ limit) :
    Leeway.roomier.Machines 0 h.machine (h.withCallLimit limit).machine where
  store := (Bodies.mapBodies_id _).symm
  output := rfl
  schedule := rfl
  random := rfl
  depth := rfl
  depth' := rfl
  limit := hle

theorem drive_follows (fuel : Nat) (settings : Settings) (program : Program) :
    Leeway.roomier.Follows 0 Eq (Host.drive fuel settings program) (Host.drive fuel settings program) :=
  drive_itself rfl fuel settings program

/-- As many frames are driven under the greater limit. -/
theorem frames_length {fuel : Nat} {h : Host} {program : Program} {limit : Nat}
    (hle : h.settings.maxCallDepth ≤ limit)
    (hquiet : ∀ e m, Host.drive fuel h.settings program h.machine = .fault e m → ¬Leeway.roomier.excused e) :
    ((h.withCallLimit limit).frames fuel program).length = (h.frames fuel program).length := by
  have hends := runBody_itself (L := .roomier) rfl fuel h.settings program _ _ (machines_start h hle)
  have hsame : Host.runBody fuel (h.withCallLimit limit).settings program =
      Host.runBody fuel h.settings program := rfl
  rw [Stages.drive_eq, bind_eq] at hquiet
  unfold Host.frames
  rw [hsame]
  generalize Host.runBody fuel h.settings program h.machine = o at hends hquiet
  generalize Host.runBody fuel h.settings program (h.withCallLimit limit).machine = o' at hends
  cases hends with
  | done _ hm =>
    refine frameStages_length (fun f => run_itself rfl fuel 0 (.call f [])) h.settings.frameMs
      h.settings.maxFrames hm ?_
    intro e m₁ hframes
    apply hquiet e m₁
    dsimp only
    rw [bind_eq, hframes]
  | fault e hm => rfl
  | excused he m _ => exact (hquiet _ m rfl he).elim
  | starved => rfl

theorem store_eq {m m' : Machine} (hm : Leeway.roomier.Machines 0 m m') : m'.store = m.store :=
  hm.store.trans (Bodies.mapBodies_id m.store)

theorem after_withCallLimit {h : Host} {limit : Nat} {m m' : Machine} (hm : Leeway.roomier.Machines 0 m m') :
    (h.withCallLimit limit).after m' = (h.after m).withCallLimit limit := by
  have houtput : m.output = m'.output := hm.output
  unfold Host.after
  rw [hm.schedule, ← houtput]
  rfl

/-- A run that ends without meeting its limit of calls ends in the same way under every greater limit: with
the same value or error, the same store, the same output and clock, after as many frames. -/
theorem call_limit_only_guards (fuel : Nat) (h : Host) (program : Program) (run : Run) (limit : Nat)
    (hle : h.settings.maxCallDepth ≤ limit) (hrun : h.runProgram fuel program = some run)
    (hunmet : ∀ l, run.result ≠ .error (.runtime (.callDepthExceeded l))) :
    (h.withCallLimit limit).runProgram fuel program = some { run with host := run.host.withCallLimit limit } ∧
      ((h.withCallLimit limit).frames fuel program).length = (h.frames fuel program).length := by
  have hends := drive_follows fuel h.settings program _ _ (machines_start h hle)
  have hsame : Host.drive fuel (h.withCallLimit limit).settings program =
      Host.drive fuel h.settings program := rfl
  unfold Host.runProgram at hrun ⊢
  have hquiet : ∀ e m, Host.drive fuel h.settings program h.machine = .fault e m →
      ¬Leeway.roomier.excused e := by
    rintro e m hdrive ⟨l, rfl⟩
    rw [hdrive] at hrun
    cases hrun
    exact hunmet l rfl
  refine ⟨?_, frames_length hle hquiet⟩
  rw [hsame]
  generalize Host.drive fuel h.settings program h.machine = o at hends hrun hquiet
  generalize Host.drive fuel h.settings program (h.withCallLimit limit).machine = o' at hends
  cases hends with
  | done hV hm =>
    cases hV
    cases hrun
    dsimp only
    rw [store_eq hm, after_withCallLimit hm]
  | fault e hm =>
    cases hrun
    dsimp only
    rw [store_eq hm, after_withCallLimit hm]
  | excused he m _ => exact (hquiet _ m rfl he).elim
  | starved => cases hrun

/-- A program that has a function called in its first frame. -/
def calledLater : Program where
  body :=
    [.fnDecl "f" [] [.ret (.text "a")],
      .expr (.call (.identifier "nextFrame") [.identifier "f"])]

/-- A host with room for one call. -/
def oneCall : Host :=
  (Host.new .default).withCallLimit 1

theorem call_limit_only_guards_calledLater : ∃ run, oneCall.runProgram 10 calledLater = some run ∧
    (oneCall.withCallLimit 2).runProgram 10 calledLater = some { run with host := run.host.withCallLimit 2 } ∧
    ((oneCall.withCallLimit 2).frames 10 calledLater).length = 1 := by
  have hends : (oneCall.runProgram 10 calledLater).any (·.result.isOk) = true := by decide +kernel
  have hframes : (oneCall.frames 10 calledLater).length = 1 := by decide +kernel
  obtain ⟨run, hrun, hok⟩ := (Option.any_eq_true _ _).mp hends
  have hunmet (l : Nat) : run.result ≠ .error (.runtime (.callDepthExceeded l)) := by
    intro hresult
    rw [hresult] at hok
    cases hok
  obtain ⟨hsame, hlength⟩ := call_limit_only_guards 10 oneCall calledLater run 2 (by decide) hrun hunmet
  exact ⟨run, hrun, hsame, hlength.trans hframes⟩

end Proofs.CallLimit

end Scriptlet
