import Scriptlet.Host
import Scriptlet.Proofs.Parts

namespace Scriptlet

/-- An action that succeeds in a frame to which some names are new. It declares no others there, and no
functions. -/
def Action.Installs (frame : Nat) (names : List String) (x : Action Unit) : Prop :=
  ∀ m, (∀ n ∈ names, m.store.declaresIn frame n = false) →
    ∃ m', x m = .done () m' ∧ m'.store.functions = m.store.functions ∧
      ∀ n, n ∉ names → m'.store.declaresIn frame n = m.store.declaresIn frame n

namespace Proofs.Installation
open Machine Plans Parts

variable {frame : Nat}

theorem installs_declare {name : String} {names : List String} {x : Action Unit} (value : Value)
    (hname : name ∉ names) (hx : x.Installs frame names) :
    (declare frame name value true >>= fun _ => x).Installs frame (name :: names) := by
  intro m hnew
  have hother (n : String) (hn : n ≠ name) :=
    DeclaredNames.declaresIn_bind_other m.store (.inr hn : frame ≠ frame ∨ n ≠ name) ⟨value, true⟩
  rw [bind_eq, DeclaredNames.declare_eq, if_neg (Bool.eq_false_iff.mp (hnew name List.mem_cons_self))]
  obtain ⟨m', hend, hfunctions, hkept⟩ :=
    hx { m with store := m.store.apply (.bind frame name ⟨value, true⟩) } fun n hn =>
      (hother n (ne_of_mem_of_not_mem hn hname)).trans (hnew n (List.mem_cons_of_mem _ hn))
  refine ⟨m', hend, hfunctions, fun n hn => ?_⟩
  rw [List.mem_cons, not_or] at hn
  exact (hkept n hn.2).trans (hother n hn.1)

theorem installs_bind {names names' : List String} {x y : Action Unit} (hx : x.Installs frame names)
    (hy : y.Installs frame names') (hdisjoint : ∀ n ∈ names', n ∉ names) :
    (x >>= fun _ => y).Installs frame (names ++ names') := by
  intro m hnew
  obtain ⟨m₁, hend₁, hfunctions₁, hkept₁⟩ := hx m fun n hn => hnew n (List.mem_append_left _ hn)
  obtain ⟨m₂, hend₂, hfunctions₂, hkept₂⟩ := hy m₁ fun n hn =>
    (hkept₁ n (hdisjoint n hn)).trans (hnew n (List.mem_append_right _ hn))
  refine ⟨m₂, ?_, hfunctions₂.trans hfunctions₁, fun n hn => ?_⟩
  · rw [bind_eq, hend₁]
    exact hend₂
  · rw [List.mem_append, not_or] at hn
    exact (hkept₂ n hn.2).trans (hkept₁ n hn.1)

theorem installs_constants {constants : List (String × Value)} (h : (constants.map Prod.fst).Nodup) :
    (Toolbox.installConstants frame constants).Installs frame (constants.map Prod.fst) := by
  induction constants with
  | nil => exact fun m _ => ⟨m, rfl, rfl, fun _ _ => rfl⟩
  | cons c cs ih =>
    rw [List.map_cons, List.nodup_cons] at h
    exact installs_declare c.2 h.1 (ih h.2)

theorem installs_tools {tools : List Tool} (h : (tools.map Tool.name).Nodup) :
    (Toolbox.installTools frame tools).Installs frame (tools.map Tool.name) := by
  induction tools with
  | nil => exact fun m _ => ⟨m, rfl, rfl, fun _ _ => rfl⟩
  | cons t ts ih =>
    rw [List.map_cons, List.nodup_cons] at h
    intro m hnew
    exact installs_declare (.native m.store.natives.size) h.1 (ih h.2)
      { m with store := (m.store.addNative t.native).2 } hnew

/-- A toolbox without a name twice can be installed wherever its names are new. -/
theorem installs_toolbox (frame : Nat) {box : Toolbox} (hconstants : (box.constants.map Prod.fst).Nodup)
    (htools : box.names.Nodup) (hdisjoint : ∀ n ∈ box.names, n ∉ box.constants.map Prod.fst) :
    (box.install frame).Installs frame (box.constants.map Prod.fst ++ box.names) :=
  installs_bind (installs_constants hconstants) (installs_tools htools) hdisjoint

/-- Every run of a host begins: the standard toolbox is installed, and there is no function yet. -/
theorem host_installs (h : Host) : ∃ m, Toolbox.standard.install Host.root h.machine = .done () m ∧
    m.store.functions = #[] ∧ m.depth = 0 ∧ m.limit = h.settings.maxCallDepth := by
  have hstandard : (Toolbox.standard.install Host.root).Installs Host.root _ :=
    installs_toolbox Host.root (by decide) (by decide) (by decide)
  obtain ⟨m, hend, hfunctions, _⟩ := hstandard h.machine fun n _ => rfl
  obtain ⟨hdepth, hlimit, _⟩ := done_runs (Runs.runs_install _ _) hend
  exact ⟨m, hend, hfunctions, hdepth, hlimit⟩

end Proofs.Installation

end Scriptlet
