import FridaCI.Console
import FridaCI.Errexit

/-!
# run.sh of the sabrelite image

The script from `set -e` on: the set-up of the firmware, QEMU in the background, the loop
over its serial console, and the EXIT trap. What the commands do outside the script is
given: which set-up command fails, what appears on the console, and whether QEMU still
runs when the script ends.
-/

namespace FridaCI.Sabrelite
open Bash Errexit

set_option autoImplicit false

inductive SetUpCommand where
  | cp | mkdir | tar | echo | cat | chmod | sed | mkifs | mkfifo
  deriving DecidableEq, Repr

structure Failure where
  command : SetUpCommand
  status : Nat
  status_ne : status ≠ 0

structure Run where
  failure : Option Failure
  pid : Nat
  pid_ne : pid ≠ 0
  console : Text
  qemuAlive : Bool

structure Machine where
  intdir : Bool
  qemuPid : Nat
  qemu : Bool
  printed : Text
  deriving DecidableEq, Repr

/-- After `intdir=$(mktemp -d)` and `qemu_pid=0`. -/
def Machine.start : Machine where
  intdir := true
  qemuPid := 0
  qemu := false
  printed := []

/-- `[[ $qemu_pid -ne 0 ]]` -/
def qemuStarted : Script Machine := .command fun m => (if m.qemuPid ≠ 0 then 0 else 1, m)

/-- `kill $qemu_pid` -/
def killQemu : Script Machine :=
  .command fun m => if m.qemu then (0, { m with qemu := false }) else (1, m)

def removeIntdir : Script Machine := .command fun m => (0, { m with intdir := false })

def cleanup : Script Machine := .newline (.and qemuStarted killQemu) removeIntdir

def setUpCommands : List SetUpCommand :=
  [.cp, .mkdir, .tar, .echo, .cat, .chmod, .sed, .mkifs, .mkfifo]

def setUp (r : Run) (c : SetUpCommand) : Script Machine :=
  .command fun m =>
    match r.failure with
    | some f => if f.command = c then (f.status, m) else (0, m)
    | none => (0, m)

def startQemu : Script Machine := .command fun m => (0, { m with qemu := true })

/-- `qemu_pid=$!` -/
def keepPid (r : Run) : Script Machine := .command fun m => (0, { m with qemuPid := r.pid })

/-- The loop over the console. At end of file its status is that of the last `echo`, or zero
without one. -/
def readConsole (r : Run) : Script Machine :=
  .compound fun m =>
    let m' := { m with qemu := r.qemuAlive, printed := m.printed ++ (consoleLoop r.console).1 }
    match (consoleLoop r.console).2 with
    | .exited status _ => .exited status m'
    | .endOfFile => .ended 0 m'

def script (r : Run) : Script Machine :=
  lines (setUpCommands.map (setUp r)) (.newline startQemu (.newline (keepPid r) (readConsole r)))

def runSh (r : Run) : Nat × Machine := shell cleanup (script r) .start

/-- The loop of the script has read a marker with the status `n`. -/
def LoopRead (r : Run) (n : Nat) : Prop := r.failure = none ∧ Reports r.console n

/-- The temporary directory and QEMU are gone, and the status is the one that the guest has
reported, or a failure where it has reported none. -/
structure CleanExit (r : Run) : Prop where
  intdir : (runSh r).2.intdir = false
  qemu : (runSh r).2.qemu = false
  reported : ∀ n, LoopRead r n → (runSh r).1 = n
  unreported : (¬ ∃ n, LoopRead r n) → (runSh r).1 ≠ 0

/-! ## The trap -/

theorem removeIntdir_triple :
    Triple true (fun m => m.qemu = false) removeIntdir
      (fun _ m => m.intdir = false ∧ m.qemu = false) (fun _ _ => False) :=
  Triple.command_zero fun _ hqemu => ⟨rfl, hqemu⟩

theorem cleanup_not_started :
    Triple true (fun m => m.qemuPid = 0 ∧ m.qemu = false) cleanup
      (fun _ m => m.intdir = false ∧ m.qemu = false) (fun _ _ => False) := by
  refine Triple.newline ?_ removeIntdir_triple
  refine Triple.and (R := fun _ => False) ?_ fun _ h => h.elim
  apply Triple.command
  · intro m ⟨hpid, _⟩ hzero
    simp [hpid] at hzero
  · intro m ⟨_, hqemu⟩ hfail
    rw [if_neg hfail]
    exact hqemu

theorem cleanup_running :
    Triple true (fun m => m.qemuPid ≠ 0 ∧ m.qemu = true) cleanup
      (fun _ m => m.intdir = false ∧ m.qemu = false) (fun _ _ => False) := by
  refine Triple.newline ?_ removeIntdir_triple
  refine Triple.and (R := fun m => m.qemu = true) ?_ ?_
  · refine Triple.command (fun m hm _ => hm.2) ?_
    intro m ⟨hpid, _⟩ hfail
    simp [hpid] at hfail
  · apply Triple.command
    · intro m hqemu _
      simp [hqemu]
    · intro m hqemu hfail
      simp [hqemu] at hfail

/-- Once QEMU is dead `kill` fails, last in its list, and the trap ends before `rm`. -/
theorem cleanup_dead :
    Triple true (fun m => m.qemuPid ≠ 0 ∧ m.qemu = false ∧ m.intdir = true) cleanup
      (fun _ _ => False) (fun k m => k = 1 ∧ m.qemu = false ∧ m.intdir = true) := by
  refine Triple.newline (R := fun _ => False) ?_ fun _ h => h.elim
  refine Triple.and (R := fun m => m.qemu = false ∧ m.intdir = true) ?_ ?_
  · refine Triple.command (fun m hm _ => hm.2) ?_
    intro m ⟨hpid, _⟩ hfail
    simp [hpid] at hfail
  · apply Triple.command
    · intro m ⟨hqemu, _⟩ hzero
      simp [hqemu] at hzero
    · intro m ⟨hqemu, hdir⟩ _
      simp [hqemu, hdir]

/-! ## The script -/

theorem setUp_passes {r : Run} {c : SetUpCommand} {X : Nat → Machine → Prop}
    (h : ∀ f, r.failure = some f → f.command ≠ c) :
    Triple true (fun m => m = .start) (setUp r c) (fun _ m => m = .start) X := by
  have hrun : setUp r c = .command fun m => (0, m) := by
    unfold setUp
    cases hf : r.failure with
    | none => rfl
    | some f => simp [h f hf]
  rw [hrun]
  exact Triple.command_zero fun _ hm => hm

theorem setUp_fails {r : Run} {f : Failure} (h : r.failure = some f) :
    Triple true (fun m => m = .start) (setUp r f.command) (fun _ _ => False)
      (fun k m => k = f.status ∧ m = .start) := by
  have hrun : setUp r f.command = .command fun m => (f.status, m) := by
    simp [setUp, h]
  rw [hrun]
  refine Triple.command (fun _ _ hzero => f.status_ne hzero) ?_
  intro m hm _
  exact ⟨rfl, hm⟩

theorem script_failure {r : Run} {f : Failure} (h : r.failure = some f) :
    Triple true (fun m => m = .start) (script r) (fun _ _ => False)
      (fun k m => k = f.status ∧ m = .start) := by
  have hmem : setUp r f.command ∈ setUpCommands.map (setUp r) :=
    List.mem_map_of_mem (by cases f.command <;> decide)
  refine Triple.lines_exit ?_ hmem (setUp_fails h)
  intro c hc
  obtain ⟨command, _, rfl⟩ := List.mem_map.mp hc
  by_cases hcommand : f.command = command
  · subst hcommand
    exact (setUp_fails h).mono (fun _ _ hfalse => hfalse.elim) fun _ _ hX => hX
  · refine setUp_passes fun f' hf' => ?_
    rw [h] at hf'
    cases hf'
    exact hcommand

def loopStatus (console : Text) : Nat :=
  match (consoleLoop console).2 with
  | .exited status _ => status
  | .endOfFile => 0

theorem script_set_up {r : Run} (h : r.failure = none) :
    Triple true (fun m => m = .start) (script r)
      (fun k m => k = loopStatus r.console ∧ m.qemuPid ≠ 0 ∧ m.qemu = r.qemuAlive ∧
        m.intdir = true)
      (fun k m => k = loopStatus r.console ∧ m.qemuPid ≠ 0 ∧ m.qemu = r.qemuAlive ∧
        m.intdir = true) := by
  refine Triple.lines ?_ ?_
  · intro c hc
    obtain ⟨command, _, rfl⟩ := List.mem_map.mp hc
    refine setUp_passes fun f hf => ?_
    rw [h] at hf
    cases hf
  · refine Triple.newline (R := fun m => m.intdir = true) (Triple.command_zero ?_) ?_
    · rintro m rfl
      rfl
    · refine Triple.newline (R := fun m => m.qemuPid ≠ 0 ∧ m.intdir = true)
        (Triple.command_zero fun m hdir => ⟨r.pid_ne, hdir⟩) ?_
      apply Triple.compound
      intro m ⟨hpid, hdir⟩
      dsimp only [loopStatus]
      cases (consoleLoop r.console).2 with
      | exited status unread => exact ⟨rfl, hpid, rfl, hdir⟩
      | endOfFile => exact ⟨rfl, hpid, rfl, hdir⟩

/-! ## The run -/

theorem runSh_failure {r : Run} {f : Failure} (h : r.failure = some f) :
    (runSh r).1 = f.status ∧ (runSh r).2.intdir = false ∧ (runSh r).2.qemu = false := by
  refine shell_satisfies
    (T := fun k m => k = f.status ∧ m.intdir = false ∧ m.qemu = false)
    ((script_failure h).mono (fun _ _ hfalse => hfalse.elim) fun _ _ hX => hX) ?_ rfl
  rintro k m ⟨rfl, rfl⟩
  refine (cleanup_not_started .start ⟨rfl, rfl⟩).mono ?_ fun _ _ hfalse => hfalse.elim
  exact fun _ m hm => ⟨rfl, hm⟩

theorem runSh_alive {r : Run} (h : r.failure = none) (halive : r.qemuAlive = true) :
    (runSh r).1 = loopStatus r.console ∧ (runSh r).2.intdir = false ∧
      (runSh r).2.qemu = false := by
  refine shell_satisfies
    (T := fun k m => k = loopStatus r.console ∧ m.intdir = false ∧ m.qemu = false)
    (script_set_up h) ?_ rfl
  rintro k m ⟨rfl, hpid, hqemu, _⟩
  refine (cleanup_running m ⟨hpid, hqemu.trans halive⟩).mono ?_ fun _ _ hfalse => hfalse.elim
  exact fun _ m hm => ⟨rfl, hm⟩

theorem runSh_dead {r : Run} (h : r.failure = none) (hdead : r.qemuAlive = false) :
    (runSh r).1 = 1 ∧ (runSh r).2.qemu = false ∧ (runSh r).2.intdir = true := by
  refine shell_satisfies (T := fun k m => k = 1 ∧ m.qemu = false ∧ m.intdir = true)
    (script_set_up h) ?_ rfl
  rintro k m ⟨_, hpid, hqemu, hdir⟩
  exact (cleanup_dead m ⟨hpid, hqemu.trans hdead, hdir⟩).mono (fun _ _ hfalse => hfalse.elim)
    fun _ _ hX => hX

/-- The script never leaves QEMU running. -/
theorem runSh_stops_qemu (r : Run) : (runSh r).2.qemu = false := by
  cases h : r.failure with
  | some f => exact (runSh_failure h).2.2
  | none =>
    cases hqemu : r.qemuAlive with
    | true => exact (runSh_alive h hqemu).2.2
    | false => exact (runSh_dead h hqemu).2.1

theorem loopStatus_of_reports {console : Text} {n : Nat} (h : Reports console n) :
    loopStatus console = exitCode n := by
  obtain ⟨unread, hloop⟩ := h.consoleLoop
  simp only [loopStatus, hloop]

theorem loopStatus_of_endOfFile {console : Text} (h : ¬ ∃ n, Reports console n) :
    loopStatus console = 0 := by
  rcases reports_or_endOfFile console with hreports | hloop
  · exact absurd hreports h
  · simp only [loopStatus, hloop]

def poweredOff : Run where
  failure := none
  pid := 1
  pid_ne := by decide
  console := exitMarker ++ ['0', '\r', '\n']
  qemuAlive := false

def crashed : Run where
  failure := none
  pid := 1
  pid_ne := by decide
  console := []
  qemuAlive := true

theorem reports_poweredOff : Reports poweredOff.console 0 := by
  have hread : Bash.read poweredOff.console = (exitMarker ++ ['0', '\r'], some []) := by decide
  have hexit : exitPattern (withoutCr (exitMarker ++ ['0', '\r'])) = some ['0'] := by decide
  exact .here hread hexit

end FridaCI.Sabrelite
