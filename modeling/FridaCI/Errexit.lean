/-!
# Scripts under errexit

Commands one after the other and `&&` lists as a shell runs them with or without `set -e`,
and the EXIT trap, with rules of pre- and postconditions for them. A command has two
postconditions: one for the script that goes on, one for the shell that exits.
-/

namespace FridaCI.Errexit

set_option autoImplicit false

variable {σ : Type}

inductive Outcome (σ : Type) where
  | ended (status : Nat) (state : σ)
  | exited (status : Nat) (state : σ)
  deriving DecidableEq, Repr

inductive Script (σ : Type) where
  /-- A simple command: its status and what it does to the state. -/
  | command (run : σ → Nat × σ)
  /-- A compound command; the failures inside it have been seen to. -/
  | compound (run : σ → Outcome σ)
  | newline (first second : Script σ)
  | and (first second : Script σ)

/-- The status of a simple command ends the shell if it is not zero and errexit is in force. -/
def checked (errexit : Bool) (result : Nat × σ) : Outcome σ :=
  if errexit ∧ result.1 ≠ 0 then .exited result.1 result.2 else .ended result.1 result.2

/-- Only the last command of an `&&` list is under errexit. -/
def exec (errexit : Bool) : Script σ → σ → Outcome σ
  | .command run, s => checked errexit (run s)
  | .compound run, s => run s
  | .newline first second, s =>
    match exec errexit first s with
    | .ended _ s' => exec errexit second s'
    | .exited k s' => .exited k s'
  | .and first second, s =>
    match exec false first s with
    | .ended 0 s' => exec errexit second s'
    | .ended (k + 1) s' => .ended (k + 1) s'
    | .exited k s' => .exited k s'

def lines (commands : List (Script σ)) (last : Script σ) : Script σ :=
  commands.foldr .newline last

/-- The EXIT trap of a shell that exits with status `k`: the status stays, unless the trap
exits with one of its own. -/
def exitTrap (trap : Script σ) (k : Nat) (s : σ) : Nat × σ :=
  match exec true trap s with
  | .ended _ s' => (k, s')
  | .exited k' s' => (k', s')

/-- A script under errexit with an EXIT trap: its exit status and the state it leaves. -/
def shell (trap script : Script σ) (s : σ) : Nat × σ :=
  match exec true script s with
  | .ended k s' => exitTrap trap k s'
  | .exited k s' => exitTrap trap k s'

/-! ## Rules -/

def Outcome.Satisfies (Q X : Nat → σ → Prop) : Outcome σ → Prop
  | .ended k s => Q k s
  | .exited k s => X k s

/-- From a state with `P`, `c` ends with `Q` or the shell exits with `X`. -/
def Triple (errexit : Bool) (P : σ → Prop) (c : Script σ) (Q X : Nat → σ → Prop) : Prop :=
  ∀ s, P s → (exec errexit c s).Satisfies Q X

variable {e : Bool} {P R : σ → Prop} {Q Q' X X' : Nat → σ → Prop} {a b c : Script σ}

theorem Outcome.Satisfies.mono {o : Outcome σ} (h : o.Satisfies Q X)
    (hQ : ∀ k s, Q k s → Q' k s) (hX : ∀ k s, X k s → X' k s) : o.Satisfies Q' X' := by
  cases o with
  | ended k s => exact hQ k s h
  | exited k s => exact hX k s h

theorem Triple.mono (h : Triple e P c Q X) (hQ : ∀ k s, Q k s → Q' k s)
    (hX : ∀ k s, X k s → X' k s) : Triple e P c Q' X' :=
  fun s hs => (h s hs).mono hQ hX

theorem Triple.command {run : σ → Nat × σ} (hzero : ∀ s, P s → (run s).1 = 0 → Q 0 (run s).2)
    (hfail : ∀ s, P s → (run s).1 ≠ 0 →
      if e then X (run s).1 (run s).2 else Q (run s).1 (run s).2) :
    Triple e P (.command run) Q X := by
  intro s hs
  simp only [exec, checked]
  by_cases hk : (run s).1 = 0
  · simpa [hk, Outcome.Satisfies] using hzero s hs hk
  · have := hfail s hs hk
    cases e with
    | false => simpa [Outcome.Satisfies] using this
    | true => simpa [hk, Outcome.Satisfies] using this

/-- A command that never fails. -/
theorem Triple.command_zero {f : σ → σ} (h : ∀ s, P s → Q 0 (f s)) :
    Triple e P (.command fun s => (0, f s)) Q X :=
  .command (fun s hs _ => h s hs) fun _ _ hfail => absurd rfl hfail

theorem Triple.compound {run : σ → Outcome σ} (h : ∀ s, P s → (run s).Satisfies Q X) :
    Triple e P (.compound run) Q X :=
  h

theorem Triple.newline (ha : Triple e P a (fun _ => R) X) (hb : Triple e R b Q X) :
    Triple e P (.newline a b) Q X := by
  intro s hs
  have hfirst := ha s hs
  simp only [exec]
  split
  · next s' heq =>
    rw [heq] at hfirst
    exact hb s' hfirst
  · next heq =>
    rw [heq] at hfirst
    exact hfirst

theorem Triple.and (ha : Triple false P a (fun k s => if k = 0 then R s else Q k s) X)
    (hb : Triple e R b Q X) : Triple e P (.and a b) Q X := by
  intro s hs
  have hfirst := ha s hs
  simp only [exec]
  split
  · next s' heq =>
    rw [heq] at hfirst
    exact hb s' (by simpa [Outcome.Satisfies] using hfirst)
  · next heq =>
    rw [heq] at hfirst
    simpa [Outcome.Satisfies] using hfirst
  · next heq =>
    rw [heq] at hfirst
    exact hfirst

theorem Triple.lines {commands : List (Script σ)}
    (h : ∀ c ∈ commands, Triple e P c (fun _ => P) X) (hlast : Triple e P a Q X) :
    Triple e P (lines commands a) Q X := by
  induction commands with
  | nil => exact hlast
  | cons c commands ih =>
    exact (h c (.head _)).newline (ih fun d hd => h d (.tail _ hd))

/-- If one of the commands exits wherever `P` holds, the shell does not come past it. -/
theorem Triple.lines_exit {commands : List (Script σ)}
    (h : ∀ c ∈ commands, Triple e P c (fun _ => P) X) (hmem : c ∈ commands)
    (hexit : Triple e P c (fun _ _ => False) X) : Triple e P (Errexit.lines commands a) Q X := by
  induction commands with
  | nil => cases hmem
  | cons d commands ih =>
    rcases List.mem_cons.mp hmem with rfl | hmem
    · intro s hs
      exact Triple.newline (R := fun _ => False) hexit (fun _ hfalse => hfalse.elim) s hs
    · exact (h d (.head _)).newline (ih (fun d hd => h d (.tail _ hd)) hmem)

theorem exitTrap_satisfies {trap : Script σ} {k : Nat}
    (h : Triple true P trap (fun _ => Q k) Q) {s : σ} (hs : P s) :
    Q (exitTrap trap k s).1 (exitTrap trap k s).2 := by
  have hend := h s hs
  unfold exitTrap
  cases heq : exec true trap s with
  | ended k' s' =>
    rw [heq] at hend
    exact hend
  | exited k' s' =>
    rw [heq] at hend
    exact hend

theorem shell_satisfies {T : Nat → σ → Prop} {trap script : Script σ}
    (hscript : Triple true P script Q Q)
    (htrap : ∀ k, Triple true (Q k) trap (fun _ => T k) T) {s : σ} (hs : P s) :
    T (shell trap script s).1 (shell trap script s).2 := by
  have hend := hscript s hs
  unfold shell
  cases heq : exec true script s with
  | ended k s' =>
    rw [heq] at hend
    exact exitTrap_satisfies (htrap k) hend
  | exited k s' =>
    rw [heq] at hend
    exact exitTrap_satisfies (htrap k) hend

end FridaCI.Errexit
