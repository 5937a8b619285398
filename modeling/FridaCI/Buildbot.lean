import Mathlib.Data.List.Basic
import Mathlib.Logic.Relation

/-!
# Running the steps of a build factory

Buildbot runs the steps of a factory in order. A step runs the commands of its
command line; a failed step ends the build when its class has haltOnFailure set,
and is otherwise passed over. `δ` describes a step and `α` is a command; what a
command does, and when it may complete, is left to the user of this module.
-/

namespace FridaCI.Buildbot

set_option autoImplicit false

universe u v

inductive StepClass where
  | git
  | compile
  | shellCommand
  | vs2022
  deriving DecidableEq, Repr

/-- The class defaults; `haltOnFailure` can also be passed to a step, which no step does here. -/
def StepClass.haltOnFailure : StepClass → Bool
  | .git | .compile => true
  | .shellCommand | .vs2022 => false

/-- How a command is joined to the one after it: `a && b`, or `a & b` of cmd.exe. -/
inductive Joiner where
  | and
  | amp
  deriving DecidableEq, Repr

@[simp] theorem amp_beq_and : (Joiner.amp == Joiner.and) = false := rfl

structure Link (α : Type u) where
  command : α
  joiner : Joiner

structure Step (δ : Type u) (α : Type v) where
  cls : StepClass
  description : δ
  line : List (Link α)

variable {δ : Type u} {α : Type v}

def Step.commands (s : Step δ α) : List α := s.line.map Link.command

/-! ## Command lines -/

/-- What is left of a command line once the command in front of it has failed under `&&`:
the chain is skipped up to and including its last command. -/
def skipChain : List (Link α) → List (Link α)
  | [] => []
  | l :: rest =>
    match l.joiner with
    | .and => skipChain rest
    | .amp => rest

def Link.onward (now : Link α) (rest : List (Link α)) (ok : Bool) : List (Link α) :=
  if ok then rest else
    match now.joiner with
    | .and => skipChain rest
    | .amp => rest

theorem skipChain_suffix (line : List (Link α)) : skipChain line <:+ line := by
  induction line with
  | nil => exact List.suffix_refl _
  | cons l rest ih =>
    simp only [skipChain]
    split
    · exact ih.trans (List.suffix_cons l rest)
    · exact List.suffix_cons l rest

theorem onward_suffix (now : Link α) (rest : List (Link α)) (ok : Bool) :
    now.onward rest ok <:+ rest := by
  unfold Link.onward
  split
  · exact List.suffix_refl _
  · split
    · exact skipChain_suffix rest
    · exact List.suffix_refl _

@[simp] theorem onward_true (now : Link α) (rest : List (Link α)) :
    now.onward rest true = rest := rfl

theorem skipChain_eq_nil {line : List (Link α)} (h : ∀ l ∈ line, l.joiner = .and) :
    skipChain line = [] := by
  induction line with
  | nil => rfl
  | cons l rest ih =>
    simp only [skipChain, h l List.mem_cons_self]
    exact ih fun x hx => h x (List.mem_cons_of_mem l hx)

/-! ## Builds -/

/-- A build: the results of the finished steps, oldest first, and while it is running the
step and command being run, the rest of the command line, and the steps still to come. -/
inductive Build (δ : Type u) (α : Type v) where
  | finished (results : List (Step δ α × Bool))
  | running (results : List (Step δ α × Bool)) (step : Step δ α) (now : Link α)
      (rest : List (Link α)) (later : List (Step δ α))

namespace Build

/-- Start the next step; a step with an empty command line succeeds at once. -/
def enter (results : List (Step δ α × Bool)) : List (Step δ α) → Build δ α
  | [] => .finished results
  | s :: later =>
    match s.line with
    | [] => enter (results ++ [(s, true)]) later
    | now :: rest => .running results s now rest later

def finishStep (results : List (Step δ α × Bool)) (step : Step δ α) (ok : Bool)
    (later : List (Step δ α)) : Build δ α :=
  if ok || !step.cls.haltOnFailure then enter (results ++ [(step, ok)]) later
  else .finished (results ++ [(step, ok)])

/-- The build once the command being run has exited, with success or failure; the exit
status of a step is that of its last command run. -/
def complete : Build δ α → Bool → Build δ α
  | .finished results, _ => .finished results
  | .running results step now rest later, ok =>
    match now.onward rest ok with
    | next :: rest' => .running results step next rest' later
    | [] => finishStep results step ok later

def current : Build δ α → Option α
  | .finished _ => none
  | .running _ _ now _ _ => some now.command

def Over (x : Build δ α) : Prop := x.current = none

def commands : Build δ α → List α
  | .finished _ => []
  | .running _ _ now rest later =>
    now.command :: (rest.map Link.command ++ later.flatMap Step.commands)

@[simp] theorem commands_finished (results : List (Step δ α × Bool)) :
    (finished results).commands = [] := rfl

@[simp] theorem commands_running (results : List (Step δ α × Bool)) (step : Step δ α)
    (now : Link α) (rest : List (Link α)) (later : List (Step δ α)) :
    (running results step now rest later).commands =
      now.command :: (rest.map Link.command ++ later.flatMap Step.commands) := rfl

theorem current_eq_head? (x : Build δ α) : x.current = x.commands.head? := by
  cases x <;> rfl

theorem over_iff_commands (x : Build δ α) : x.Over ↔ x.commands = [] := by
  cases x <;> simp [Over, current]

theorem current_of_commands {x : Build δ α} {o : α} {rest : List α}
    (h : x.commands = o :: rest) : x.current = some o := by
  rw [current_eq_head?, h, List.head?_cons]

@[simp] theorem commands_enter (results : List (Step δ α × Bool)) (steps : List (Step δ α)) :
    (enter results steps).commands = steps.flatMap Step.commands := by
  induction steps generalizing results with
  | nil => rfl
  | cons s later ih =>
    cases hs : s.line with
    | nil => simp [enter, hs, ih, Step.commands]
    | cons now rest => simp [enter, hs, Step.commands]

theorem commands_complete_true (x : Build δ α) : (x.complete true).commands = x.commands.tail := by
  cases x with
  | finished => rfl
  | running results step now rest later =>
    cases rest <;> simp [complete, finishStep]

theorem commands_complete_suffix (x : Build δ α) (ok : Bool) :
    (x.complete ok).commands <:+ x.commands.tail := by
  cases x with
  | finished => exact List.suffix_refl _
  | running results step now rest later =>
    have hsuffix : (now.onward rest ok).map Link.command ++ later.flatMap Step.commands <:+
        rest.map Link.command ++ later.flatMap Step.commands := by
      obtain ⟨skipped, hskipped⟩ := onward_suffix now rest ok
      refine ⟨skipped.map Link.command, ?_⟩
      rw [← List.append_assoc, ← List.map_append, hskipped]
    simp only [complete, finishStep, commands_running, List.tail_cons]
    split
    · next next rest' h => simpa [h] using hsuffix
    · next h =>
      split
      · simp only [commands_enter]
        exact List.suffix_append _ _
      · exact List.nil_suffix

theorem length_complete_lt {x : Build δ α} (h : x.commands ≠ []) (ok : Bool) :
    (x.complete ok).commands.length < x.commands.length := by
  have hle := (commands_complete_suffix x ok).length_le
  have hpos := List.length_pos_iff.mpr h
  rw [List.length_tail] at hle
  omega

end Build

/-! ## Numbering the commands of a factory -/

structure Loc where
  step : Nat
  command : Nat
  deriving DecidableEq, Repr

def Step.number (i : Nat) (s : Step δ α) : Step δ (Loc × α) where
  cls := s.cls
  description := s.description
  line := s.line.zipIdx.map fun (l, j) => ⟨(⟨i, j⟩, l.command), l.joiner⟩

def number (steps : List (Step δ α)) : List (Step δ (Loc × α)) :=
  steps.zipIdx.map fun (s, i) => s.number i

@[simp] theorem number_commands (i : Nat) (s : Step δ α) :
    (s.number i).commands.map Prod.snd = s.commands := by
  have h : s.line.zipIdx.map (Link.command ∘ Prod.fst) = s.line.map Link.command := by
    rw [← List.map_map, List.zipIdx_map_fst]
  simp only [Step.commands, Step.number, List.map_map]
  exact h

theorem number_flatMap_commands (steps : List (Step δ α)) :
    ((number steps).flatMap Step.commands).map Prod.snd = steps.flatMap Step.commands := by
  have h : (steps.zipIdx.map Prod.fst).flatMap Step.commands = steps.flatMap Step.commands := by
    rw [List.zipIdx_map_fst]
  rw [List.map_flatMap]
  simpa only [number, List.flatMap_map, number_commands] using h

end FridaCI.Buildbot
