import FridaCI.Buildbot
import Mathlib.Data.Nat.Init

/-!
# The results of the steps of a build

With the outcome of every command given by `succeeds`, a step has one result and a
build one course. This module computes the result of a step from the command line as
a whole, and shows that the small steps of a build agree with it.
-/

namespace FridaCI.Buildbot

set_option autoImplicit false

universe u v

variable {δ : Type u} {α : Type v} (succeeds : α → Bool)

/-- The exit status of a command line; `skipping` says that a failed command of the
running chain has been passed, `status` is the status of the last command run. -/
def lineStatus : (skipping status : Bool) → List (Link α) → Bool
  | _, status, [] => status
  | true, status, l :: rest => lineStatus (l.joiner == .and) status rest
  | false, _, l :: rest =>
    lineStatus (!succeeds l.command && l.joiner == .and) (succeeds l.command) rest

def Step.result (s : Step δ α) : Bool := lineStatus succeeds false true s.line

theorem lineStatus_skipping (status : Bool) (line : List (Link α)) :
    lineStatus succeeds true status line = lineStatus succeeds false status (skipChain line) := by
  induction line with
  | nil => rfl
  | cons l rest ih =>
    cases hj : l.joiner with
    | and => simpa [lineStatus, skipChain, hj] using ih
    | amp => simp [lineStatus, skipChain, hj]

theorem lineStatus_cons (status : Bool) (now : Link α) (rest : List (Link α)) :
    lineStatus succeeds false status (now :: rest) =
      lineStatus succeeds false (succeeds now.command)
        (now.onward rest (succeeds now.command)) := by
  cases hok : succeeds now.command with
  | true => simp [lineStatus, hok]
  | false =>
    cases hj : now.joiner with
    | and => simp [lineStatus, hok, hj, Link.onward, lineStatus_skipping]
    | amp => simp [lineStatus, hok, hj, Link.onward]

/-- The commands behind the last `&` of a line; all of them in a line without one. -/
def lastChain : List (Link α) → List (Link α)
  | [] => []
  | l :: rest => if (skipChain (l :: rest)).isEmpty then l :: rest else lastChain rest

theorem lineStatus_chain {line : List (Link α)} (h : skipChain line = []) :
    lineStatus succeeds false true line = line.all fun l => succeeds l.command := by
  induction line with
  | nil => rfl
  | cons l rest ih =>
    rw [lineStatus_cons, List.all_cons]
    cases hj : l.joiner with
    | and =>
      have hrest : skipChain rest = [] := by simpa [skipChain, hj] using h
      cases hok : succeeds l.command with
      | true => simpa using ih hrest
      | false => simp [Link.onward, hj, hrest, lineStatus]
    | amp =>
      obtain rfl : rest = [] := by simpa [skipChain, hj] using h
      cases hok : succeeds l.command <;> simp [Link.onward, hj, lineStatus]

theorem lineStatus_status {line : List (Link α)} (h : line ≠ []) (status status' : Bool) :
    lineStatus succeeds false status line = lineStatus succeeds false status' line := by
  cases line with
  | nil => exact absurd rfl h
  | cons l rest => rfl

/-- The last chain of a line decides its status, whatever comes before. -/
theorem lineStatus_eq_lastChain (line : List (Link α)) (skipping status : Bool)
    (h : skipChain line ≠ [] ∨ (skipping = false ∧ status = true)) :
    lineStatus succeeds skipping status line =
      (lastChain line).all fun l => succeeds l.command := by
  induction line generalizing skipping status with
  | nil =>
    rcases h with h | ⟨rfl, rfl⟩
    · exact absurd rfl h
    · rfl
  | cons l rest ih =>
    by_cases hchain : skipChain (l :: rest) = []
    · obtain ⟨rfl, rfl⟩ := h.resolve_left fun hne => hne hchain
      rw [lineStatus_chain succeeds hchain, lastChain, hchain]
      rfl
    · have hlast : lastChain (l :: rest) = lastChain rest := by
        simp [lastChain, hchain]
      rw [hlast]
      cases hj : l.joiner with
      | and =>
        have hrest : skipChain rest ≠ [] := by simpa [skipChain, hj] using hchain
        cases skipping <;> exact ih _ _ (Or.inl hrest)
      | amp =>
        have hrest : rest ≠ [] := by simpa [skipChain, hj] using hchain
        have hstart := ih false true (Or.inr ⟨rfl, rfl⟩)
        cases skipping with
        | true => simpa [lineStatus, hj, lineStatus_status succeeds hrest status true] using hstart
        | false =>
          simpa [lineStatus, hj, lineStatus_status succeeds hrest (succeeds l.command) true]
            using hstart

theorem result_iff (s : Step δ α) :
    s.result succeeds = true ↔ ∀ l ∈ lastChain s.line, succeeds l.command = true := by
  rw [Step.result, lineStatus_eq_lastChain succeeds _ _ _ (Or.inr ⟨rfl, rfl⟩), List.all_eq_true]

/-! ## The course of a build -/

namespace Build

def Next (x y : Build δ α) : Prop :=
  ∃ o, x.current = some o ∧ y = x.complete (succeeds o)

abbrev Reaches : Build δ α → Build δ α → Prop := Relation.ReflTransGen (Next succeeds)

/-- `earlier` ran to its end: none of its steps halted the build. -/
def Passed (earlier : List (Step δ α)) : Prop :=
  ∀ s ∈ earlier, s.cls.haltOnFailure = true → s.result succeeds = true

def resultsOf (earlier : List (Step δ α)) : List (Step δ α × Bool) :=
  earlier.map fun s => (s, s.result succeeds)

theorem resultsOf_concat (earlier : List (Step δ α)) (s : Step δ α) :
    resultsOf succeeds (earlier ++ [s]) =
      resultsOf succeeds earlier ++ [(s, s.result succeeds)] := by
  simp [resultsOf]

/-- In front of `remaining`, with the results that the steps before it have. -/
structure At (steps : List (Step δ α)) (results : List (Step δ α × Bool))
    (remaining : List (Step δ α)) : Prop where
  split : ∃ earlier, steps = earlier ++ remaining ∧ results = resultsOf succeeds earlier ∧
    Passed succeeds earlier

variable {succeeds} {steps : List (Step δ α)}

theorem At.next {results : List (Step δ α × Bool)} {s : Step δ α} {later : List (Step δ α)}
    (h : At succeeds steps results (s :: later))
    (pass : s.cls.haltOnFailure = true → s.result succeeds = true) :
    At succeeds steps (results ++ [(s, s.result succeeds)]) later := by
  obtain ⟨earlier, rfl, rfl, hpassed⟩ := h
  refine ⟨earlier ++ [s], by simp, (resultsOf_concat succeeds earlier s).symm, ?_⟩
  intro t ht
  rcases List.mem_append.mp ht with ht | ht
  · exact hpassed t ht
  · obtain rfl := List.mem_singleton.mp ht
    exact pass

/-- What holds of a build all along: the results so far are those of the steps passed,
and the rest of the line decides the result of the step being run. -/
def OnCourse (succeeds : α → Bool) (steps : List (Step δ α)) : Build δ α → Prop
  | .finished _ => True
  | .running results step now rest later => At succeeds steps results (step :: later) ∧
    lineStatus succeeds false true (now :: rest) = step.result succeeds

theorem onCourse_enter {results : List (Step δ α × Bool)} {remaining : List (Step δ α)}
    (h : At succeeds steps results remaining) :
    OnCourse succeeds steps (enter results remaining) := by
  induction remaining generalizing results with
  | nil => trivial
  | cons s later ih =>
    unfold enter
    split
    · next hs =>
      have hresult : s.result succeeds = true := by simp [Step.result, hs, lineStatus]
      have hnext := h.next fun _ => hresult
      rw [hresult] at hnext
      exact ih hnext
    · next now rest hs => exact ⟨h, by rw [Step.result, hs]⟩

theorem OnCourse.next {x y : Build δ α} (hx : OnCourse succeeds steps x)
    (h : Next succeeds x y) : OnCourse succeeds steps y := by
  obtain ⟨o, ho, rfl⟩ := h
  cases x with
  | finished => trivial
  | running results step now rest later =>
    obtain rfl := Option.some.inj ho
    obtain ⟨hat, hline⟩ := hx
    rw [lineStatus_cons] at hline
    simp only [complete]
    split
    · next next rest' heq =>
      rw [heq] at hline
      exact ⟨hat, hline⟩
    · next heq =>
      rw [heq] at hline
      simp only [lineStatus] at hline
      unfold finishStep
      split
      · next hpass =>
        rw [hline]
        apply onCourse_enter
        apply hat.next
        intro hhalt
        simpa [hline, hhalt] using hpass
      · trivial

/-- The build gets to a step only past the steps before it, with their results. -/
theorem at_of_reaches {results : List (Step δ α × Bool)} {step : Step δ α} {now : Link α}
    {rest : List (Link α)} {later : List (Step δ α)}
    (h : Reaches succeeds (enter [] steps) (running results step now rest later)) :
    At succeeds steps results (step :: later) := by
  have hstart : OnCourse succeeds steps (enter [] steps) :=
    onCourse_enter ⟨[], rfl, rfl, by simp [Passed]⟩
  have hall : ∀ y, Reaches succeeds (enter [] steps) y → OnCourse succeeds steps y := by
    intro y hy
    induction hy with
    | refl => exact hstart
    | tail _ hnext ih => exact ih.next hnext
  exact (hall _ h).1

theorem reaches_finishStep (results : List (Step δ α × Bool)) (step : Step δ α) (now : Link α)
    (rest : List (Link α)) (later : List (Step δ α)) :
    Reaches succeeds (running results step now rest later)
      (finishStep results step (lineStatus succeeds false true (now :: rest)) later) := by
  -- A failed command skips several links at once, so the induction is on the length.
  induction hn : rest.length using Nat.strong_induction_on generalizing now rest with
  | _ n ih =>
    have hnext : Next succeeds (running results step now rest later)
        ((running results step now rest later).complete (succeeds now.command)) := ⟨_, rfl, rfl⟩
    refine .head hnext ?_
    rw [lineStatus_cons]
    have hle := (onward_suffix now rest (succeeds now.command)).length_le
    simp only [complete]
    cases honward : now.onward rest (succeeds now.command) with
    | nil => exact .refl
    | cons next rest' =>
      rw [honward, List.length_cons] at hle
      exact ih rest'.length (by omega) next rest' rfl

theorem reaches_step (results : List (Step δ α × Bool)) (s : Step δ α) (later : List (Step δ α)) :
    Reaches succeeds (enter results (s :: later))
      (finishStep results s (s.result succeeds) later) := by
  cases hs : s.line with
  | nil => simp [enter, hs, Step.result, lineStatus, finishStep, Relation.ReflTransGen.refl]
  | cons now rest =>
    rw [Step.result, hs]
    simpa [enter, hs] using reaches_finishStep results s now rest later

theorem reaches_of_passed {earlier : List (Step δ α)} (hpassed : Passed succeeds earlier)
    (results : List (Step δ α × Bool)) (later : List (Step δ α)) :
    Reaches succeeds (enter results (earlier ++ later))
      (enter (results ++ resultsOf succeeds earlier) later) := by
  induction earlier generalizing results with
  | nil => simpa [resultsOf] using Relation.ReflTransGen.refl
  | cons s earlier ih =>
    have hs := hpassed s List.mem_cons_self
    have hstep : Reaches succeeds _ _ := reaches_step results s (earlier ++ later)
    have hgo : s.result succeeds || !s.cls.haltOnFailure := by
      cases hh : s.cls.haltOnFailure <;> simp_all
    rw [finishStep, if_pos hgo] at hstep
    have htail := ih (fun t ht => hpassed t (List.mem_cons_of_mem s ht))
      (results ++ [(s, s.result succeeds)])
    exact hstep.trans (by simpa [resultsOf] using htail)

end Build

end FridaCI.Buildbot
