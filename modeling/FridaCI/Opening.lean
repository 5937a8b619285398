import FridaCI.Knowledge

/-!
# The opening of a build

Most factories open with steps that halt the build on failure and join their commands
with `&&`. In such an opening the commands run one after the other until one of them
fails, and that ends the build. So a build is inside its opening, or past it with every
command of it succeeded, or halted.
-/

namespace FridaCI.Opening
open Buildbot Knowledge

set_option autoImplicit false

universe u v

variable {δ : Type u} {α : Type v}

/-- The build has ended with a failed step of a class that halts the build. -/
def Halted (x : Build δ α) : Prop :=
  ∃ results s, x = .finished (results ++ [(s, false)]) ∧ s.cls.haltOnFailure = true

theorem trusted_iff {s : Step δ α} :
    trusted s = true ↔ s.cls.haltOnFailure = true ∧ ∀ l ∈ s.line, l.joiner = .and := by
  simp [trusted]

/-- Where a build stands with the steps `first` once the commands `done` have succeeded. -/
inductive Stage (first : List (Step δ α)) (done : List α) : Build δ α → Prop where
  | inside {results : List (Step δ α × Bool)} {step : Step δ α} {now : Link α}
      {rest : List (Link α)} {ahead after : List (Step δ α)}
      (halts : step.cls.haltOnFailure = true) (chained : ∀ l ∈ now :: rest, l.joiner = .and)
      (trusts : ∀ s ∈ ahead, trusted s = true)
      (split : first.flatMap Step.commands =
        done ++ ((now :: rest).map Link.command ++ ahead.flatMap Step.commands)) :
      Stage first done (.running results step now rest (ahead ++ after))
  | past {x : Build δ α} (all : done = first.flatMap Step.commands) : Stage first done x
  | halted {x : Build δ α} (h : Halted x) : Stage first done x

variable {first : List (Step δ α)} {done : List α} {x : Build δ α}

theorem stage_enter (results : List (Step δ α × Bool)) {ahead : List (Step δ α)}
    (after : List (Step δ α)) (trusts : ∀ s ∈ ahead, trusted s = true)
    (split : first.flatMap Step.commands = done ++ ahead.flatMap Step.commands) :
    Stage first done (.enter results (ahead ++ after)) := by
  induction ahead generalizing results with
  | nil =>
    apply Stage.past
    simpa using split.symm
  | cons s ahead ih =>
    have htail : ∀ t ∈ ahead, trusted t = true := fun t ht => trusts t (.tail _ ht)
    rw [List.cons_append]
    unfold Build.enter
    split
    · next hline =>
      apply ih _ htail
      simpa [Step.commands, hline] using split
    · next now rest hline =>
      obtain ⟨hhalt, hand⟩ := trusted_iff.mp (trusts s List.mem_cons_self)
      refine .inside hhalt ?_ htail ?_
      · rwa [hline] at hand
      · simpa [Step.commands, hline] using split

theorem Stage.start (trusts : ∀ s ∈ first, trusted s = true) (after : List (Step δ α)) :
    Stage first [] (.enter [] (first ++ after)) :=
  stage_enter [] after trusts rfl

/-- One command further: it joins those that have succeeded, or the build halts. -/
theorem Stage.complete (h : Stage first done x) {o : α} (ho : x.current = some o) (ok : Bool) :
    ∃ done', Stage first done' (x.complete ok) ∧
      ∀ o' ∈ done', o' ∈ done ∨ (ok = true ∧ o' = o) := by
  cases h with
  | past hall => exact ⟨done, .past hall, fun o' ho' => Or.inl ho'⟩
  | halted hx =>
    obtain ⟨_, _, rfl, _⟩ := hx
    cases ho
  | @inside results step now rest ahead after halts chained trusts split =>
    obtain rfl := Option.some.inj ho
    cases ok with
    | true =>
      refine ⟨done ++ [now.command], ?_, ?_⟩
      · have hsplit : first.flatMap Step.commands = (done ++ [now.command]) ++
            (rest.map Link.command ++ ahead.flatMap Step.commands) := by
          simpa using split
        cases rest with
        | nil =>
          rw [List.map_nil, List.nil_append] at hsplit
          have henter := stage_enter (results ++ [(step, true)]) after trusts hsplit
          simpa [Build.complete, Build.finishStep] using henter
        | cons next rest =>
          exact .inside halts (fun l hl => chained l (.tail _ hl)) trusts hsplit
      · intro o' ho'
        rcases List.mem_append.mp ho' with ho' | ho'
        · exact Or.inl ho'
        · exact Or.inr ⟨rfl, List.mem_singleton.mp ho'⟩
    | false =>
      refine ⟨done, .halted ⟨results, step, ?_, halts⟩, fun o' ho' => Or.inl ho'⟩
      have honward : now.onward rest false = [] := by
        have hskip := skipChain_eq_nil fun l hl => chained l (.tail _ hl)
        simp [Link.onward, chained now List.mem_cons_self, hskip]
      simp [Build.complete, Build.finishStep, honward, halts]

/-- What is left to run of the opening by a build that has not halted. -/
theorem Stage.commands (h : Stage first done x) (running : ¬ Halted x) :
    ∃ rest, first.flatMap Step.commands = done ++ rest ∧
      (rest = [] ∨ ∃ later, x.commands = rest ++ later) := by
  cases h with
  | past hall => exact ⟨[], by simp [hall], Or.inl rfl⟩
  | halted hx => exact absurd hx running
  | @inside results step now rest ahead after halts chained trusts split =>
    refine ⟨_, split, Or.inr ⟨after.flatMap Step.commands, ?_⟩⟩
    simp

end FridaCI.Opening
