import FridaCI.Buildbot
import Mathlib.Data.Set.Basic

/-!
# What a build knows when it runs a command

Each command may need facts and, when it succeeds, may gain some. A command behind
`&&` runs only after the commands before it have succeeded, and the step after a step
whose class halts the build on failure runs only after that step has succeeded. The
check below follows these two rules through a factory; a factory that passes it runs
each command only when the facts the command needs hold, whatever fails on the way.
-/

namespace FridaCI.Knowledge
open Buildbot

set_option autoImplicit false

universe u v w

variable {δ : Type u} {α : Type v} {τ : Type w} (need gain : α → List τ)

/-! ## The check -/

/-- `K` is known in front of the line, `base` at the start of a chain behind `&`. -/
def LineOk (base : List τ) : List τ → List (Link α) → Prop
  | _, [] => True
  | K, l :: rest => need l.command ⊆ K ∧
    LineOk base (match l.joiner with
      | .and => K ++ gain l.command
      | .amp => base) rest

def lineGain (line : List (Link α)) : List τ := line.flatMap fun l => gain l.command

/-- The steps after a trusted step run only if all of its commands have succeeded. -/
def trusted (s : Step δ α) : Bool := s.cls.haltOnFailure && s.line.all (·.joiner == .and)

def StepsOk : List τ → List (Step δ α) → Prop
  | _, [] => True
  | K, s :: later => LineOk need gain K K s.line ∧
    StepsOk (if trusted s then K ++ lineGain gain s.line else K) later

section Decidability
variable [DecidableEq τ]

instance LineOk.decidable (base : List τ) :
    ∀ (K : List τ) (line : List (Link α)), Decidable (LineOk need gain base K line)
  | _, [] => inferInstanceAs (Decidable True)
  | K, l :: rest =>
    have := LineOk.decidable base (match l.joiner with
      | .and => K ++ gain l.command
      | .amp => base) rest
    inferInstanceAs (Decidable (_ ∧ _))

instance StepsOk.decidable :
    ∀ (K : List τ) (steps : List (Step δ α)), Decidable (StepsOk need gain K steps)
  | _, [] => inferInstanceAs (Decidable True)
  | K, s :: later =>
    have := StepsOk.decidable (if trusted s then K ++ lineGain gain s.line else K) later
    inferInstanceAs (Decidable (_ ∧ _))

end Decidability

theorem LineOk.skipChain {base : List τ} {K : List τ} {line : List (Link α)}
    (h : LineOk need gain base K line) : LineOk need gain base base (skipChain line) := by
  induction line generalizing K with
  | nil => trivial
  | cons l rest ih =>
    obtain ⟨_, hrest⟩ := h
    unfold Buildbot.skipChain
    cases hj : l.joiner with
    | and =>
      rw [hj] at hrest
      exact ih hrest
    | amp =>
      rw [hj] at hrest
      exact hrest

/-! ## Builds that pass the check -/

/-- What the build knows holds in `S`, and the rest of the build passes the check on it. -/
def Informed (S : Set τ) : Build δ α → Prop
  | .finished _ => True
  | .running _ step now rest later => ∃ base K : List τ,
    (∀ t ∈ base, t ∈ S) ∧ (∀ t ∈ K, t ∈ S) ∧ LineOk need gain base K (now :: rest) ∧
    (trusted step = true → ∀ l ∈ now :: rest, l.joiner = .and) ∧
    StepsOk need gain (if trusted step then K ++ lineGain gain (now :: rest) else base) later

variable {need gain} {S S' : Set τ}

theorem Informed.mono {x : Build δ α} (h : Informed need gain S x) (hS : S ⊆ S') :
    Informed need gain S' x := by
  cases x with
  | finished => trivial
  | running =>
    obtain ⟨base, K, hbase, hK, hrest⟩ := h
    exact ⟨base, K, fun t ht => hS (hbase t ht), fun t ht => hS (hK t ht), hrest⟩

theorem informed_enter {K : List τ} (results : List (Step δ α × Bool))
    {steps : List (Step δ α)} (hK : ∀ t ∈ K, t ∈ S) (hok : StepsOk need gain K steps) :
    Informed need gain S (Build.enter results steps) := by
  induction steps generalizing results with
  | nil => trivial
  | cons s later ih =>
    obtain ⟨hline, hlater⟩ := hok
    unfold Build.enter
    split
    · next hs =>
      apply ih
      simpa [hs, lineGain] using hlater
    · next now rest hs =>
      rw [hs] at hline hlater
      refine ⟨K, K, hK, hK, hline, ?_, hlater⟩
      intro ht l hl
      simp only [trusted, hs, Bool.and_eq_true, List.all_eq_true, beq_iff_eq] at ht
      exact ht.2 l hl

theorem Informed.need_holds {x : Build δ α} (h : Informed need gain S x) {o : α}
    (ho : x.current = some o) : ∀ t ∈ need o, t ∈ S := by
  cases x with
  | finished => cases ho
  | running =>
    obtain rfl := Option.some.inj ho
    obtain ⟨_, K, _, hK, hline, _⟩ := h
    exact fun t ht => hK t (hline.1 ht)

theorem Informed.complete {x : Build δ α} (h : Informed need gain S x) (hS : S ⊆ S') {o : α}
    (ho : x.current = some o) {ok : Bool} (hgain : ok = true → ∀ t ∈ gain o, t ∈ S') :
    Informed need gain S' (x.complete ok) := by
  cases x with
  | finished => cases ho
  | running results step now rest later =>
    obtain rfl := Option.some.inj ho
    obtain ⟨base, K, hbase, hK, ⟨_, hrest⟩, htrust, hlater⟩ := h
    have hbase' : ∀ t ∈ base, t ∈ S' := fun t ht => hS (hbase t ht)
    cases hj : now.joiner with
    | amp =>
      -- Behind `&` the line goes on from what was known at its start.
      rw [hj] at hrest
      have hdoubt : trusted step = false := by
        by_contra ht
        have := htrust (by simpa using ht) now List.mem_cons_self
        rw [hj] at this
        cases this
      rw [hdoubt] at hlater
      have honward : now.onward rest ok = rest := by simp [Link.onward, hj]
      simp only [Build.complete, Build.finishStep, honward]
      cases rest with
      | nil =>
        split
        · next heq => cases heq
        · split
          · exact informed_enter _ hbase' hlater
          · trivial
      | cons next rest =>
        exact ⟨base, base, hbase', hbase', hrest, by simp [hdoubt], by simpa [hdoubt] using hlater⟩
    | and =>
      rw [hj] at hrest
      cases ok with
      | true =>
        have hK' : ∀ t ∈ K ++ gain now.command, t ∈ S' := by
          intro t ht
          rcases List.mem_append.mp ht with ht | ht
          · exact hS (hK t ht)
          · exact hgain rfl t ht
        simp only [Build.complete, Build.finishStep, onward_true]
        cases rest with
        | nil =>
          simp only [Bool.true_or, if_true]
          cases ht : trusted step with
          | true => exact informed_enter _ hK' (by simpa [ht, lineGain] using hlater)
          | false => exact informed_enter _ hbase' (by simpa [ht] using hlater)
        | cons next rest =>
          refine ⟨base, _, hbase', hK', hrest, fun ht l hl => htrust ht l (.tail _ hl), ?_⟩
          simpa [lineGain, List.append_assoc] using hlater
      | false =>
        -- The chain ends here, and with it the build if the step halts it.
        have honward : now.onward rest false = skipChain rest := by simp [Link.onward, hj]
        have hskip := LineOk.skipChain need gain hrest
        simp only [Build.complete, Build.finishStep, honward, Bool.false_or]
        split
        · next next rest' heq =>
          have hdoubt : trusted step = false := by
            by_contra ht
            have hand := htrust (by simpa using ht)
            rw [skipChain_eq_nil fun l hl => hand l (.tail _ hl)] at heq
            cases heq
          rw [heq] at hskip
          exact ⟨base, base, hbase', hbase', hskip, by simp [hdoubt],
            by simpa [hdoubt] using hlater⟩
        · split
          · next hpass =>
            have hdoubt : trusted step = false := by
              simp [trusted, by simpa using hpass]
            exact informed_enter _ hbase' (by simpa [hdoubt] using hlater)
          · trivial

end FridaCI.Knowledge
