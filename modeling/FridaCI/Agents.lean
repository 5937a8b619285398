import Mathlib.Logic.Relation
import Mathlib.Data.Set.Insert
import Mathlib.Algebra.BigOperators.Group.Finset.Basic
import Mathlib.Algebra.Order.BigOperators.Group.Finset

/-!
# Agents that publish tokens and wait for them

Each agent runs a deterministic sequential program; all of them share one set of
published tokens, which only grows. A move may need tokens that are published
already and may publish further ones. Moves of different agents commute, so the
order in which agents move decides nothing about where a run ends.

The second half is about deadlock: programs that wait on one another in a circle
still finish when a rank on the tokens decreases along every wait.
-/

namespace FridaCI.Agents

set_option autoImplicit false

universe u v w

/-! ## Relations with a decreasing measure -/

section Measure
variable {α : Type u} {r : α → α → Prop} (size : α → Nat)
variable (decreases : ∀ a b, r a b → size b < size a)
include decreases

theorem exists_stuck_of_decreasing (a : α) :
    ∃ b, Relation.ReflTransGen r a b ∧ ∀ c, ¬ r b c := by
  induction hn : size a using Nat.strong_induction_on generalizing a with
  | _ n ih =>
    by_cases h : ∃ b, r a b
    · obtain ⟨b, hab⟩ := h
      obtain ⟨c, hbc, hc⟩ := ih (size b) (hn ▸ decreases a b hab) b rfl
      exact ⟨c, .head hab hbc, hc⟩
    · exact ⟨a, .refl, fun b hab => h ⟨b, hab⟩⟩

theorem no_infinite_run_of_decreasing (run : Nat → α) : ¬ ∀ k, r (run k) (run (k + 1)) := by
  intro hrun
  have hsize : ∀ k, size (run k) + k ≤ size (run 0) := by
    intro k
    induction k with
    | zero => simp
    | succ k ih =>
      have := decreases _ _ (hrun k)
      omega
  have := hsize (size (run 0) + 1)
  omega

end Measure

def total {ι : Type u} [Fintype ι] (f : ι → Nat) : Nat := ∑ i, f i

theorem total_lt {ι : Type u} [Fintype ι] {f g : ι → Nat} (i : ι) (h : g i < f i)
    (others : ∀ j, j ≠ i → g j = f j) : total g < total f := by
  apply Finset.sum_lt_sum
  · intro j _
    by_cases hj : j = i
    · subst j
      exact Nat.le_of_lt h
    · exact Nat.le_of_eq (others j hj)
  · exact ⟨i, Finset.mem_univ i, h⟩

/-! ## Configurations and moves -/

variable {ι : Type u} {σ : Type v} {τ : Type w}

/-- `next` is the state after the move made in a state, `none` once the program is over;
`needs` must be published before that move and `gives` is published by it. -/
structure Agent (σ : Type v) (τ : Type w) where
  next : σ → Option σ
  needs : σ → Set τ
  gives : σ → Set τ

@[ext] structure Config (ι : Type u) (σ : Type v) (τ : Type w) where
  published : Set τ
  state : ι → σ

section Moves
variable [DecidableEq ι] (A : ι → Agent σ τ)

inductive Step : Config ι σ τ → Config ι σ τ → Prop where
  | move {c : Config ι σ τ} (i : ι) {x : σ} (next : (A i).next (c.state i) = some x)
      (ready : (A i).needs (c.state i) ⊆ c.published) :
      Step c ⟨c.published ∪ (A i).gives (c.state i), Function.update c.state i x⟩

def Terminal (c : Config ι σ τ) : Prop := ∀ d, ¬ Step A c d

variable {A} {c d e : Config ι σ τ}

/-- Two different moves from one configuration are moves of different agents: each
leaves the other's state alone and only adds to what the other may need. -/
theorem Step.diamond (hd : Step A c d) (he : Step A c e) :
    d = e ∨ ∃ f, Step A d f ∧ Step A e f := by
  cases hd with
  | @move i x hx hi =>
    cases he with
    | @move j y hy hj =>
      by_cases hij : i = j
      · subst j
        have hxy : x = y := Option.some.inj (hx.symm.trans hy)
        exact Or.inl (by rw [hxy])
      · have hji : j ≠ i := Ne.symm hij
        refine Or.inr ⟨⟨c.published ∪ (A i).gives (c.state i) ∪ (A j).gives (c.state j),
          Function.update (Function.update c.state i x) j y⟩, ?_, ?_⟩
        · have h := Step.move (A := A)
            (c := ⟨c.published ∪ (A i).gives (c.state i), Function.update c.state i x⟩) j (x := y)
            (by simpa [Function.update_of_ne hji] using hy)
            (by simpa [Function.update_of_ne hji] using
              hj.trans Set.subset_union_left)
          simpa [Function.update_of_ne hji] using h
        · have h := Step.move (A := A)
            (c := ⟨c.published ∪ (A j).gives (c.state j), Function.update c.state j y⟩) i (x := x)
            (by simpa [Function.update_of_ne hij] using hx)
            (by simpa [Function.update_of_ne hij] using
              hi.trans Set.subset_union_left)
          simpa [Function.update_of_ne hij, Set.union_right_comm,
            Function.update_comm hij] using h

theorem steps_join (hd : Relation.ReflTransGen (Step A) c d)
    (he : Relation.ReflTransGen (Step A) c e) :
    Relation.Join (Relation.ReflTransGen (Step A)) d e := by
  apply Relation.church_rosser _ hd he
  intro a b b' hb hb'
  rcases hb.diamond hb' with rfl | ⟨f, hf, hf'⟩
  · exact ⟨b, .refl, .refl⟩
  · exact ⟨f, .single hf, .single hf'⟩

theorem Terminal.eq_of_steps (hc : Terminal A c) (h : Relation.ReflTransGen (Step A) c d) :
    d = c := by
  cases h.cases_head with
  | inl heq => exact heq.symm
  | inr hstep =>
    obtain ⟨e, hce, _⟩ := hstep
    exact absurd hce (hc e)

theorem terminal_unique (hd : Relation.ReflTransGen (Step A) c d)
    (he : Relation.ReflTransGen (Step A) c e) (td : Terminal A d) (te : Terminal A e) :
    d = e := by
  obtain ⟨f, hdf, hef⟩ := steps_join hd he
  exact (td.eq_of_steps hdf).symm.trans (te.eq_of_steps hef)

def weight [Fintype ι] (size : σ → Nat) (c : Config ι σ τ) : Nat := total fun i => size (c.state i)

theorem Step.weight_lt [Fintype ι] {size : σ → Nat}
    (shrinks : ∀ i x y, (A i).next x = some y → size y < size x) (h : Step A c d) :
    weight size d < weight size c := by
  cases h with
  | @move i x hx _ =>
    apply total_lt i
    · simpa using shrinks i _ _ hx
    · intro j hj
      simp [Function.update_of_ne hj]

end Moves

/-! ## Waiting in a circle -/

inductive Op (τ : Type w) where
  | wait (t : τ)
  | give (t : τ)
  | other
  deriving DecidableEq

/-- The program gives `t`, and all it waits for before that lies in `D`, ranked below `t`. -/
def Supplies (D : Set τ) (rank : τ → Nat) (t : τ) : List (Op τ) → Prop
  | [] => False
  | .give u :: rest => u = t ∨ Supplies D rank t rest
  | .wait u :: rest => (u ∈ D ∧ rank u < rank t) ∧ Supplies D rank t rest
  | .other :: rest => Supplies D rank t rest

instance Supplies.decidable [DecidableEq τ] (D : Set τ) [∀ u, Decidable (u ∈ D)]
    (rank : τ → Nat) (t : τ) : ∀ p : List (Op τ), Decidable (Supplies D rank t p)
  | [] => inferInstanceAs (Decidable False)
  | .give u :: rest =>
    have := Supplies.decidable D rank t rest
    inferInstanceAs (Decidable (u = t ∨ Supplies D rank t rest))
  | .wait u :: rest =>
    have := Supplies.decidable D rank t rest
    inferInstanceAs (Decidable ((u ∈ D ∧ rank u < rank t) ∧ Supplies D rank t rest))
  | .other :: rest => Supplies.decidable D rank t rest

section Ranked
variable {D : Set τ} (rank : τ → Nat)

variable {rank} in
theorem Supplies.given_or_rest {t : τ} {done rest : List (Op τ)}
    (h : Supplies D rank t (done ++ rest)) : .give t ∈ done ∨ Supplies D rank t rest := by
  induction done with
  | nil => exact Or.inr h
  | cons op done ih =>
    cases op with
    | give u =>
      rcases h with rfl | h
      · exact Or.inl List.mem_cons_self
      · exact (ih h).imp_left (List.mem_cons_of_mem _)
    | wait u => exact (ih h.2).imp_left (List.mem_cons_of_mem _)
    | other => exact (ih h).imp_left (List.mem_cons_of_mem _)

variable {rank} in
theorem Supplies.append {t : τ} {p : List (Op τ)} (h : Supplies D rank t p)
    (later : List (Op τ)) : Supplies D rank t (p ++ later) := by
  induction p with
  | nil => exact h.elim
  | cons op p ih =>
    cases op with
    | give u => exact h.imp_right ih
    | wait u => exact ⟨h.1, ih h.2⟩
    | other => exact ih h

/-- A program that has stopped: what it gave is in `S`, and it is over or waits for
something outside `S`. -/
structure Stopped (S : Set τ) (done rest : List (Op τ)) : Prop where
  given : ∀ t, .give t ∈ done → t ∈ S
  stuck : rest = [] ∨ ∃ t tail, rest = .wait t :: tail ∧ t ∉ S

/-- Once every supplier has stopped, all of `D` is published: a supplier that waited for
something of `D` would wait for something ranked below what it supplies. -/
theorem all_given_of_stopped {S : Set τ}
    (suppliers : ∀ t ∈ D, ∃ done rest, Supplies D rank t (done ++ rest) ∧ Stopped S done rest) :
    D ⊆ S := by
  intro t
  induction hn : rank t using Nat.strong_induction_on generalizing t with
  | _ n ih =>
    intro ht
    obtain ⟨done, rest, hsup, hstop⟩ := suppliers t ht
    rcases hsup.given_or_rest with hgave | hrest
    · exact hstop.given t hgave
    · rcases hstop.stuck with rfl | ⟨u, tail, rfl, hu⟩
      · exact hrest.elim
      · obtain ⟨⟨huD, hlt⟩, _⟩ := hrest
        exact absurd (ih (rank u) (hn ▸ hlt) rfl huD) hu

end Ranked

end FridaCI.Agents
