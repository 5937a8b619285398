import FridaCI.History
import Mathlib

/-!
# The schedulers

`c['schedulers']`. Revision `r` is the `r`-th change that the master is told of. A change
restarts the timer of the scheduler whose filter it passes; when the tree has been stable
for `treeStableTimer` seconds, every builder of the scheduler gets a request for the newest
change, which takes the place of one still in the queue. The scheduler `force` queues
builds of any revision beside these.
-/

namespace FridaCI.Schedulers
open Master Buildbot Push History

set_option autoImplicit false

universe u

structure Change where
  project : String
  branch : String
  deriving DecidableEq, Repr

structure ChangeFilter where
  project : String
  branch : String

def ChangeFilter.filterChange (f : ChangeFilter) (c : Change) : Bool :=
  c.project == f.project && c.branch == f.branch

structure SingleBranchScheduler where
  name : String
  changeFilter : ChangeFilter
  treeStableTimer : Nat
  builderNames : List BuilderName

structure ForceScheduler where
  name : String
  builderNames : List BuilderName

inductive SchedulerName where
  | all | website
  deriving DecidableEq, Repr

def scheduler : SchedulerName → SingleBranchScheduler
  | .all => ⟨"all", ⟨"frida/frida", "main"⟩, 5, mainBuilderNames⟩
  | .website => ⟨"website", ⟨"frida/frida-website", "main"⟩, 5, [.website]⟩

def force : ForceScheduler := ⟨"force", mainBuilderNames ++ [.website]⟩

def schedulerOf : BuilderName → SchedulerName
  | .website => .website
  | _ => .all

theorem mem_builderNames_iff {n : SchedulerName} {b : BuilderName} :
    b ∈ (scheduler n).builderNames ↔ schedulerOf b = n := by
  revert b
  cases n <;> decide

/-! ## The master -/

/-- `changes` is oldest first, each with the second it came in; `scheduled` are the revisions
that a builder has begun to build for its scheduler, newest first. -/
structure FarmState (V : Type u) extends HistoryState V where
  clock : Nat
  changes : List (Change × Nat)
  pending : SchedulerName → Option Nat
  request : BuilderName → Option Nat
  forced : BuilderName → List Nat
  scheduled : BuilderName → List Nat

variable {V : Type u}

namespace FarmState

def idle (before : Set (Package × V)) : FarmState V where
  toHistoryState := .start before
  clock := 0
  changes := []
  pending _ := none
  request _ := none
  forced _ := []
  scheduled _ := []

def tick (s : FarmState V) : FarmState V := { s with clock := s.clock + 1 }

def change (s : FarmState V) (c : Change) : FarmState V :=
  { s with
    changes := s.changes ++ [(c, s.clock)]
    pending := fun n =>
      if (scheduler n).changeFilter.filterChange c then some s.changes.length else s.pending n }

/-- The timer of the scheduler `n` has run out. -/
def fire (s : FarmState V) (n : SchedulerName) (r : Nat) : FarmState V :=
  { s with
    pending := Function.update s.pending n none
    request := fun b => if b ∈ (scheduler n).builderNames then some r else s.request b }

def ask (s : FarmState V) (b : BuilderName) (r : Nat) : FarmState V :=
  { s with forced := Function.update s.forced b (s.forced b ++ [r]) }

def active (s : FarmState V) (w : Worker) : Nat :=
  (builders.filter fun c => c.workername == w.name &&
    (s.records c.name).any fun y => y.build.current.isSome).length

def start (s : FarmState V) (b : BuilderName) (r : Nat) : FarmState V :=
  { s with
    toHistoryState := s.toHistoryState.begin b r
    request := Function.update s.request b none
    scheduled := Function.update s.scheduled b (r :: s.scheduled b) }

def startForced (s : FarmState V) (b : BuilderName) (r : Nat) (queue : List Nat) :
    FarmState V :=
  { s with
    toHistoryState := s.toHistoryState.begin b r
    forced := Function.update s.forced b queue }

def exit (v : Nat → V) (s : FarmState V) (b : BuilderName) (x : Record) (older : List Record)
    (o : Loc × Command) (ok : Bool) : FarmState V :=
  { s with toHistoryState := s.toHistoryState.exit v b x older o ok }

def Idle (s : FarmState V) (b : BuilderName) : Prop := ∀ x ∈ s.records b, x.build.Over

def Matches (s : FarmState V) (n : SchedulerName) (r : Nat) : Prop :=
  ∃ c t, s.changes[r]? = some (c, t) ∧ (scheduler n).changeFilter.filterChange c = true

end FarmState

/-- What the master and the workers do by themselves. A wait that has not found its package
is none of it. -/
inductive Work (v : Nat → V) : FarmState V → FarmState V → Prop where
  | fire {s : FarmState V} {n : SchedulerName} {r : Nat} {c : Change} {t : Nat}
      (due : s.pending n = some r) (arrived : s.changes[r]? = some (c, t))
      (stable : t + (scheduler n).treeStableTimer ≤ s.clock) : Work v s (s.fire n r)
  | start {s : FarmState V} {b : BuilderName} {r : Nat} {w : Worker}
      (queued : s.request b = some r) (idle : s.Idle b)
      (worker : workerOf b = some w) (free : w.canStartBuild (s.active w) = true) :
      Work v s (s.start b r)
  | startForced {s : FarmState V} {b : BuilderName} {r : Nat} {queue : List Nat} {w : Worker}
      (queued : s.forced b = r :: queue) (idle : s.Idle b)
      (worker : workerOf b = some w) (free : w.canStartBuild (s.active w) = true) :
      Work v s (s.startForced b r queue)
  | exit {s : FarmState V} {b : BuilderName} {x : Record} {older : List Record}
      {o : Loc × Command} (ok : Bool) (head : s.records b = x :: older)
      (running : x.build.current = some o)
      (ready : ∀ p, o.2.waitsFor = some p → ok = true ∧ (p, v x.revision) ∈ s.published) :
      Work v s (s.exit v b x older o ok)

inductive FarmStep (v : Nat → V) : FarmState V → FarmState V → Prop where
  | work {s t : FarmState V} (h : Work v s t) : FarmStep v s t
  | tick (s : FarmState V) : FarmStep v s s.tick
  | change (s : FarmState V) (c : Change) : FarmStep v s (s.change c)
  | ask {s : FarmState V} {b : BuilderName} (r : Nat) (named : b ∈ force.builderNames)
      (known : r < s.changes.length) : FarmStep v s (s.ask b r)
  | giveUp {s : FarmState V} {b : BuilderName} {x : Record} {older : List Record}
      {o : Loc × Command} (head : s.records b = x :: older)
      (running : x.build.current = some o) : FarmStep v s (s.exit v b x older o false)

abbrev FarmReachable (v : Nat → V) (before : Set (Package × V)) (s : FarmState V) : Prop :=
  Relation.ReflTransGen (FarmStep v) (.idle before) s

variable {v : Nat → V} {before : Set (Package × V)} {s t : FarmState V}

/-! ## The farm runs histories -/

theorem Work.history (h : Work v s t) :
    t.toHistoryState = s.toHistoryState ∨ HistoryStep v s.toHistoryState t.toHistoryState := by
  cases h with
  | fire => exact Or.inl rfl
  | start queued idle => exact Or.inr (.begin _ _ idle)
  | startForced queued idle => exact Or.inr (.begin _ _ idle)
  | exit ok head running ready =>
    exact Or.inr (.exit ok head running fun _ p hp => (ready p hp).2)

theorem FarmStep.history (h : FarmStep v s t) :
    t.toHistoryState = s.toHistoryState ∨ HistoryStep v s.toHistoryState t.toHistoryState := by
  cases h with
  | work h => exact h.history
  | tick => exact Or.inl rfl
  | change => exact Or.inl rfl
  | ask => exact Or.inl rfl
  | giveUp head running => exact Or.inr (.exit false head running fun hok => by cases hok)

theorem FarmReachable.history (h : FarmReachable v before s) :
    History.Reachable v before s.toHistoryState := by
  induction h with
  | refl => exact .refl
  | tail _ hstep ih =>
    rcases hstep.history with heq | hnext
    · rwa [heq]
    · exact ih.tail hnext

/-! ## The line of revisions of a builder -/

/-- The revisions on their way through the scheduler, the queue and the builder, newest first. -/
def FarmState.line (s : FarmState V) (b : BuilderName) : List Nat :=
  (s.pending (schedulerOf b)).toList ++ ((s.request b).toList ++ s.scheduled b)

structure Lined (s : FarmState V) (b : BuilderName) : Prop where
  decreasing : (s.line b).Pairwise (· > ·)
  wanted : ∀ r ∈ s.line b, s.Matches (schedulerOf b) r
  newest : ∀ r, s.Matches (schedulerOf b) r → ∃ r' ∈ (s.line b).head?, r ≤ r'

theorem lined_idle (before : Set (Package × V)) (b : BuilderName) :
    Lined (.idle before : FarmState V) b where
  decreasing := by simp [FarmState.line, FarmState.idle]
  wanted := by simp [FarmState.line, FarmState.idle]
  newest := by
    rintro r ⟨c, t, hr, _⟩
    simp [FarmState.idle] at hr

theorem Lined.of_line {b : BuilderName} (hs : Lined s b) (hline : t.line b = s.line b)
    (hchanges : t.changes = s.changes) : Lined t b := by
  have hmatches : ∀ r, t.Matches (schedulerOf b) r ↔ s.Matches (schedulerOf b) r := by
    intro r
    rw [FarmState.Matches, hchanges, FarmState.Matches]
  refine ⟨by rw [hline]; exact hs.decreasing, ?_, ?_⟩
  · intro r hr
    rw [hline] at hr
    exact (hmatches r).mpr (hs.wanted r hr)
  · intro r hr
    rw [hline]
    exact hs.newest r ((hmatches r).mp hr)

theorem FarmState.Matches.lt {n : SchedulerName} {r : Nat} (h : s.Matches n r) :
    r < s.changes.length := by
  obtain ⟨c, t, hr, _⟩ := h
  exact (List.getElem?_eq_some_iff.mp hr).1

theorem matches_change_iff {c : Change} {n : SchedulerName} {r : Nat} :
    (s.change c).Matches n r ↔ s.Matches n r ∨
      (r = s.changes.length ∧ (scheduler n).changeFilter.filterChange c = true) := by
  constructor
  · rintro ⟨c', t, hr, hf⟩
    simp only [FarmState.change] at hr
    by_cases hlt : r < s.changes.length
    · rw [List.getElem?_append_left hlt] at hr
      exact Or.inl ⟨c', t, hr, hf⟩
    · rw [List.getElem?_append_right (by omega)] at hr
      obtain ⟨hlt', heq⟩ := List.getElem?_eq_some_iff.mp hr
      simp only [List.length_singleton] at hlt'
      simp only [List.getElem_singleton, Prod.mk.injEq] at heq
      obtain ⟨rfl, _⟩ := heq
      exact Or.inr ⟨by omega, hf⟩
  · rintro (⟨c', t, hr, hf⟩ | ⟨rfl, hf⟩)
    · refine ⟨c', t, ?_, hf⟩
      rw [FarmState.change, List.getElem?_append_left (List.getElem?_eq_some_iff.mp hr).1, hr]
    · exact ⟨c, s.clock, by simp [FarmState.change], hf⟩

/-- A change that the scheduler wants goes in front, where a pending one was. -/
theorem Lined.change {b : BuilderName} (hs : Lined s b) (c : Change) :
    Lined (s.change c) b := by
  by_cases hf : (scheduler (schedulerOf b)).changeFilter.filterChange c = true
  · have hline : (s.change c).line b =
        s.changes.length :: ((s.request b).toList ++ s.scheduled b) := by
      simp [FarmState.line, FarmState.change, hf]
    have hsub : ((s.request b).toList ++ s.scheduled b).Sublist (s.line b) :=
      List.sublist_append_right _ _
    refine ⟨?_, ?_, ?_⟩
    · rw [hline, List.pairwise_cons]
      refine ⟨?_, hs.decreasing.sublist hsub⟩
      intro r hr
      exact (hs.wanted r (hsub.subset hr)).lt
    · intro r hr
      rw [hline] at hr
      rcases List.mem_cons.mp hr with rfl | hr
      · exact matches_change_iff.mpr (Or.inr ⟨rfl, hf⟩)
      · exact matches_change_iff.mpr (Or.inl (hs.wanted r (hsub.subset hr)))
    · intro r hr
      refine ⟨s.changes.length, by simp [hline], ?_⟩
      rcases matches_change_iff.mp hr with hold | ⟨rfl, _⟩
      · exact Nat.le_of_lt hold.lt
      · exact Nat.le_refl _
  · have hline : (s.change c).line b = s.line b := by
      simp [FarmState.line, FarmState.change, hf]
    have hold : ∀ r, (s.change c).Matches (schedulerOf b) r ↔ s.Matches (schedulerOf b) r := by
      intro r
      rw [matches_change_iff]
      exact ⟨fun h => h.resolve_right fun h => hf h.2, Or.inl⟩
    refine ⟨by rw [hline]; exact hs.decreasing, ?_, ?_⟩
    · intro r hr
      rw [hline] at hr
      exact (hold r).mpr (hs.wanted r hr)
    · intro r hr
      rw [hline]
      exact hs.newest r ((hold r).mp hr)

/-- The pending revision becomes the request, and a request before it is dropped. -/
theorem Lined.fire {b : BuilderName} (hs : Lined s b) {n : SchedulerName} {r : Nat}
    (due : s.pending n = some r) : Lined (s.fire n r) b := by
  by_cases hn : schedulerOf b = n
  · subst hn
    have hline : (s.fire (schedulerOf b) r).line b = r :: s.scheduled b := by
      simp [FarmState.line, FarmState.fire, mem_builderNames_iff]
    have hold : s.line b = r :: ((s.request b).toList ++ s.scheduled b) := by
      simp [FarmState.line, due]
    have hsub : (r :: s.scheduled b).Sublist (s.line b) := by
      rw [hold]
      exact (List.sublist_append_right _ _).cons_cons r
    refine ⟨by rw [hline]; exact hs.decreasing.sublist hsub, ?_, ?_⟩
    · intro q hq
      rw [hline] at hq
      exact hs.wanted q (hsub.subset hq)
    · intro q hq
      obtain ⟨r', hr', hle⟩ := hs.newest q hq
      rw [hold] at hr'
      exact ⟨r', by simpa [hline] using hr', hle⟩
  · refine hs.of_line (t := s.fire n r) ?_ rfl
    simp [FarmState.line, FarmState.fire, mem_builderNames_iff, hn]

/-- The request is the newest revision of the builder, save for a pending one. -/
theorem Lined.start {b c : BuilderName} (hs : Lined s b) {r : Nat}
    (queued : s.request c = some r) : Lined (s.start c r) b := by
  refine hs.of_line (t := s.start c r) ?_ rfl
  by_cases hbc : b = c
  · subst c
    simp [FarmState.line, FarmState.start, queued]
  · simp [FarmState.line, FarmState.start, Function.update_of_ne hbc]

theorem Lined.step {b : BuilderName} (hs : Lined s b) (h : FarmStep v s t) : Lined t b := by
  cases h with
  | work h =>
    cases h with
    | fire due => exact hs.fire due
    | start queued => exact hs.start queued
    | startForced => exact hs.of_line rfl rfl
    | exit => exact hs.of_line rfl rfl
  | tick => exact hs.of_line rfl rfl
  | change c => exact hs.change c
  | ask => exact hs.of_line rfl rfl
  | giveUp => exact hs.of_line rfl rfl

theorem reachable_lined (h : FarmReachable v before s) (b : BuilderName) : Lined s b := by
  induction h with
  | refl => exact lined_idle before b
  | tail _ hstep ih => exact ih.step hstep

/-! ## What is built for the schedulers -/

theorem checks_out_project (b : BuilderName) :
    (program b).head? = some (.gitCheckout ("https://github.com/" ++
      (scheduler (schedulerOf b)).changeFilter.project ++ ".git")) := by
  cases b <;> rfl

/-- The revisions that have left the scheduler of `b`. -/
def FarmState.released (s : FarmState V) (b : BuilderName) : List Nat :=
  (s.request b).toList ++ s.scheduled b

/-- The tree has been stable after each released revision. -/
structure Calm (s : FarmState V) : Prop where
  past : ∀ (r : Nat) c t, s.changes[r]? = some (c, t) → t ≤ s.clock
  stable : ∀ b, ∀ r ∈ s.released b, ∀ c t, s.changes[r]? = some (c, t) →
    t + (scheduler (schedulerOf b)).treeStableTimer ≤ s.clock ∧
    ∀ r' > r, s.Matches (schedulerOf b) r' → ∀ c' t', s.changes[r']? = some (c', t') →
      t + (scheduler (schedulerOf b)).treeStableTimer ≤ t'

theorem Calm.of_released (hs : Calm s) (hclock : s.clock ≤ t.clock)
    (hchanges : t.changes = s.changes) (hreleased : ∀ b, t.released b ⊆ s.released b) :
    Calm t := by
  constructor
  · intro r c τ hr
    rw [hchanges] at hr
    exact Nat.le_trans (hs.past r c τ hr) hclock
  · intro b r hr c τ hc
    rw [hchanges] at hc
    obtain ⟨hstable, hlater⟩ := hs.stable b r (hreleased b hr) c τ hc
    refine ⟨Nat.le_trans hstable hclock, ?_⟩
    intro r' hr' hm c' τ' hc'
    rw [FarmState.Matches, hchanges] at hm
    rw [hchanges] at hc'
    exact hlater r' hr' hm c' τ' hc'

theorem Calm.change (hs : Calm s) (wanted : ∀ b, ∀ r ∈ s.released b, r < s.changes.length)
    (c : Change) : Calm (s.change c) := by
  have hold : ∀ (r : Nat) c' τ, (s.change c).changes[r]? = some (c', τ) →
      s.changes[r]? = some (c', τ) ∨ (r = s.changes.length ∧ c' = c ∧ τ = s.clock) := by
    intro r c' τ hr
    simp only [FarmState.change] at hr
    by_cases hlt : r < s.changes.length
    · exact Or.inl (by rwa [List.getElem?_append_left hlt] at hr)
    · rw [List.getElem?_append_right (by omega)] at hr
      obtain ⟨hlt', heq⟩ := List.getElem?_eq_some_iff.mp hr
      simp only [List.length_singleton] at hlt'
      simp only [List.getElem_singleton, Prod.mk.injEq] at heq
      exact Or.inr ⟨by omega, heq.1.symm, heq.2.symm⟩
  constructor
  · intro r c' τ hr
    rcases hold r c' τ hr with hr | ⟨_, _, rfl⟩
    · exact hs.past r c' τ hr
    · exact Nat.le_refl _
  · intro b r hr c' τ hc
    have hlt := wanted b r hr
    rcases hold r c' τ hc with hc | ⟨rfl, _⟩
    · obtain ⟨hstable, hlater⟩ := hs.stable b r hr c' τ hc
      refine ⟨hstable, ?_⟩
      intro r' hr' hm c'' τ'' hc'
      rcases hold r' c'' τ'' hc' with hc' | ⟨rfl, _, rfl⟩
      · rcases matches_change_iff.mp hm with hm | ⟨rfl, _⟩
        · exact hlater r' hr' hm c'' τ'' hc'
        · exact absurd (List.getElem?_eq_some_iff.mp hc').1 (Nat.lt_irrefl _)
      · exact hstable
    · omega

theorem Calm.fire (hs : Calm s) (lined : ∀ b, Lined s b) {n : SchedulerName} {r : Nat}
    {c : Change} {τ : Nat} (due : s.pending n = some r) (arrived : s.changes[r]? = some (c, τ))
    (stable : τ + (scheduler n).treeStableTimer ≤ s.clock) : Calm (s.fire n r) := by
  refine ⟨hs.past, ?_⟩
  intro b q hq c' τ' hc'
  by_cases hn : schedulerOf b = n
  · subst hn
    have hcases : q = r ∨ q ∈ s.scheduled b := by
      simpa [FarmState.released, FarmState.fire, mem_builderNames_iff] using hq
    rcases hcases with rfl | hold
    · obtain ⟨_, rfl⟩ := Prod.mk.inj (Option.some.inj (arrived.symm.trans hc'))
      refine ⟨stable, ?_⟩
      intro r' hr' hm
      obtain ⟨top, htop, hle⟩ := (lined b).newest r' hm
      simp only [FarmState.line, due, Option.toList_some, List.singleton_append,
        List.head?_cons, Option.mem_some_iff] at htop
      omega
    · exact hs.stable b q (List.mem_append_right _ hold) c' τ' hc'
  · apply hs.stable b q _ c' τ' hc'
    simpa [FarmState.released, FarmState.fire, mem_builderNames_iff, hn] using hq

theorem Calm.start (hs : Calm s) {b : BuilderName} {r : Nat} (queued : s.request b = some r) :
    Calm (s.start b r) := by
  refine hs.of_released (t := s.start b r) (Nat.le_refl _) rfl ?_
  intro c q hq
  by_cases hc : c = b
  · subst c
    simpa [FarmState.released, FarmState.start, queued] using hq
  · simpa [FarmState.released, FarmState.start, Function.update_of_ne hc] using hq

theorem Calm.step (hs : Calm s) (lined : ∀ b, Lined s b) (h : FarmStep v s t) : Calm t := by
  have same : ∀ b, s.released b ⊆ s.released b := fun b => List.Subset.refl _
  cases h with
  | work h =>
    cases h with
    | fire due arrived stable => exact hs.fire lined due arrived stable
    | start queued => exact hs.start queued
    | startForced => exact hs.of_released (Nat.le_refl _) rfl same
    | exit => exact hs.of_released (Nat.le_refl _) rfl same
  | tick => exact hs.of_released (Nat.le_succ _) rfl same
  | change c =>
    apply hs.change
    intro b r hr
    exact ((lined b).wanted r (List.mem_append_right _ hr)).lt
  | ask => exact hs.of_released (Nat.le_refl _) rfl same
  | giveUp => exact hs.of_released (Nat.le_refl _) rfl same

theorem reachable_calm (h : FarmReachable v before s) : Calm s := by
  induction h with
  | refl => exact ⟨by simp [FarmState.idle], by simp [FarmState.idle, FarmState.released]⟩
  | tail h hstep ih => exact ih.step (reachable_lined h) hstep

def mainChange : Change := ⟨"frida/frida", "main"⟩

/-- Five seconds after the first change to frida/frida main its request is queued. -/
def firstFired : FarmState Nat :=
  (FarmState.tick^[5] ((FarmState.idle ∅).change mainChange)).fire .all 0

theorem reachable_firstFired : FarmReachable id ∅ firstFired := by
  have hticks : ∀ n, FarmReachable id ∅
      (FarmState.tick^[n] ((FarmState.idle ∅).change mainChange) : FarmState Nat) := by
    intro n
    induction n with
    | zero => exact .single (.change _ _)
    | succ n ih =>
      rw [Function.iterate_succ_apply']
      exact ih.tail (.tick _)
  exact (hticks 5).tail (.work (.fire rfl rfl (by decide)))

theorem reachable_started (b : BuilderName) (hb : b ∈ mainBuilderNames) :
    FarmReachable id ∅ (firstFired.start b 0) := by
  obtain ⟨w, hw, hworker⟩ := workerOf_isSome b
  refine reachable_firstFired.tail (.work (.start ?_ ?_ hworker (canStartBuild_of_mem hw _)))
  · simp [firstFired, FarmState.fire, scheduler, hb]
  · intro x hx
    cases hx

theorem total_lt_of_le {f g : BuilderName → Nat} (h : ∀ b, g b ≤ f b) {b : BuilderName}
    (hb : g b < f b) : Agents.total g < Agents.total f :=
  Finset.sum_lt_sum (fun c _ => h c) ⟨b, Finset.mem_univ b, hb⟩

/-- The work in front of a builder: a request is worth its commands and its start, a pending
revision one more. -/
def size (s : FarmState V) (b : BuilderName) : Nat :=
  ((s.records b).map fun y => y.build.commands.length).sum +
    (s.pending (schedulerOf b)).toList.length * ((startBuild b).commands.length + 2) +
    ((s.request b).toList.length + (s.forced b).length) * ((startBuild b).commands.length + 1)

theorem Work.size_lt (h : Work v s t) : Agents.total (size t) < Agents.total (size s) := by
  cases h with
  | @fire n r c τ due =>
    have hlt : ∀ b, schedulerOf b = n → size (s.fire n r) b < size s b := by
      rintro b rfl
      have hrequest : (s.fire (schedulerOf b) r).request b = some r := by
        simp [FarmState.fire, mem_builderNames_iff]
      have hpending : (s.fire (schedulerOf b) r).pending (schedulerOf b) = none := by
        simp [FarmState.fire]
      simp only [size, hrequest, hpending, due, Option.toList_some, Option.toList_none,
        List.length_singleton, List.length_nil, Nat.add_mul, Nat.zero_mul, Nat.one_mul]
      change ((s.records b).map fun y => y.build.commands.length).sum + 0 +
        (_ + 1 + (s.forced b).length * _) < _
      omega
    have hle : ∀ b, size (s.fire n r) b ≤ size s b := by
      intro b
      by_cases hn : schedulerOf b = n
      · exact Nat.le_of_lt (hlt b hn)
      · simp [size, FarmState.fire, mem_builderNames_iff, hn]
    cases n with
    | all => exact total_lt_of_le hle (hlt .windows rfl)
    | website => exact total_lt_of_le hle (hlt .website rfl)
  | @start b r w queued idle =>
    apply Agents.total_lt b
    · simp only [size, FarmState.start, HistoryState.begin, Function.update_self, queued,
        List.map_cons, List.sum_cons, Option.toList_some, Option.toList_none,
        List.length_singleton, List.length_nil, Nat.add_mul, Nat.zero_mul, Nat.one_mul]
      omega
    · intro c hc
      simp [size, FarmState.start, HistoryState.begin, Function.update_of_ne hc]
  | @startForced b r queue w queued idle =>
    apply Agents.total_lt b
    · simp only [size, FarmState.startForced, HistoryState.begin, Function.update_self, queued,
        List.map_cons, List.sum_cons, List.length_cons, Nat.add_mul, Nat.one_mul]
      omega
    · intro c hc
      simp [size, FarmState.startForced, HistoryState.begin, Function.update_of_ne hc]
  | @exit b x older o ok head running =>
    apply Agents.total_lt b
    · have hne : x.build.commands ≠ [] := by
        intro hnil
        simp [Build.current_eq_head?, hnil] at running
      have hlt := Build.length_complete_lt hne ok
      simp only [size, FarmState.exit, HistoryState.exit, Function.update_self, head,
        List.map_cons, List.sum_cons]
      omega
    · intro c hc
      simp [size, FarmState.exit, HistoryState.exit, Function.update_of_ne hc]

/-- Nothing is left to do for `b`, and it has begun the newest change of its scheduler. -/
structure CaughtUp (s : FarmState V) (b : BuilderName) : Prop where
  idle : s.Idle b
  request : s.request b = none
  forced : s.forced b = []
  newest : ∀ r, s.Matches (schedulerOf b) r → ∃ r' ∈ (s.scheduled b).head?, r ≤ r'

/-- `b` waits for a package, and some supplier of it was halted in each of its builds at the
version that `b` waits for. -/
def LeftWaiting (v : Nat → V) (s : FarmState V) (b : BuilderName) : Prop :=
  ∃ y ∈ s.records b, ∃ o p, y.build.current = some o ∧ o.2.waitsFor = some p ∧
    (p, v y.revision) ∉ s.published ∧
    ∃ c ∈ suppliers p, ∀ x ∈ s.records c, v x.revision = v y.revision →
      Opening.Halted x.build

def AtRest (v : Nat → V) (s : FarmState V) : Prop := ∀ t, ¬ Work v s t

/-- The timer of every pending revision has run out. -/
def Elapsed (s : FarmState V) : Prop :=
  ∀ n r, s.pending n = some r → ∃ c t, s.changes[r]? = some (c, t) ∧
    t + (scheduler n).treeStableTimer ≤ s.clock

theorem AtRest.stuck (hrest : AtRest v s) (h : FarmReachable v before s) :
    Stuck v s.toHistoryState := by
  intro b y hy o ho
  obtain ⟨older, hhead⟩ := eq_head_of_running h.history hy ho
  by_contra hnone
  refine hrest _ (.exit true hhead ho fun p hp => ⟨rfl, ?_⟩)
  by_contra hmissing
  exact hnone ⟨p, hp, hmissing⟩

theorem AtRest.not_idle (hrest : AtRest v s) {b : BuilderName}
    (work : s.request b ≠ none ∨ s.forced b ≠ []) : ¬ s.Idle b := by
  intro idle
  obtain ⟨w, hw, hb⟩ := workerOf_isSome b
  rcases work with hrequest | hforced
  · obtain ⟨r, hr⟩ := Option.ne_none_iff_exists'.mp hrequest
    exact hrest _ (.start hr idle hb (canStartBuild_of_mem hw _))
  · obtain ⟨r, queue, hr⟩ := List.exists_cons_of_ne_nil hforced
    exact hrest _ (.startForced hr idle hb (canStartBuild_of_mem hw _))

theorem AtRest.caughtUp_or_waiting (hrest : AtRest v s) (h : FarmReachable v before s)
    (helapsed : Elapsed s) (b : BuilderName) : CaughtUp s b ∨ LeftWaiting v s b := by
  by_cases idle : s.Idle b
  · have hrequest : s.request b = none := by
      by_contra hr
      exact hrest.not_idle (Or.inl hr) idle
    have hforced : s.forced b = [] := by
      by_contra hf
      exact hrest.not_idle (Or.inr hf) idle
    have hpending : s.pending (schedulerOf b) = none := by
      cases hp : s.pending (schedulerOf b) with
      | none => rfl
      | some r =>
        obtain ⟨c, τ, hc, hτ⟩ := helapsed _ r hp
        exact absurd (.fire hp hc hτ) (hrest _)
    refine Or.inl ⟨idle, hrequest, hforced, ?_⟩
    intro r hr
    have hnewest := (reachable_lined h b).newest r hr
    simpa [FarmState.line, hpending, hrequest] using hnewest
  · have hrunning : ∃ y ∈ s.records b, ¬ y.build.Over := by
      by_contra hnone
      refine idle fun y hy => ?_
      by_contra hover
      exact hnone ⟨y, hy, hover⟩
    obtain ⟨y, hy, hover⟩ := hrunning
    obtain ⟨o, ho⟩ := Option.ne_none_iff_exists'.mp hover
    have hstuck := hrest.stuck h
    obtain ⟨p, hp, hmissing⟩ := hstuck b y hy o ho
    exact Or.inr ⟨y, hy, o, p, ho, hp, hmissing,
      stuck_supplier_halted h.history hstuck hy ho hp⟩

theorem farm_consumed_sdks (closed : Closed before) (h : FarmReachable v before s)
    {b : BuilderName} {y : Record} (hy : y ∈ s.records b) {o : Loc × Command}
    (ho : y.build.current = some o) :
    ∀ p ∈ o.2.consumes, (sdk p, v y.revision) ∈ s.published :=
  consumed_sdks_at_version closed h.history hy ho

/-- A build whose next `n` commands wait for nothing can run them by itself. -/
theorem reachable_alone (h : FarmReachable v before s) {b : BuilderName} {r : Nat}
    {older : List Record} (hb : s.records b = ⟨r, startBuild b⟩ :: older) (n : Nat)
    (free : ∀ k < n, ∃ o, ((·.complete true)^[k] (startBuild b)).current = some o ∧
      o.2.waitsFor = none) :
    ∃ t, FarmReachable v before t ∧
      t.records b = ⟨r, (·.complete true)^[n] (startBuild b)⟩ :: older := by
  induction n with
  | zero => exact ⟨s, h, hb⟩
  | succ n ih =>
    obtain ⟨t, ht, hbuild⟩ := ih fun k hk => free k (Nat.lt_succ_of_lt hk)
    obtain ⟨o, ho, hw⟩ := free n (Nat.lt_succ_self n)
    refine ⟨_, ht.tail (.work (.exit true hbuild ho ?_)), ?_⟩
    · intro p hp
      rw [hw] at hp
      cases hp
    · simp [FarmState.exit, HistoryState.exit, Function.iterate_succ_apply']

/-- manylinux-x86_64 in front of `make core-linux-x86` in its build of the first change. -/
theorem reachable_makeArch : ∃ t : FarmState Nat, FarmReachable id ∅ t ∧
    ∃ y ∈ t.records .manylinux_x86_64, y.revision = 0 ∧
      y.build.current = some (⟨4, 0⟩, makeArch .core .linux .x86 []) := by
  obtain ⟨t, ht, hbuild⟩ := reachable_alone
    (reachable_started .manylinux_x86_64 (by decide)) (b := .manylinux_x86_64) rfl 7 (by decide)
  refine ⟨t, ht, ⟨0, (·.complete true)^[7] (startBuild .manylinux_x86_64)⟩, ?_, rfl, by decide⟩
  rw [hbuild]
  exact .head _

theorem closed_empty : Closed (∅ : Set (Package × Nat)) := by
  intro u p hp
  cases hp

theorem farm_consumed_sdks_manylinux : ∃ t : FarmState Nat, FarmReachable id ∅ t ∧
    (sdk ⟨.linux, .x86⟩, 0) ∈ t.published := by
  obtain ⟨t, ht, y, hy, hr, hcur⟩ := reachable_makeArch
  have h := farm_consumed_sdks closed_empty ht hy hcur ⟨.linux, .x86⟩ (by decide)
  rw [hr] at h
  exact ⟨t, ht, h⟩

/-- The builders whose factory rolls `p`. -/
def rollers (p : Package) : List BuilderName :=
  (builders.map BuilderConfig.name).filter fun b => (program b).any fun c => c.rolls == some p

theorem mem_rollers {b : BuilderName} {c : Command} {p : Package} (hc : c ∈ program b)
    (hp : c.rolls = some p) : b ∈ rollers p := by
  have hname : ∀ b, b ∈ builders.map BuilderConfig.name := by decide
  rw [rollers, List.mem_filter, List.any_eq_true]
  exact ⟨hname b, c, hc, by simp [hp]⟩

theorem rollers_length_le (b : BuilderName) :
    ∀ c ∈ program b, ∀ p ∈ c.rolls, (rollers p).length ≤ 1 := by
  revert b
  decide

end FridaCI.Schedulers
