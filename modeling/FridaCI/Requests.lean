import FridaCI.Push

/-!
# Many pushes

Every push queues a request for each builder of the scheduler `all`; a builder works
on one build at a time. collapseRequests is left at its default, so a request that has
not been started is merged into the request of the next push, and only the newer
revision is built. Revisions are numbered by their pushes, and revision `r` needs the
packages at the version `v r`. No command fails.
-/

namespace FridaCI.Requests
open Master Buildbot Push

set_option autoImplicit false

universe u

/-- `request` is the revision of the queued request of a builder and `begun` the revisions
it has started to build, newest first: the head is the one it builds or built last. -/
structure MasterState (V : Type u) where
  pushed : Nat
  request : BuilderName → Option Nat
  begun : BuilderName → List Nat
  build : BuilderName → Build Description (Loc × Command)
  published : Set (Package × V)

variable {V : Type u}

namespace MasterState

def idle (before : Set (Package × V)) : MasterState V where
  pushed := 0
  request _ := none
  begun _ := []
  build _ := .finished []
  published := before

/-- The request of the next push takes the place of a queued one. -/
def collapse (_queued : Option Nat) (revision : Nat) : Option Nat := some revision

def push (s : MasterState V) : MasterState V :=
  { s with
    pushed := s.pushed + 1
    request := fun b =>
      if b ∈ mainBuilderNames then collapse (s.request b) s.pushed else s.request b }

def active (s : MasterState V) (w : Worker) : Nat :=
  (builders.filter fun c => c.workername == w.name && (s.build c.name).current.isSome).length

def start (s : MasterState V) (b : BuilderName) (r : Nat) : MasterState V :=
  { s with
    request := Function.update s.request b none
    begun := Function.update s.begun b (r :: s.begun b)
    build := Function.update s.build b (startBuild b) }

/-- The command `o` that `b` runs in its build of revision `r` succeeds. -/
def run (v : Nat → V) (s : MasterState V) (b : BuilderName) (r : Nat) (o : Loc × Command) :
    MasterState V :=
  { s with
    build := Function.update s.build b ((s.build b).complete true)
    published := s.published ∪ {q | o.2.rolls = some q.1 ∧ q.2 = v r} }

end MasterState

inductive WorkStep (v : Nat → V) : MasterState V → MasterState V → Prop where
  | start {s : MasterState V} {b : BuilderName} {r : Nat} {w : Worker}
      (queued : s.request b = some r) (idle : (s.build b).Over)
      (worker : workerOf b = some w) (free : w.canStartBuild (s.active w) = true) :
      WorkStep v s (s.start b r)
  | run {s : MasterState V} {b : BuilderName} {r : Nat} {o : Loc × Command}
      (building : (s.begun b).head? = some r) (running : (s.build b).current = some o)
      (ready : ∀ p, o.2.waitsFor = some p → (p, v r) ∈ s.published) :
      WorkStep v s (s.run v b r o)

inductive MasterStep (v : Nat → V) : MasterState V → MasterState V → Prop where
  | push (s : MasterState V) : MasterStep v s s.push
  | work {s t : MasterState V} (h : WorkStep v s t) : MasterStep v s t

/-- No builder can take a step and no queued request can start. -/
def Quiescent (v : Nat → V) (s : MasterState V) : Prop := ∀ t, ¬ WorkStep v s t

/-- `b` is left at a wait for `p`, which is not published at the version of its revision. -/
structure Stranded (v : Nat → V) (s : MasterState V) (b : BuilderName) (p : Package)
    (r : Nat) : Prop where
  building : (s.begun b).head? = some r
  waiting : ∃ o, (s.build b).current = some o ∧ o.2.waitsFor = some p
  missing : (p, v r) ∉ s.published

/-! ## Merges that lose no version -/

/-- A push now would merge away no request of a rolling builder at a version that some
builder has begun to build, the rolling builder has not, and the new revision does not need. -/
def KeepsVersions (v : Nat → V) (s : MasterState V) : Prop :=
  ∀ b ∈ rollingBuilders, ∀ r, s.request b = some r →
    v r = v s.pushed ∨ (∃ r' ∈ s.begun b, v r' = v r) ∨ ∀ c, ∀ r' ∈ s.begun c, v r' ≠ v r

inductive KeepingStep (v : Nat → V) : MasterState V → MasterState V → Prop where
  | push {s : MasterState V} (keeps : KeepsVersions v s) : KeepingStep v s s.push
  | work {s t : MasterState V} (h : WorkStep v s t) : KeepingStep v s t

/-- A rolling builder has begun a build at the version of revision `r`, or has a request at
that version queued and has so far only begun revisions before `r`. -/
def Covered (v : Nat → V) (s : MasterState V) (b : BuilderName) (r : Nat) : Prop :=
  (∃ r' ∈ s.begun b, v r' = v r) ∨
    ∃ q, s.request b = some q ∧ v q = v r ∧ ∀ r' ∈ s.begun b, r' < r

def RolledAt (v : Nat → V) (s : MasterState V) (r : Nat) (commands : List (Loc × Command)) :
    Prop :=
  ∀ o ∈ commands, ∀ p, o.2.rolls = some p → (p, v r) ∈ s.published

/-- Only the newest revision is ever queued, so what any builder has begun every rolling
builder has begun or still has in its queue. -/
structure Consistent (v : Nat → V) (s : MasterState V) : Prop where
  requested : ∀ b r, s.request b = some r → b ∈ mainBuilderNames ∧ r + 1 = s.pushed
  newest : ∀ b ∈ rollingBuilders, ∀ r, r + 1 = s.pushed → s.request b = some r ∨ r ∈ s.begun b
  begun_lt : ∀ b, ∀ r ∈ s.begun b, r < s.pushed
  unused : ∀ b, s.begun b = [] → (s.build b).Over
  current : ∀ b r older, s.begun b = r :: older → ∃ done,
    (startBuild b).commands = done ++ (s.build b).commands ∧ RolledAt v s r done
  past : ∀ b r older, s.begun b = r :: older →
    ∀ r' ∈ older, RolledAt v s r' (startBuild b).commands
  covered : ∀ b ∈ rollingBuilders, ∀ c, ∀ r ∈ s.begun c, Covered v s b r

variable {v : Nat → V} {s t : MasterState V}

theorem consistent_idle (v : Nat → V) (before : Set (Package × V)) :
    Consistent v (.idle before) where
  requested b r h := by cases h
  newest b _ r h := by cases h
  begun_lt b r h := by cases h
  unused b _ := rfl
  current b r older h := by cases h
  past b r older h := by cases h
  covered b _ c r h := by cases h

theorem request_push {b : BuilderName} (hb : b ∈ rollingBuilders) :
    s.push.request b = some s.pushed := by
  have hmain : b ∈ mainBuilderNames := by
    revert b
    decide
  simp [MasterState.push, MasterState.collapse, hmain]

theorem Consistent.push (hs : Consistent v s) (keeps : KeepsVersions v s) :
    Consistent v s.push where
  requested b r h := by
    simp only [MasterState.push, MasterState.collapse] at h ⊢
    split at h
    · next hmain =>
      cases h
      exact ⟨hmain, rfl⟩
    · next hmain => exact absurd (hs.requested b r h).1 hmain
  newest b hb r hr := by
    obtain rfl : r = s.pushed := Nat.succ.inj hr
    exact Or.inl (request_push hb)
  begun_lt b r h := Nat.lt_succ_of_lt (hs.begun_lt b r h)
  unused := hs.unused
  current := hs.current
  past := hs.past
  covered b hb c r hr := by
    rcases hs.covered b hb c r hr with hbegun | ⟨q, hq, hqr, hfirst⟩
    · exact Or.inl hbegun
    · rcases keeps b hb q hq with hsame | ⟨r', hr', hr'q⟩ | hnone
      · exact Or.inr ⟨s.pushed, request_push hb, hsame.symm.trans hqr, hfirst⟩
      · exact Or.inl ⟨r', hr', hr'q.trans hqr⟩
      · exact absurd hqr.symm (hnone c r hr)

theorem RolledAt.mono {r : Nat} {commands : List (Loc × Command)}
    (h : RolledAt v s r commands) (hsub : s.published ⊆ t.published) :
    RolledAt v t r commands :=
  fun o ho p hp => hsub (h o ho p hp)

theorem Consistent.rolledAt_of_over (hs : Consistent v s) {b : BuilderName}
    (idle : (s.build b).Over) : ∀ r ∈ s.begun b, RolledAt v s r (startBuild b).commands := by
  intro r hr
  cases hbegun : s.begun b with
  | nil => simp [hbegun] at hr
  | cons r' older =>
    rw [hbegun] at hr
    rcases List.mem_cons.mp hr with rfl | hr
    · obtain ⟨done, hdone, hrolled⟩ := hs.current b r older hbegun
      rw [(Build.over_iff_commands _).mp idle, List.append_nil] at hdone
      rwa [hdone]
    · exact hs.past b r' older hbegun r hr

theorem mem_begun_start {b c : BuilderName} {r q : Nat} (h : q ∈ (s.start b r).begun c) :
    q ∈ s.begun c ∨ (c = b ∧ q = r) := by
  by_cases hc : c = b
  · subst c
    simp only [MasterState.start, Function.update_self, List.mem_cons] at h
    exact h.symm.imp_right fun hq => ⟨rfl, hq⟩
  · exact Or.inl (by simpa [MasterState.start, Function.update_of_ne hc] using h)

theorem Consistent.covered_newest (hs : Consistent v s) {b : BuilderName}
    (hb : b ∈ rollingBuilders) {r : Nat} (hr : r + 1 = s.pushed) : Covered v s b r := by
  by_cases hbegun : r ∈ s.begun b
  · exact Or.inl ⟨r, hbegun, rfl⟩
  · refine Or.inr ⟨r, (hs.newest b hb r hr).resolve_right hbegun, rfl, ?_⟩
    intro r' hr'
    have hlt := hs.begun_lt b r' hr'
    have hne : r' ≠ r := fun heq => hbegun (heq ▸ hr')
    omega

theorem Consistent.start (hs : Consistent v s) {b : BuilderName} {r : Nat}
    (queued : s.request b = some r) (idle : (s.build b).Over) : Consistent v (s.start b r) where
  requested c q h := by
    by_cases hc : c = b
    · subst c
      simp [MasterState.start] at h
    · exact hs.requested c q (by simpa [MasterState.start, Function.update_of_ne hc] using h)
  newest c hc' q hq := by
    by_cases hc : c = b
    · subst c
      obtain rfl : r = q := Nat.succ.inj ((hs.requested b r queued).2.trans hq.symm)
      exact Or.inr (by simp [MasterState.start])
    · simpa [MasterState.start, Function.update_of_ne hc] using hs.newest c hc' q hq
  begun_lt c q h := by
    rcases mem_begun_start h with hold | ⟨rfl, rfl⟩
    · exact hs.begun_lt c q hold
    · exact Nat.lt_of_succ_le (Nat.le_of_eq (hs.requested _ _ queued).2)
  unused c h := by
    by_cases hc : c = b
    · subst c
      simp [MasterState.start] at h
    · simp only [MasterState.start, Function.update_of_ne hc] at h ⊢
      exact hs.unused c h
  current c q older h := by
    by_cases hc : c = b
    · subst c
      exact ⟨[], by simp [MasterState.start], by simp [RolledAt]⟩
    · simp only [MasterState.start, Function.update_of_ne hc] at h ⊢
      exact hs.current c q older h
  past c q older h := by
    by_cases hc : c = b
    · subst c
      simp only [MasterState.start, Function.update_self, List.cons.injEq] at h
      obtain ⟨_, rfl⟩ := h
      exact hs.rolledAt_of_over idle
    · simp only [MasterState.start, Function.update_of_ne hc] at h
      exact hs.past c q older h
  covered c hc' d q hq := by
    have hcovered : Covered v s c q := by
      rcases mem_begun_start hq with hold | ⟨rfl, rfl⟩
      · exact hs.covered c hc' d q hold
      · exact hs.covered_newest hc' (hs.requested _ _ queued).2
    by_cases hc : c = b
    · subst c
      apply Or.inl
      simp only [MasterState.start, Function.update_self, List.mem_cons]
      rcases hcovered with ⟨r', hr', hv⟩ | ⟨r', hr', hv, _⟩
      · exact ⟨r', Or.inr hr', hv⟩
      · obtain rfl : r = r' := Option.some.inj (queued.symm.trans hr')
        exact ⟨r, Or.inl rfl, hv⟩
    · simpa [Covered, MasterState.start, Function.update_of_ne hc] using hcovered

theorem Consistent.run (hs : Consistent v s) {b : BuilderName} {r : Nat} {o : Loc × Command}
    (building : (s.begun b).head? = some r) (running : (s.build b).current = some o) :
    Consistent v (s.run v b r o) where
  requested := hs.requested
  newest := hs.newest
  begun_lt := hs.begun_lt
  unused c h := by
    by_cases hc : c = b
    · subst c
      change s.begun b = [] at h
      simp [h] at building
    · simpa [MasterState.run, Function.update_of_ne hc] using hs.unused c h
  current c q older h := by
    obtain ⟨done, hdone, hrolled⟩ := hs.current c q older h
    have hsub : s.published ⊆ (s.run v b r o).published := Set.subset_union_left
    by_cases hc : c = b
    · subst c
      change s.begun b = q :: older at h
      obtain rfl : q = r := by simpa [h] using building
      rw [Build.current_eq_head?] at running
      obtain ⟨rest, hrest⟩ := List.head?_eq_some_iff.mp running
      refine ⟨done ++ [o], ?_, ?_⟩
      · simp [MasterState.run, Build.commands_complete_true, hdone, hrest]
      · intro o' ho' p hp
        rcases List.mem_append.mp ho' with ho' | ho'
        · exact hsub (hrolled o' ho' p hp)
        · obtain rfl := List.mem_singleton.mp ho'
          exact Or.inr ⟨hp, rfl⟩
    · exact ⟨done, by simpa [MasterState.run, Function.update_of_ne hc] using hdone,
        hrolled.mono hsub⟩
  past c q older h r' hr' := (hs.past c q older h r' hr').mono Set.subset_union_left
  covered := hs.covered

theorem Consistent.step (hs : Consistent v s) (h : KeepingStep v s t) : Consistent v t := by
  cases h with
  | push keeps => exact hs.push keeps
  | work h =>
    cases h with
    | start queued idle => exact hs.start queued idle
    | run building running => exact hs.run building running

theorem reachable_consistent {before : Set (Package × V)}
    (h : Relation.ReflTransGen (KeepingStep v) (.idle before) s) : Consistent v s := by
  induction h with
  | refl => exact consistent_idle v before
  | tail _ hstep ih => exact ih.step hstep

/-! ## Quiescent states -/

theorem exists_worker (s : MasterState V) (b : BuilderName) :
    ∃ w, workerOf b = some w ∧ w.canStartBuild (s.active w) = true := by
  obtain ⟨w, hw, hb⟩ := workerOf_isSome b
  exact ⟨w, hb, canStartBuild_of_mem hw _⟩

theorem Quiescent.over_or_stranded (hq : Quiescent v s) (hs : Consistent v s)
    (b : BuilderName) : (s.build b).Over ∨ ∃ p r, Stranded v s b p r := by
  by_cases idle : (s.build b).Over
  · exact Or.inl idle
  · obtain ⟨o, ho⟩ := Option.ne_none_iff_exists'.mp idle
    cases hbegun : s.begun b with
    | nil => exact absurd (hs.unused b hbegun) idle
    | cons r older =>
      apply Or.inr
      by_contra hnone
      refine hq _ (.run (b := b) (r := r) (by rw [hbegun, List.head?_cons]) ho ?_)
      intro p hp
      by_contra hmissing
      exact hnone ⟨p, r, by rw [hbegun, List.head?_cons], ⟨o, ho, hp⟩, hmissing⟩

theorem Quiescent.not_over_of_request (hq : Quiescent v s) {b : BuilderName} {q : Nat}
    (queued : s.request b = some q) : ¬ (s.build b).Over := by
  intro idle
  obtain ⟨w, hw, hfree⟩ := exists_worker s b
  exact hq _ (.start queued idle hw hfree)

theorem Quiescent.stopped (hq : Quiescent v s) (hs : Consistent v s) {b : BuilderName}
    {r' : Nat} (hr' : r' ∈ s.begun b) {r : Nat} (hv : v r' = v r) :
    ∃ done rest, (startBuild b).commands = done ++ rest ∧
      Agents.Stopped {p | (p, v r) ∈ s.published}
        (done.map fun o => op o.2) (rest.map fun o => op o.2) := by
  have given : ∀ done, RolledAt v s r' done → ∀ p, .give p ∈ done.map (fun o => op o.2) →
      (p, v r) ∈ s.published := by
    intro done hdone p hp
    obtain ⟨o, ho, hop⟩ := List.mem_map.mp hp
    exact hv ▸ hdone o ho p (op_eq_give_iff.mp hop)
  cases hbegun : s.begun b with
  | nil => simp [hbegun] at hr'
  | cons r₀ older =>
    rw [hbegun] at hr'
    rcases List.mem_cons.mp hr' with rfl | hold
    · obtain ⟨done, hdone, hrolled⟩ := hs.current b r' older hbegun
      refine ⟨done, _, hdone, given done hrolled, ?_⟩
      rcases hq.over_or_stranded hs b with hover | ⟨p, q, ⟨hhead, ⟨o, ho, hp⟩, hmissing⟩⟩
      · exact Or.inl (by rw [(Build.over_iff_commands _).mp hover, List.map_nil])
      · obtain rfl : r' = q := by simpa [hbegun] using hhead
        rw [Build.current_eq_head?] at ho
        obtain ⟨rest, hrest⟩ := List.head?_eq_some_iff.mp ho
        refine Or.inr ⟨p, rest.map fun o => op o.2, ?_, fun h => hmissing (hv ▸ h)⟩
        rw [hrest, List.map_cons, op_of_waitsFor hp]
    · exact ⟨_, [], (List.append_nil _).symm,
        given _ (hs.past b r₀ older hbegun r' hold), Or.inl rfl⟩

/-- If every rolling builder has begun a build at a version, no build at this version is
left at a wait. -/
theorem Quiescent.not_stranded_of_begun (hq : Quiescent v s) (hs : Consistent v s) {r : Nat}
    (hbegun : ∀ b ∈ rollingBuilders, ∃ r' ∈ s.begun b, v r' = v r)
    (b : BuilderName) (p : Package) : ¬ Stranded v s b p r := by
  rintro ⟨hhead, ⟨o, ho, hp⟩, hmissing⟩
  have hpublished : supplied p ⊆ {q | (q, v r) ∈ s.published} := by
    apply Agents.all_given_of_stopped rank
    intro q ⟨hmem, hqp⟩
    obtain ⟨r', hr', hv⟩ := hbegun _ (provider_mem hmem)
    obtain ⟨done, rest, hsplit, hstopped⟩ := hq.stopped hs hr' hv
    refine ⟨_, _, ?_, hstopped⟩
    obtain ⟨later, hlater⟩ := rollingCommands_prefix (provider q)
    rw [← List.map_append, ← hsplit, ← hlater, List.map_append]
    apply Agents.Supplies.append
    simpa only [supplied, hqp] using provider_supplies hmem
  obtain ⟨older, hbegun⟩ := List.head?_eq_some_iff.mp hhead
  obtain ⟨done, hdone, _⟩ := hs.current b r older hbegun
  have hprogram : o.2 ∈ program b := by
    rw [← commands_startBuild, hdone]
    rw [Build.current_eq_head?] at ho
    exact List.mem_map_of_mem (List.mem_append_right _ (List.mem_of_mem_head? ho))
  exact hmissing (hpublished ⟨mem_awaited hprogram hp, rfl⟩)

def left (s : MasterState V) (b : BuilderName) : Nat :=
  (s.build b).commands.length +
    match s.request b with
    | some _ => (startBuild b).commands.length + 1
    | none => 0

theorem WorkStep.left_lt (h : WorkStep v s t) : Agents.total (left t) < Agents.total (left s) := by
  cases h with
  | @start b r _ queued idle =>
    apply Agents.total_lt b
    · have hnil := (Build.over_iff_commands _).mp idle
      simp [left, MasterState.start, queued, hnil]
    · intro c hc
      simp [left, MasterState.start, Function.update_of_ne hc]
  | @run b r o building running =>
    apply Agents.total_lt b
    · have hne : (s.build b).commands ≠ [] := by
        intro hnil
        simp [Build.current_eq_head?, hnil] at running
      have := Build.length_complete_lt hne true
      simpa [left, MasterState.run] using this
    · intro c hc
      simp [left, MasterState.run, Function.update_of_ne hc]

theorem exists_quiescent (v : Nat → V) (s : MasterState V) :
    ∃ t, Relation.ReflTransGen (WorkStep v) s t ∧ Quiescent v t :=
  Agents.exists_stuck_of_decreasing (fun s => Agents.total (left s)) (fun _ _ h => h.left_lt) s

theorem WorkStep.pushed_eq (h : WorkStep v s t) : t.pushed = s.pushed := by
  cases h <;> rfl

theorem works_pushed_eq (h : Relation.ReflTransGen (WorkStep v) s t) :
    t.pushed = s.pushed := by
  induction h with
  | refl => rfl
  | tail _ hstep ih => exact hstep.pushed_eq.trans ih

/-- ubuntu_18_04-armhf builds revision 0 and waits, while no other builder has begun
revision 0 or will: its requests were merged into newer ones. -/
structure ArmhfLost (s : MasterState Nat) : Prop where
  building : s.begun .ubuntu_18_04_armhf = [0]
  waiting : ∃ o, (s.build .ubuntu_18_04_armhf).current = some o ∧
    o.2.waitsFor = some (sdk ⟨.linux, .armhf⟩)
  missing : (sdk ⟨.linux, .armhf⟩, 0) ∉ s.published
  skipped : ∀ b ≠ .ubuntu_18_04_armhf, s.request b ≠ some 0 ∧ 0 ∉ s.begun b

theorem ArmhfLost.work {s t : MasterState Nat} (hs : ArmhfLost s) (h : WorkStep id s t) :
    ArmhfLost t := by
  obtain ⟨o₀, ho₀, hwait⟩ := hs.waiting
  cases h with
  | @start b r _ queued idle =>
    have hb : .ubuntu_18_04_armhf ≠ b := by
      rintro rfl
      rw [Build.Over, ho₀] at idle
      cases idle
    refine ⟨?_, ⟨o₀, ?_, hwait⟩, hs.missing, ?_⟩
    · simpa [MasterState.start, Function.update_of_ne hb] using hs.building
    · simpa [MasterState.start, Function.update_of_ne hb] using ho₀
    · intro c hc
      obtain ⟨hrequest, hbegun⟩ := hs.skipped c hc
      by_cases hcb : c = b
      · subst c
        have hr : 0 ≠ r := by
          rintro rfl
          exact hrequest queued
        simpa [MasterState.start] using ⟨hr, hbegun⟩
      · simpa [MasterState.start, Function.update_of_ne hcb] using ⟨hrequest, hbegun⟩
  | @run b r o building running ready =>
    have hb : .ubuntu_18_04_armhf ≠ b := by
      rintro rfl
      obtain rfl : o₀ = o := Option.some.inj (ho₀.symm.trans running)
      obtain rfl : 0 = r := by simpa [hs.building] using building
      exact hs.missing (ready _ hwait)
    have hr : r ≠ 0 := by
      rintro rfl
      exact (hs.skipped b (Ne.symm hb)).2 (List.mem_of_mem_head? building)
    refine ⟨hs.building, ⟨o₀, ?_, hwait⟩, ?_, hs.skipped⟩
    · simpa [MasterState.run, Function.update_of_ne hb] using ho₀
    · rintro (hold | ⟨_, hnew⟩)
      · exact hs.missing hold
      · exact hr hnew.symm

def armhfGit : Loc × Command := (⟨0, 0⟩, .gitCheckout fridaRepo)

def armhfClean : Loc × Command := (⟨1, 0⟩, clean)

/-- After push 0 ubuntu_18_04-armhf starts its build, before any other builder. -/
def armhfStarted : MasterState Nat := (MasterState.idle ∅).push.start .ubuntu_18_04_armhf 0

def armhfCheckedOut : MasterState Nat := armhfStarted.run id .ubuntu_18_04_armhf 0 armhfGit

def armhfWaiting : MasterState Nat := armhfCheckedOut.run id .ubuntu_18_04_armhf 0 armhfClean

/-- Push 1 comes while ubuntu_18_04-armhf is at its wait and no other builder has started. -/
def twoPushes : MasterState Nat := armhfWaiting.push

theorem reachable_twoPushes : Relation.ReflTransGen (MasterStep id) (.idle ∅) twoPushes := by
  obtain ⟨w, hw, hfree⟩ :=
    exists_worker (MasterState.idle ∅ : MasterState Nat).push .ubuntu_18_04_armhf
  have hstart : WorkStep id (MasterState.idle ∅).push armhfStarted :=
    .start (by decide) rfl hw hfree
  have hgit : WorkStep id armhfStarted armhfCheckedOut :=
    .run rfl rfl (by simp [armhfGit, Command.waitsFor])
  have hclean : WorkStep id armhfCheckedOut armhfWaiting :=
    .run rfl rfl (by simp [armhfClean, clean, Command.waitsFor])
  exact (((Relation.ReflTransGen.single (.push _)).tail (.work hstart)).tail
    (.work hgit)).tail (.work hclean) |>.tail (.push _)

theorem armhfLost_twoPushes : ArmhfLost twoPushes where
  building := rfl
  waiting := ⟨(⟨2, 0⟩, .under "python3.8" (waitSdk .linux .armhf)), rfl, rfl⟩
  missing := by simp [twoPushes, armhfWaiting, armhfCheckedOut, armhfStarted, MasterState.push,
    MasterState.run, MasterState.start, MasterState.idle, armhfGit, armhfClean, clean,
    Command.rolls]
  skipped b hb := by
    have hbegun : twoPushes.begun b = [] := by
      simp [twoPushes, armhfWaiting, armhfCheckedOut, armhfStarted, MasterState.push,
        MasterState.run, MasterState.start, MasterState.idle, Function.update_of_ne hb]
    refine ⟨?_, by simp [hbegun]⟩
    revert b
    decide

end FridaCI.Requests
