import FridaCI.Opening
import FridaCI.Targets

/-!
# Builds of many revisions

What holds whatever asks for the builds. A builder keeps the builds it has begun, newest
first, and begins one of any revision once its last one is over: so pushes, merged
requests and forced builds may come in any order. Every command may fail. Revision `r`
needs the packages at the version `v r`.
-/

namespace FridaCI.History
open Master Buildbot Push

set_option autoImplicit false

universe u

structure Record where
  revision : Nat
  build : Build Description (Loc × Command)

structure HistoryState (V : Type u) where
  records : BuilderName → List Record
  published : Set (Package × V)

variable {V : Type u}

namespace HistoryState

def start (before : Set (Package × V)) : HistoryState V := ⟨fun _ => [], before⟩

def begin (s : HistoryState V) (b : BuilderName) (r : Nat) : HistoryState V :=
  { s with records := Function.update s.records b (⟨r, startBuild b⟩ :: s.records b) }

/-- The command `o` that `b` runs in its build `x` exits. -/
def exit (v : Nat → V) (s : HistoryState V) (b : BuilderName) (x : Record)
    (older : List Record) (o : Loc × Command) (ok : Bool) : HistoryState V where
  records := Function.update s.records b (⟨x.revision, x.build.complete ok⟩ :: older)
  published := s.published ∪ {q | ok = true ∧ o.2.rolls = some q.1 ∧ q.2 = v x.revision}

end HistoryState

inductive HistoryStep (v : Nat → V) : HistoryState V → HistoryState V → Prop where
  | begin {s : HistoryState V} (b : BuilderName) (r : Nat)
      (idle : ∀ x ∈ s.records b, x.build.Over) : HistoryStep v s (s.begin b r)
  | exit {s : HistoryState V} {b : BuilderName} {x : Record} {older : List Record}
      {o : Loc × Command} (ok : Bool) (head : s.records b = x :: older)
      (running : x.build.current = some o)
      (ready : ok = true → ∀ p, o.2.waitsFor = some p → (p, v x.revision) ∈ s.published) :
      HistoryStep v s (s.exit v b x older o ok)

abbrev Reachable (v : Nat → V) (before : Set (Package × V)) (s : HistoryState V) : Prop :=
  Relation.ReflTransGen (HistoryStep v) (.start before) s

variable {v : Nat → V} {before : Set (Package × V)} {s t : HistoryState V}

/-! ## What a step can do -/

theorem HistoryStep.published_subset (h : HistoryStep v s t) : s.published ⊆ t.published := by
  cases h with
  | begin => exact fun q hq => hq
  | exit => exact Set.subset_union_left

/-- `y` comes from `x` by the exit of the command that `x` runs. -/
structure Exited (v : Nat → V) (s t : HistoryState V) (x y : Record) (o : Loc × Command)
    (ok : Bool) : Prop where
  running : x.build.current = some o
  eq : y = ⟨x.revision, x.build.complete ok⟩
  ready : ok = true → ∀ p, o.2.waitsFor = some p → (p, v x.revision) ∈ s.published
  rolled : ok = true → ∀ p, o.2.rolls = some p → (p, v x.revision) ∈ t.published

theorem HistoryStep.mem_records (h : HistoryStep v s t) {b : BuilderName} {y : Record}
    (hy : y ∈ t.records b) :
    y ∈ s.records b ∨ y = ⟨y.revision, startBuild b⟩ ∨
      ∃ x ∈ s.records b, ∃ o ok, Exited v s t x y o ok := by
  cases h with
  | begin c r idle =>
    by_cases hb : b = c
    · subst c
      simp only [HistoryState.begin, Function.update_self, List.mem_cons] at hy
      rcases hy with rfl | hy
      · exact Or.inr (Or.inl rfl)
      · exact Or.inl hy
    · exact Or.inl (by simpa [HistoryState.begin, Function.update_of_ne hb] using hy)
  | @exit c x older o ok head running ready =>
    by_cases hb : b = c
    · subst c
      simp only [HistoryState.exit, Function.update_self, List.mem_cons] at hy
      rcases hy with rfl | hy
      · refine Or.inr (Or.inr ⟨x, by simp [head], o, ok, running, rfl, ready, ?_⟩)
        exact fun hok p hp => Or.inr ⟨hok, hp, rfl⟩
      · exact Or.inl (by simp [head, hy])
    · exact Or.inl (by simpa [HistoryState.exit, Function.update_of_ne hb] using hy)

theorem HistoryStep.mem_published (h : HistoryStep v s t) {q : Package × V}
    (hq : q ∈ t.published) :
    q ∈ s.published ∨ ∃ b, ∃ x ∈ s.records b, ∃ o, x.build.current = some o ∧
      o.2.rolls = some q.1 ∧ q.2 = v x.revision := by
  cases h with
  | begin => exact Or.inl hq
  | @exit c x older o ok head running ready =>
    rcases hq with hq | ⟨_, hroll, hv⟩
    · exact Or.inl hq
    · exact Or.inr ⟨c, x, by simp [head], o, running, hroll, hv⟩

theorem HistoryStep.keeps_revisions (h : HistoryStep v s t) {b : BuilderName} {y : Record}
    (hy : y ∈ s.records b) : ∃ y' ∈ t.records b, y'.revision = y.revision := by
  cases h with
  | begin c r idle =>
    refine ⟨y, ?_, rfl⟩
    by_cases hb : b = c
    · subst c
      simp [HistoryState.begin, hy]
    · simpa [HistoryState.begin, Function.update_of_ne hb] using hy
  | @exit c x older o ok head running ready =>
    by_cases hb : b = c
    · subst c
      rw [head] at hy
      rcases List.mem_cons.mp hy with rfl | hy
      · exact ⟨⟨y.revision, y.build.complete ok⟩, by simp [HistoryState.exit], rfl⟩
      · exact ⟨y, by simp [HistoryState.exit, hy], rfl⟩
    · exact ⟨y, by simpa [HistoryState.exit, Function.update_of_ne hb] using hy, rfl⟩

/-- A property of single builds that publishing more keeps, that every new build has and
that the exit of a command keeps holds of all builds. -/
theorem reachable_records {P : BuilderName → Record → Set (Package × V) → Prop}
    (mono : ∀ b y S S', S ⊆ S' → P b y S → P b y S')
    (fresh : ∀ b r S, P b ⟨r, startBuild b⟩ S)
    (exited : ∀ b x y s t o ok, s.published ⊆ t.published → Exited v s t x y o ok →
      P b x s.published → P b y t.published)
    (h : Reachable v before s) : ∀ b, ∀ y ∈ s.records b, P b y s.published := by
  induction h with
  | refl =>
    intro b y hy
    cases hy
  | tail _ hstep ih =>
    intro b y hy
    rcases hstep.mem_records hy with hold | hnew | ⟨x, hx, o, ok, hexit⟩
    · exact mono b y _ _ hstep.published_subset (ih b y hold)
    · rw [hnew]
      exact fresh b _ _
    · exact exited b x y _ _ o ok hstep.published_subset hexit (ih b x hx)

theorem older_over (h : Reachable v before s) {b : BuilderName} {x : Record}
    {older : List Record} (hb : s.records b = x :: older) : ∀ y ∈ older, y.build.Over := by
  induction h generalizing b x older with
  | refl => cases hb
  | @tail s t _ hstep ih =>
    cases hstep with
    | begin c r idle =>
      by_cases hc : b = c
      · subst c
        simp only [HistoryState.begin, Function.update_self, List.cons.injEq] at hb
        obtain ⟨_, rfl⟩ := hb
        exact idle
      · simp only [HistoryState.begin, Function.update_of_ne hc] at hb
        exact ih hb
    | @exit c x' older' o ok head running ready =>
      by_cases hc : b = c
      · subst c
        simp only [HistoryState.exit, Function.update_self, List.cons.injEq] at hb
        obtain ⟨_, rfl⟩ := hb
        exact ih head
      · simp only [HistoryState.exit, Function.update_of_ne hc] at hb
        exact ih hb

theorem eq_head_of_running (h : Reachable v before s) {b : BuilderName} {y : Record}
    (hy : y ∈ s.records b) {o : Loc × Command} (ho : y.build.current = some o) :
    ∃ older, s.records b = y :: older := by
  cases hb : s.records b with
  | nil => simp [hb] at hy
  | cons x older =>
    rw [hb] at hy
    rcases List.mem_cons.mp hy with rfl | hold
    · exact ⟨older, rfl⟩
    · have hover := older_over h hb y hold
      rw [Build.Over, ho] at hover
      cases hover

/-- A builder has at most one build that is not over. -/
theorem at_most_one_running (h : Reachable v before s) {b : BuilderName} {y z : Record}
    (hy : y ∈ s.records b) (hz : z ∈ s.records b) {o o' : Loc × Command}
    (ho : y.build.current = some o) (ho' : z.build.current = some o') : y = z := by
  obtain ⟨older, hold⟩ := eq_head_of_running h hy ho
  obtain ⟨older', hold'⟩ := eq_head_of_running h hz ho'
  rw [hold] at hold'
  exact (List.cons.inj hold').1

theorem commands_suffix (h : Reachable v before s) :
    ∀ b, ∀ y ∈ s.records b, y.build.commands <:+ (startBuild b).commands := by
  apply reachable_records (P := fun b y _ => y.build.commands <:+ (startBuild b).commands)
    (h := h)
  · exact fun _ _ _ _ _ hy => hy
  · exact fun b _ _ => List.suffix_refl _
  · intro b x y s t o ok _ hexit hx
    rw [hexit.eq]
    exact ((Build.commands_complete_suffix _ ok).trans (List.tail_suffix _)).trans hx

theorem mem_program (h : Reachable v before s) {b : BuilderName} {y : Record}
    (hy : y ∈ s.records b) {o : Loc × Command} (ho : y.build.current = some o) :
    o.2 ∈ program b := by
  rw [Build.current_eq_head?] at ho
  have hmem := (commands_suffix h b y hy).subset (List.mem_of_mem_head? ho)
  rw [← commands_startBuild]
  exact List.mem_map_of_mem hmem

/-! ## The SDKs of the revision that is built -/

/-- The packages published at version `u`. -/
def at_ (S : Set (Package × V)) (u : V) : Set Package := {p | (p, u) ∈ S}

def Closed (S : Set (Package × V)) : Prop :=
  ∀ u, ∀ p ∈ at_ S u, ∀ q ∈ Targets.implied p, q ∈ at_ S u

structure Ordered (v : Nat → V) (s : HistoryState V) : Prop where
  informed : ∀ b, ∀ y ∈ s.records b,
    Knowledge.Informed Targets.need Targets.gain (at_ s.published (v y.revision)) y.build
  closed : Closed s.published

theorem informed_startBuild (b : BuilderName) (S : Set Package) :
    Knowledge.Informed Targets.need Targets.gain S (startBuild b) :=
  Knowledge.informed_enter [] (by simp) (Targets.factory_ok b)

theorem Ordered.closed_step (hs : Ordered v s) (h : HistoryStep v s t) : Closed t.published := by
  intro u p hp q hq
  rcases h.mem_published hp with hold | ⟨b, x, hx, o, ho, hroll, hu⟩
  · exact h.published_subset (hs.closed u p hold q hq)
  · have hneed := (hs.informed b x hx).need_holds ho q
    rw [← hu] at hneed
    exact h.published_subset (hneed (by simp [Targets.need, hroll, hq]))

theorem Ordered.step (hs : Ordered v s) (h : HistoryStep v s t) : Ordered v t where
  closed := hs.closed_step h
  informed b y hy := by
    have hsub : ∀ u, at_ s.published u ⊆ at_ t.published u :=
      fun u p hp => h.published_subset hp
    rcases h.mem_records hy with hold | hnew | ⟨x, hx, o, ok, hexit⟩
    · exact (hs.informed b y hold).mono (hsub _)
    · rw [hnew]
      exact informed_startBuild b _
    · rw [hexit.eq]
      refine (hs.informed b x hx).complete (hsub _) hexit.running fun hok p hp => ?_
      cases hw : o.2.waitsFor with
      | some q =>
        have hq := hexit.ready hok q hw
        simp only [Targets.gain, hw, List.mem_cons] at hp
        rcases hp with rfl | hp
        · exact hsub _ hq
        · exact hsub _ (hs.closed _ q hq p hp)
      | none =>
        cases hr : o.2.rolls with
        | some q =>
          simp only [Targets.gain, hw, hr, List.mem_singleton] at hp
          subst p
          exact hexit.rolled hok q hr
        | none => simp [Targets.gain, hw, hr] at hp

theorem reachable_ordered (closed : Closed before) (h : Reachable v before s) : Ordered v s := by
  induction h with
  | refl =>
    refine ⟨?_, closed⟩
    intro b y hy
    cases hy
  | tail _ hstep ih => exact ih.step hstep

/-- A command that names a platform is run only once the SDK of that platform is published
at the version of the revision that is built. -/
theorem consumed_sdks_at_version (closed : Closed before) (h : Reachable v before s)
    {b : BuilderName} {y : Record} (hy : y ∈ s.records b) {o : Loc × Command}
    (ho : y.build.current = some o) :
    ∀ p ∈ o.2.consumes, (sdk p, v y.revision) ∈ s.published := by
  intro p hp
  apply ((reachable_ordered closed h).informed b y hy).need_holds ho
  exact List.mem_append_left _ (List.mem_map_of_mem hp)

/-! ## Why a build is left waiting -/

/-- What has run of the opening of a rolling builder, and that it has published what it rolled. -/
def Opened (v : Nat → V) (b : BuilderName) (y : Record) (S : Set (Package × V)) : Prop :=
  ∃ done, Opening.Stage (throughRolling (number (factoryOf b))) done y.build ∧
    ∀ o ∈ done, ∀ p, o.2.rolls = some p → (p, v y.revision) ∈ S

theorem rolling_trusted {b : BuilderName} (hb : b ∈ rollingBuilders) :
    ∀ s ∈ throughRolling (number (factoryOf b)), Knowledge.trusted s = true := by
  revert b
  decide

theorem reachable_opened (h : Reachable v before s) :
    ∀ b, ∀ y ∈ s.records b, b ∈ rollingBuilders → Opened v b y s.published := by
  apply reachable_records (P := fun b y S => b ∈ rollingBuilders → Opened v b y S) (h := h)
  · intro b y S S' hsub hy hb
    obtain ⟨done, hstage, hrolled⟩ := hy hb
    exact ⟨done, hstage, fun o ho p hp => hsub (hrolled o ho p hp)⟩
  · intro b r S hb
    obtain ⟨after, hafter⟩ := throughRolling_prefix (number (factoryOf b))
    refine ⟨[], ?_, by simp⟩
    have hstart := Opening.Stage.start (rolling_trusted hb) after
    rwa [hafter] at hstart
  · intro b x y s t o ok hsub hexit hx hb
    obtain ⟨done, hstage, hrolled⟩ := hx hb
    obtain ⟨done', hstage', hdone'⟩ := hstage.complete hexit.running ok
    refine ⟨done', by rwa [hexit.eq], ?_⟩
    intro o' ho' p hp
    rw [hexit.eq]
    rcases hdone' o' ho' with hold | ⟨hok, rfl⟩
    · exact hsub (hrolled o' hold p hp)
    · exact hexit.rolled hok p hp

/-- No build can go on: each one that is not over is at a wait for a package that is not
published at the version of its revision. -/
def Stuck (v : Nat → V) (s : HistoryState V) : Prop :=
  ∀ b, ∀ y ∈ s.records b, ∀ o, y.build.current = some o →
    ∃ p, o.2.waitsFor = some p ∧ (p, v y.revision) ∉ s.published

theorem Stuck.stopped (hstuck : Stuck v s) (h : Reachable v before s) {b : BuilderName}
    (hb : b ∈ rollingBuilders) {y : Record} (hy : y ∈ s.records b)
    (running : ¬ Opening.Halted y.build) :
    ∃ done rest, rollingCommands b = done ++ rest ∧
      Agents.Stopped (at_ s.published (v y.revision))
        (done.map fun o => op o.2) (rest.map fun o => op o.2) := by
  obtain ⟨done, hstage, hrolled⟩ := reachable_opened h b y hy hb
  obtain ⟨rest, hsplit, hrest⟩ := hstage.commands running
  refine ⟨done, rest, hsplit, ?_, ?_⟩
  · intro p hp
    obtain ⟨o, ho, hop⟩ := List.mem_map.mp hp
    exact hrolled o ho p (op_eq_give_iff.mp hop)
  · rcases hrest with rfl | ⟨later, hlater⟩
    · exact Or.inl rfl
    · cases rest with
      | nil => exact Or.inl rfl
      | cons o rest =>
        obtain ⟨p, hp, hmissing⟩ := hstuck b y hy o (Build.current_of_commands hlater)
        exact Or.inr ⟨p, _, by rw [List.map_cons, op_of_waitsFor hp], hmissing⟩

/-- When no build can go on, a build that waits does so because of one of the suppliers of
what it waits for: each build of it at that version was halted by a failed step, if it has
one at all. -/
theorem stuck_supplier_halted (h : Reachable v before s) (hstuck : Stuck v s)
    {b : BuilderName} {y : Record} (hy : y ∈ s.records b) {o : Loc × Command}
    (ho : y.build.current = some o) {p : Package} (hp : o.2.waitsFor = some p) :
    ∃ c ∈ suppliers p, ∀ x ∈ s.records c, v x.revision = v y.revision →
      Opening.Halted x.build := by
  by_contra hnone
  have hbuilt : ∀ c ∈ suppliers p, ∃ x ∈ s.records c,
      v x.revision = v y.revision ∧ ¬ Opening.Halted x.build := by
    intro c hc
    by_contra hall
    refine hnone ⟨c, hc, fun x hx hv => ?_⟩
    by_contra hhalt
    exact hall ⟨x, hx, hv, hhalt⟩
  have hawaited := mem_awaited (mem_program h hy ho) hp
  have hpublished : supplied p ⊆ at_ s.published (v y.revision) := by
    apply Agents.all_given_of_stopped rank
    intro q ⟨hq, hqp⟩
    obtain ⟨x, hx, hv, hrunning⟩ := hbuilt _ (hqp ▸ provider_mem_suppliers q)
    obtain ⟨done, rest, hsplit, hstopped⟩ := hstuck.stopped h (provider_mem hq) hx hrunning
    rw [hv] at hstopped
    refine ⟨_, _, ?_, hstopped⟩
    rw [← List.map_append, ← hsplit]
    simpa only [supplied, hqp] using provider_supplies hq
  obtain ⟨p', hp', hmissing⟩ := hstuck b y hy o ho
  obtain rfl : p = p' := Option.some.inj (hp.symm.trans hp')
  exact hmissing (hpublished ⟨hawaited, rfl⟩)

end FridaCI.History
