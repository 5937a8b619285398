import FridaCI.Agents
import FridaCI.Builders

/-!
# One push to frida/frida main

The scheduler `all` starts a build of every builder it names, all at once: no worker
bounds its builds. From then on the commands of the builders interleave freely. They
meet only in the packages, which `releng/deps.py roll` publishes and
`releng/deps.py wait` waits for.
-/

namespace FridaCI.Push
open Master Buildbot

set_option autoImplicit false

abbrev PushState := Agents.Config BuilderName (Build Description (Loc × Command)) Package

/-- The command that some builder runs exits; `may` says which exits are possible.
A wait exits with success only once its package is published. -/
inductive PushStep (may : BuilderName → Loc × Command → Bool → Prop) :
    PushState → PushState → Prop where
  | exit {s : PushState} {b : BuilderName} {o : Loc × Command} (ok : Bool)
      (running : (s.state b).current = some o) (allowed : may b o ok)
      (ready : ok = true → ∀ p, o.2.waitsFor = some p → p ∈ s.published) :
      PushStep may s
        ⟨s.published ∪ {p | ok = true ∧ o.2.rolls = some p},
          Function.update s.state b ((s.state b).complete ok)⟩

def triggered (names : List BuilderName) (before : Set Package) : PushState :=
  ⟨before, fun b => if b ∈ names then startBuild b else .finished []⟩

abbrev Reachable (may : BuilderName → Loc × Command → Bool → Prop) (names : List BuilderName)
    (before : Set Package) (s : PushState) : Prop :=
  Relation.ReflTransGen (PushStep may) (triggered names before) s

structure Blocked (s : PushState) (b : BuilderName) (p : Package) : Prop where
  waiting : ∃ o, (s.state b).current = some o ∧ o.2.waitsFor = some p
  missing : p ∉ s.published

section AnyExit
variable {may : BuilderName → Loc × Command → Bool → Prop} {s t : PushState}

theorem PushStep.published_subset (h : PushStep may s t) : s.published ⊆ t.published := by
  cases h with
  | exit => exact Set.subset_union_left

theorem PushStep.commands_suffix (h : PushStep may s t) (b : BuilderName) :
    (t.state b).commands <:+ (s.state b).commands := by
  cases h with
  | @exit c _ ok =>
    by_cases hb : b = c
    · subst b
      simpa using (Build.commands_complete_suffix _ ok).trans (List.tail_suffix _)
    · simp [Function.update_of_ne hb]

theorem triggered_commands_suffix (names : List BuilderName) (before : Set Package)
    (b : BuilderName) :
    ((triggered names before).state b).commands <:+ (startBuild b).commands := by
  by_cases hb : b ∈ names
  · simp [triggered, hb]
  · simp [triggered, hb]

theorem reachable_commands_suffix {names : List BuilderName} {before : Set Package}
    (h : Reachable may names before s) (b : BuilderName) :
    (s.state b).commands <:+ (startBuild b).commands := by
  induction h with
  | refl => exact triggered_commands_suffix names before b
  | tail _ hstep ih => exact (hstep.commands_suffix b).trans ih

theorem current_mem_program {names : List BuilderName} {before : Set Package}
    (h : Reachable may names before s) {b : BuilderName}
    {o : Loc × Command} (ho : (s.state b).current = some o) : o.2 ∈ program b := by
  rw [Build.current_eq_head?] at ho
  have hmem := (reachable_commands_suffix h b).subset (List.mem_of_mem_head? ho)
  rw [← commands_startBuild]
  exact List.mem_map_of_mem hmem

theorem reachable_alone (names : List BuilderName) (before : Set Package) (b : BuilderName)
    (hb : b ∈ names) (allowed : ∀ o, may b o true) (n : Nat)
    (free : ∀ k < n, ∃ o, ((·.complete true)^[k] (startBuild b)).current = some o ∧
      o.2.waitsFor = none) :
    ∃ s, Reachable may names before s ∧ s.state b = (·.complete true)^[n] (startBuild b) := by
  induction n with
  | zero => exact ⟨_, .refl, by simp [triggered, hb]⟩
  | succ n ih =>
    obtain ⟨s, hs, hbuild⟩ := ih fun k hk => free k (Nat.lt_succ_of_lt hk)
    obtain ⟨o, ho, hw⟩ := free n (Nat.lt_succ_self n)
    rw [← hbuild] at ho
    refine ⟨_, hs.tail (.exit true ho (allowed o) ?_), ?_⟩
    · intro _ p hp
      rw [hw] at hp
      cases hp
    · rw [Function.iterate_succ_apply', ← hbuild]
      simp

end AnyExit

/-! ## A fixed outcome for every command -/

abbrev Outcomes := BuilderName → Loc → Bool

/-- A wait never fails: it completes once its package is published. -/
def exitOk (outcomes : Outcomes) (b : BuilderName) (o : Loc × Command) : Bool :=
  o.2.waitsFor.isSome || outcomes b o.1

def Fixed (outcomes : Outcomes) (b : BuilderName) (o : Loc × Command) (ok : Bool) : Prop :=
  ok = exitOk outcomes b o

/-- With the outcomes fixed a builder is a deterministic agent. -/
def agent (outcomes : Outcomes) (b : BuilderName) :
    Agents.Agent (Build Description (Loc × Command)) Package where
  next x := x.current.map fun o => x.complete (exitOk outcomes b o)
  needs x := {p | ∃ o, x.current = some o ∧ o.2.waitsFor = some p}
  gives x := {p | ∃ o, x.current = some o ∧ exitOk outcomes b o = true ∧ o.2.rolls = some p}

variable {outcomes : Outcomes} {before : Set Package} {s t : PushState}

theorem agent_gives {b : BuilderName} {x : Build Description (Loc × Command)}
    {o : Loc × Command} (ho : x.current = some o) :
    (agent outcomes b).gives x = {p | exitOk outcomes b o = true ∧ o.2.rolls = some p} := by
  ext p
  constructor
  · rintro ⟨o', ho', h⟩
    obtain rfl : o = o' := Option.some.inj (ho.symm.trans ho')
    exact h
  · exact fun h => ⟨o, ho, h⟩

theorem pushStep_iff_agentStep :
    PushStep (Fixed outcomes) s t ↔ Agents.Step (agent outcomes) s t := by
  constructor
  · intro h
    cases h with
    | @exit b o ok running allowed ready =>
      cases allowed
      rw [← agent_gives running]
      refine .move b (by simp [agent, running]) ?_
      rintro p ⟨o', ho', hp⟩
      obtain rfl : o = o' := Option.some.inj (running.symm.trans ho')
      exact ready (by simp [exitOk, hp]) p hp
  · intro h
    cases h with
    | @move b x next ready =>
      obtain ⟨o, ho, rfl⟩ := Option.map_eq_some_iff.mp next
      rw [agent_gives ho]
      exact .exit _ ho rfl fun _ p hp => ready ⟨o, ho, hp⟩

theorem agent_shrinks (b : BuilderName) (x y : Build Description (Loc × Command))
    (h : (agent outcomes b).next x = some y) : y.commands.length < x.commands.length := by
  obtain ⟨o, ho, rfl⟩ := Option.map_eq_some_iff.mp h
  apply Build.length_complete_lt
  intro hnil
  simp [Build.current_eq_head?, hnil] at ho

def remaining : PushState → Nat := Agents.weight fun x => x.commands.length

theorem remaining_lt (h : PushStep (Fixed outcomes) s t) : remaining t < remaining s :=
  (pushStep_iff_agentStep.mp h).weight_lt agent_shrinks

def Maximal (outcomes : Outcomes) (s : PushState) : Prop := ∀ t, ¬ PushStep (Fixed outcomes) s t

theorem Maximal.over_or_blocked (h : Maximal outcomes s) (b : BuilderName) :
    (s.state b).Over ∨ ∃ p, Blocked s b p := by
  cases hcur : (s.state b).current with
  | none => exact Or.inl hcur
  | some o =>
    apply Or.inr
    by_contra hnone
    refine h _ (.exit (exitOk outcomes b o) hcur rfl ?_)
    intro _ p hp
    by_contra hmissing
    exact hnone ⟨p, ⟨o, hcur, hp⟩, hmissing⟩

/-! ## No builder waits in vain -/

def awaited : List Package := [
  sdk ⟨.macos, .x86_64⟩, sdk ⟨.macos, .arm64e⟩, sdk ⟨.ios, .arm64e⟩,
  sdk ⟨.android, .arm⟩, sdk ⟨.android, .arm64⟩,
  sdk ⟨.linux, .armhf⟩, sdk ⟨.linux, .arm64⟩, sdk ⟨.linux, .x86_64⟩]

theorem mem_awaited {b : BuilderName} {c : Command} {p : Package} (hc : c ∈ program b)
    (hp : c.waitsFor = some p) : p ∈ awaited := by
  have h : ∀ b : BuilderName, ∀ c ∈ program b, ∀ p ∈ c.waitsFor, p ∈ awaited := by decide
  exact h b c hc p hp

def provider (p : Package) : BuilderName :=
  match p.platform.os, p.platform.arch with
  | .android, .arm => .macosLegacy
  | .linux, .x86_64 => .manylinux_x86_64
  | .linux, _ => .ubuntu_18_04_x86_64
  | _, _ => .macosModern

def rollingBuilders : List BuilderName :=
  [.macosModern, .macosLegacy, .manylinux_x86_64, .ubuntu_18_04_x86_64]

theorem provider_mem {p : Package} (hp : p ∈ awaited) : provider p ∈ rollingBuilders := by
  revert p
  decide

/-- The builders that bring a package about: its provider, and the one that this waits for. -/
def suppliers (p : Package) : List BuilderName :=
  if provider p ∈ [.macosModern, .macosLegacy] then [.macosModern, .macosLegacy] else [provider p]

theorem provider_mem_suppliers (p : Package) : provider p ∈ suppliers p := by
  unfold suppliers
  split
  · next h => exact h
  · exact List.mem_singleton_self _

theorem suppliers_subset {p : Package} (hp : p ∈ awaited) : suppliers p ⊆ rollingBuilders := by
  revert p
  decide

/-- The awaited packages with the suppliers of `p`. -/
def supplied (p : Package) : Set Package := {q | q ∈ awaited ∧ suppliers q = suppliers p}

instance (p q : Package) : Decidable (q ∈ supplied p) :=
  inferInstanceAs (Decidable (q ∈ awaited ∧ suppliers q = suppliers p))

/-- macos-legacy rolls android-arm after it has waited for macos-x86_64, and macos-modern
rolls android-arm64 after it has waited for android-arm; the others wait for nothing. -/
def rank (p : Package) : Nat :=
  if p = sdk ⟨.android, .arm⟩ then 1 else if p = sdk ⟨.android, .arm64⟩ then 2 else 0

def op (c : Command) : Agents.Op Package :=
  match c.waitsFor, c.rolls with
  | some p, _ => .wait p
  | none, some p => .give p
  | none, none => .other

theorem op_eq_give_iff {c : Command} {p : Package} : op c = .give p ↔ c.rolls = some p := by
  unfold op
  constructor
  · intro h
    split at h <;> simp_all
  · intro h
    cases hw : c.waitsFor with
    | none => simp [h]
    | some q => simp [Command.rolls_eq_none_of_waitsFor hw] at h

theorem op_of_waitsFor {c : Command} {p : Package} (h : c.waitsFor = some p) :
    op c = .wait p := by
  simp [op, h]

/-- The steps of a factory up to and including "rolling dependencies". -/
def throughRolling {α : Type} : List (Step Description α) → List (Step Description α)
  | [] => []
  | s :: later => if s.description.activity = .rolling then [s] else s :: throughRolling later

theorem throughRolling_prefix {α : Type} (steps : List (Step Description α)) :
    throughRolling steps <+: steps := by
  induction steps with
  | nil => exact List.prefix_refl _
  | cons s later ih =>
    unfold throughRolling
    split
    · exact ⟨later, rfl⟩
    · exact List.prefix_cons_inj s |>.mpr ih

def rollingCommands (b : BuilderName) : List (Loc × Command) :=
  (throughRolling (number (factoryOf b))).flatMap Step.commands

theorem rollingCommands_prefix (b : BuilderName) :
    rollingCommands b <+: (startBuild b).commands := by
  obtain ⟨later, hlater⟩ := throughRolling_prefix (number (factoryOf b))
  refine ⟨later.flatMap Step.commands, ?_⟩
  rw [rollingCommands, startBuild, Build.commands_enter, ← List.flatMap_append, hlater]

theorem provider_supplies {p : Package} (hp : p ∈ awaited) :
    Agents.Supplies (supplied p) rank p
      ((rollingCommands (provider p)).map fun o => op o.2) := by
  have h : ∀ p ∈ awaited, Agents.Supplies (supplied p) rank p
      ((rollingCommands (provider p)).map fun o => op o.2) := by decide
  exact h p hp

/-- How far a builder whose rolling commands all succeed has come with them: `done` has
been run, `rest` is in front of it. -/
structure RollingProgress (s : PushState) (b : BuilderName) (done rest : List (Loc × Command)) :
    Prop where
  split : rollingCommands b = done ++ rest
  rolled : ∀ o ∈ done, ∀ p, o.2.rolls = some p → p ∈ s.published
  ahead : rest = [] ∨ ∃ later, (s.state b).commands = rest ++ later

section Rolling
variable {b : BuilderName} {done rest : List (Loc × Command)}

theorem rollingProgress_triggered {names : List BuilderName} (hb : b ∈ names) :
    RollingProgress (triggered names before) b [] (rollingCommands b) := by
  refine ⟨rfl, by simp, Or.inr ?_⟩
  obtain ⟨later, hlater⟩ := rollingCommands_prefix b
  exact ⟨later, by simp [triggered, hb, hlater]⟩

theorem RollingProgress.step (hs : RollingProgress s b done rest)
    (succeeds : ∀ o ∈ rollingCommands b, exitOk outcomes b o = true)
    (h : PushStep (Fixed outcomes) s t) : ∃ done rest, RollingProgress t b done rest := by
  have hrolled : ∀ o ∈ done, ∀ p, o.2.rolls = some p → p ∈ t.published :=
    fun o ho p hp => h.published_subset (hs.rolled o ho p hp)
  cases h with
  | @exit c o ok running allowed ready =>
    by_cases hbc : b = c
    · subst b
      rcases hs.ahead with rfl | ⟨later, hlater⟩
      · exact ⟨done, [], hs.split, hrolled, Or.inl rfl⟩
      · cases rest with
        | nil => exact ⟨done, [], hs.split, hrolled, Or.inl rfl⟩
        | cons o' rest =>
          obtain rfl : o' = o := by
            rw [Build.current_of_commands hlater] at running
            exact Option.some.inj running
          have hok : ok = true := by
            rw [allowed]
            exact succeeds o' (by simp [hs.split])
          subst hok
          refine ⟨done ++ [o'], rest, by simp [hs.split], ?_, Or.inr ⟨later, ?_⟩⟩
          · intro o ho p hp
            rcases List.mem_append.mp ho with ho | ho
            · exact hrolled o ho p hp
            · obtain rfl := List.mem_singleton.mp ho
              exact Or.inr ⟨rfl, hp⟩
          · simp [Build.commands_complete_true, hlater]
    · exact ⟨done, rest, hs.split, hrolled, by simpa [Function.update_of_ne hbc] using hs.ahead⟩

theorem reachable_rollingProgress {names : List BuilderName} (hb : b ∈ names)
    (succeeds : ∀ o ∈ rollingCommands b, exitOk outcomes b o = true)
    (h : Reachable (Fixed outcomes) names before s) :
    ∃ done rest, RollingProgress s b done rest := by
  induction h with
  | refl => exact ⟨[], _, rollingProgress_triggered hb⟩
  | tail _ hstep ih =>
    obtain ⟨done, rest, hs⟩ := ih
    exact hs.step succeeds hstep

theorem RollingProgress.stopped (hs : RollingProgress s b done rest)
    (hmax : Maximal outcomes s) :
    Agents.Stopped s.published (done.map fun o => op o.2) (rest.map fun o => op o.2) := by
  constructor
  · intro p hp
    obtain ⟨o, ho, hop⟩ := List.mem_map.mp hp
    exact hs.rolled o ho p (op_eq_give_iff.mp hop)
  · rcases hs.ahead with rfl | ⟨later, hlater⟩
    · exact Or.inl rfl
    · cases rest with
      | nil => exact Or.inl rfl
      | cons o rest =>
        have hcur := Build.current_of_commands hlater
        rcases hmax.over_or_blocked b with hover | ⟨p, ⟨⟨o', ho', hp⟩, hmissing⟩⟩
        · rw [Build.Over, hcur] at hover
          cases hover
        · obtain rfl : o = o' := Option.some.inj (hcur.symm.trans ho')
          exact Or.inr ⟨p, _, by rw [List.map_cons, op_of_waitsFor hp], hmissing⟩

end Rolling

/-- An awaited package ends up published when none of its suppliers fails before the end of
its "rolling dependencies" step. -/
theorem awaited_published {names : List BuilderName} {p : Package} (hp : p ∈ awaited)
    (triggers : ∀ b ∈ suppliers p, b ∈ names)
    (succeeds : ∀ b ∈ suppliers p, ∀ o ∈ rollingCommands b, exitOk outcomes b o = true)
    (h : Reachable (Fixed outcomes) names before s)
    (hmax : Maximal outcomes s) : p ∈ s.published := by
  have hall : supplied p ⊆ s.published := by
    apply Agents.all_given_of_stopped rank
    intro q ⟨hq, hqp⟩
    have hb : provider q ∈ suppliers p := hqp ▸ provider_mem_suppliers q
    obtain ⟨done, rest, hprog⟩ := reachable_rollingProgress (triggers _ hb) (succeeds _ hb) h
    refine ⟨_, _, ?_, hprog.stopped hmax⟩
    rw [← List.map_append, ← hprog.split]
    simpa only [supplied, hqp] using provider_supplies hq
  exact hall ⟨hp, rfl⟩

/-- A builder is left blocked only if a supplier of what it waits for has failed. -/
theorem Blocked.supplier_failed {names : List BuilderName} {b : BuilderName} {p : Package}
    (hblocked : Blocked s b p) (triggers : ∀ c ∈ rollingBuilders, c ∈ names)
    (h : Reachable (Fixed outcomes) names before s) (hmax : Maximal outcomes s) :
    ∃ c ∈ suppliers p, ∃ o ∈ rollingCommands c,
      o.2.waitsFor = none ∧ outcomes c o.1 = false := by
  obtain ⟨⟨o, ho, hp⟩, hmissing⟩ := hblocked
  have hawaited := mem_awaited (current_mem_program h ho) hp
  by_contra hnone
  refine hmissing (awaited_published hawaited ?_ ?_ h hmax)
  · exact fun c hc => triggers c (suppliers_subset hawaited hc)
  · intro c hc o ho
    by_contra hfail
    refine hnone ⟨c, hc, o, ho, ?_, ?_⟩
    · cases hw : o.2.waitsFor with
      | none => rfl
      | some p => simp [exitOk, hw] at hfail
    · cases hω : outcomes c o.1 with
      | false => rfl
      | true => simp [exitOk, hω] at hfail

/-! ## Every interleaving of one push -/

/-- For any packages published beforehand and any outcomes of the commands other than
waits: no run is infinite, all maximal runs end in one state, without failures every builder
comes to its end, and a builder is left blocked only if a command up to the end of
"rolling dependencies" has failed in a builder that supplies what it waits for. -/
theorem push_runs_agree (before : Set Package) (outcomes : Outcomes) :
    (∀ run : Nat → PushState, run 0 = triggered mainBuilderNames before →
      ¬ ∀ k, PushStep (Fixed outcomes) (run k) (run (k + 1))) ∧
    ∃ final, Reachable (Fixed outcomes) mainBuilderNames before final ∧
      Maximal outcomes final ∧
      (∀ s, Reachable (Fixed outcomes) mainBuilderNames before s → Maximal outcomes s →
        s = final) ∧
      ((∀ b l, outcomes b l = true) → ∀ b, (final.state b).Over) ∧
      (∀ b p, Blocked final b p → ∃ c ∈ suppliers p, ∃ o ∈ rollingCommands c,
        o.2.waitsFor = none ∧ outcomes c o.1 = false) := by
  have triggers : ∀ b ∈ rollingBuilders, b ∈ mainBuilderNames := by decide
  have hfinite : ∀ run : Nat → PushState,
      ¬ ∀ k, PushStep (Fixed outcomes) (run k) (run (k + 1)) :=
    Agents.no_infinite_run_of_decreasing remaining fun _ _ => remaining_lt
  refine ⟨fun run _ => hfinite run, ?_⟩
  obtain ⟨final, hfinal, hstuck⟩ :=
    Agents.exists_stuck_of_decreasing remaining (fun _ _ => remaining_lt)
      (triggered mainBuilderNames before)
  have hmax : Maximal outcomes final := hstuck
  refine ⟨final, hfinal, hmax, ?_, ?_, ?_⟩
  · intro s hs hmaxs
    have hterm : ∀ u, Maximal outcomes u → Agents.Terminal (agent outcomes) u :=
      fun u hu v hv => hu v (pushStep_iff_agentStep.mpr hv)
    have hsteps : ∀ u, Reachable (Fixed outcomes) mainBuilderNames before u →
        Relation.ReflTransGen (Agents.Step (agent outcomes))
          (triggered mainBuilderNames before) u :=
      fun u hu => Relation.ReflTransGen.mono (fun _ _ h => pushStep_iff_agentStep.mp h) _ _ hu
    exact Agents.terminal_unique (hsteps s hs) (hsteps final hfinal) (hterm s hmaxs)
      (hterm final hmax)
  · intro hall b
    rcases hmax.over_or_blocked b with hover | ⟨p, hblocked⟩
    · exact hover
    · obtain ⟨c, _, o, _, _, hfail⟩ := hblocked.supplier_failed triggers hfinal hmax
      rw [hall c o.1] at hfail
      cases hfail
  · exact fun b p hblocked => hblocked.supplier_failed triggers hfinal hmax

end FridaCI.Push
