import FridaCI.Knowledge
import FridaCI.Push

/-!
# The SDKs of the platforms a command names

A builder that waits for one SDK builds against several: android-arm64 stands for all
four android SDKs. That is sound because of the order of the rolls in macos-modern and
macos-legacy and of the waits between them.
-/

namespace FridaCI.Targets
open Master Buildbot Push

set_option autoImplicit false

/-- The packages that are published whenever `p` is. -/
def implied (p : Package) : List Package :=
  if p = sdk ⟨.android, .arm64⟩ then
    [sdk ⟨.android, .x86⟩, sdk ⟨.android, .x86_64⟩, sdk ⟨.android, .arm⟩]
  else if p = sdk ⟨.android, .arm⟩ then [sdk ⟨.android, .x86⟩]
  else []

/-- A command needs the SDKs it consumes; a roll keeps `implied` true. -/
def need (o : Loc × Command) : List Package :=
  o.2.consumes.map sdk ++
    match o.2.rolls with
    | some p => implied p
    | none => []

def gain (o : Loc × Command) : List Package :=
  match o.2.waitsFor, o.2.rolls with
  | some p, _ => p :: implied p
  | none, some p => [p]
  | none, none => []

theorem factory_ok (b : BuilderName) :
    Knowledge.StepsOk need gain [] (number (factoryOf b)) := by
  revert b
  decide

structure Ordered (s : PushState) : Prop where
  informed : ∀ b, Knowledge.Informed need gain s.published (s.state b)
  closed : ∀ p ∈ s.published, ∀ q ∈ implied p, q ∈ s.published

theorem triggered_ordered (names : List BuilderName) : Ordered (triggered names ∅) := by
  refine ⟨fun b => ?_, by simp [triggered]⟩
  by_cases hb : b ∈ names
  · simpa [triggered, hb, startBuild] using
      Knowledge.informed_enter [] (by simp) (factory_ok b)
  · simp [triggered, hb, Knowledge.Informed]

theorem Ordered.step {may : BuilderName → Loc × Command → Bool → Prop} {s t : PushState}
    (hs : Ordered s) (h : PushStep may s t) : Ordered t := by
  cases h with
  | @exit b o ok running allowed ready =>
    have hneed := (hs.informed b).need_holds running
    have hclosed : ∀ p ∈ s.published ∪ {p | ok = true ∧ o.2.rolls = some p},
        ∀ q ∈ implied p, q ∈ s.published := by
      rintro p (hp | ⟨_, hp⟩) q hq
      · exact hs.closed p hp q hq
      · exact hneed q (by simp [need, hp, hq])
    refine ⟨fun c => ?_, fun p hp q hq => Or.inl (hclosed p hp q hq)⟩
    by_cases hcb : c = b
    · subst c
      simp only [Function.update_self]
      refine (hs.informed b).complete Set.subset_union_left running fun hok p hp => ?_
      cases hw : o.2.waitsFor with
      | some q =>
        have hq := ready hok q hw
        simp only [gain, hw, List.mem_cons] at hp
        rcases hp with rfl | hp
        · exact Or.inl hq
        · exact Or.inl (hs.closed q hq p hp)
      | none =>
        cases hr : o.2.rolls with
        | some q =>
          simp only [gain, hw, hr, List.mem_singleton] at hp
          exact Or.inr ⟨hok, congrArg some hp.symm⟩
        | none => simp [gain, hw, hr] at hp
    · simpa [Function.update_of_ne hcb] using
        (hs.informed c).mono Set.subset_union_left

theorem reachable_ordered {may : BuilderName → Loc × Command → Bool → Prop}
    {names : List BuilderName} {s : PushState} (h : Reachable may names ∅ s) : Ordered s := by
  induction h with
  | refl => exact triggered_ordered names
  | tail _ hstep ih => exact ih.step hstep

def makeAndroidCore : Command :=
  .make [
    .component .core (.platform ⟨.android, .x86⟩),
    .component .core (.platform ⟨.android, .x86_64⟩),
    .component .core (.platform ⟨.android, .arm⟩),
    .component .core (.platform ⟨.android, .arm64⟩)] []

example : makeAndroidCore ∈ program .android := by decide

/-- Every exit of every command is possible, a wait's failure included. -/
def anyExit (_ : BuilderName) (_ : Loc × Command) (_ : Bool) : Prop := True

/-- Starting with nothing published, whatever fails: a command that names a platform
explicitly is run only once the SDK of that platform is published; so the android
builder makes core only once all four android SDKs are. -/
theorem consumed_sdks_published {names : List BuilderName} {s : PushState}
    (h : Reachable anyExit names ∅ s) :
    (∀ b o, (s.state b).current = some o → ∀ p ∈ o.2.consumes, sdk p ∈ s.published) ∧
    (∀ l, (s.state .android).current = some (l, makeAndroidCore) →
      ∀ a ∈ [Arch.x86, .x86_64, .arm, .arm64], sdk ⟨.android, a⟩ ∈ s.published) := by
  have hconsumed : ∀ b o, (s.state b).current = some o →
      ∀ p ∈ o.2.consumes, sdk p ∈ s.published := by
    intro b o ho p hp
    apply ((reachable_ordered h).informed b).need_holds ho
    exact List.mem_append_left _ (List.mem_map_of_mem hp)
  have hcore : ∀ a ∈ [Arch.x86, .x86_64, .arm, .arm64],
      ⟨.android, a⟩ ∈ makeAndroidCore.consumes := by decide
  exact ⟨hconsumed, fun l hl a ha => hconsumed .android _ hl _ (hcore a ha)⟩

/-- manylinux-x86_64 in front of `make core-linux-x86`, the eighth of its commands. -/
theorem consumed_sdks_published_manylinux : ∃ s l,
    Reachable anyExit (builders.map BuilderConfig.name) ∅ s ∧
    (s.state .manylinux_x86_64).current = some (l, makeArch .core .linux .x86 []) ∧
    sdk ⟨.linux, .x86⟩ ∈ s.published := by
  have halone : ∃ s, Reachable anyExit (builders.map BuilderConfig.name) ∅ s ∧
      s.state .manylinux_x86_64 = (·.complete true)^[7] (startBuild .manylinux_x86_64) :=
    reachable_alone _ _ _ (by decide) (fun _ => trivial) 7 (by decide)
  obtain ⟨s, hs, hbuild⟩ := halone
  have hcur : (s.state .manylinux_x86_64).current =
      some (⟨4, 0⟩, makeArch .core .linux .x86 []) := by
    rw [hbuild]
    decide
  exact ⟨s, ⟨4, 0⟩, hs, hcur,
    (consumed_sdks_published hs).1 .manylinux_x86_64 _ hcur _ (by decide)⟩

end FridaCI.Targets
