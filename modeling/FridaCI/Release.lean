import FridaCI.Results
import FridaCI.Builders

/-!
# When a release step is started

A failed Git or Compile step ends the build, any other failed step is passed over. So
whether a failure keeps a release back depends on the helper that the failing step was
made with.
-/

namespace FridaCI.Release
open Master Buildbot

set_option autoImplicit false

/-- The activities that check out, fetch or build what a release consists of. Of the steps in
front of a release, only cleaning and testing are exempt. -/
def contributes : Activity → Bool
  | .checkingOut | .rolling | .waiting | .compiling | .building | .preparing
  | .generating | .qmaking => true
  | .cleaning | .testing | .releasing | .updating => false

abbrev NumberedStep := Step Description (Loc × Command)

def isRelease (s : NumberedStep) : Bool := s.line.any fun l => l.command.2.isRelease

def beforeRelease (b : BuilderName) : List NumberedStep :=
  (number (factoryOf b)).takeWhile fun s => !isRelease s

abbrev byPlace (outcomes : Loc → Bool) (o : Loc × Command) : Bool := outcomes o.1

/-- Whenever the release step of `b` is started, each earlier step that contributes to the
release has succeeded. -/
def ReleaseGuarded (b : BuilderName) (outcomes : Loc → Bool) : Prop :=
  ∀ results step now rest later,
    Build.Reaches (byPlace outcomes) (startBuild b) (.running results step now rest later) →
    isRelease step = true →
    ∀ r ∈ results, contributes r.1.description.activity = true → r.2 = true

theorem at_most_one_release (b : BuilderName) :
    ((number (factoryOf b)).filter isRelease).length ≤ 1 := by
  revert b
  decide

theorem beforeRelease_eq {b : BuilderName} {earlier later : List NumberedStep} {s : NumberedStep}
    (h : number (factoryOf b) = earlier ++ s :: later) (hs : isRelease s = true) :
    beforeRelease b = earlier := by
  have hone := at_most_one_release b
  rw [h, List.filter_append, List.filter_cons_of_pos hs, List.length_append,
    List.length_cons] at hone
  have hnone : earlier.filter isRelease = [] := List.length_eq_zero_iff.mp (by omega)
  rw [List.filter_eq_nil_iff] at hnone
  rw [beforeRelease, h, List.takeWhile_append_of_pos (by simpa using hnone)]
  simp [hs]

theorem halts_of_no_release {b : BuilderName} (h : beforeRelease b = number (factoryOf b)) :
    ∀ s ∈ beforeRelease b, contributes s.description.activity = true →
      s.cls.haltOnFailure = true := by
  have hall : ∀ b : BuilderName, (beforeRelease b).length = (number (factoryOf b)).length →
      ∀ s ∈ beforeRelease b, contributes s.description.activity = true →
        s.cls.haltOnFailure = true := by decide
  exact hall b (congrArg List.length h)

theorem releaseGuarded_iff_results (b : BuilderName) (outcomes : Loc → Bool) :
    ReleaseGuarded b outcomes ↔
      (Build.Passed (byPlace outcomes) (beforeRelease b) → ∀ s ∈ beforeRelease b,
        contributes s.description.activity = true → s.result (byPlace outcomes) = true) := by
  constructor
  · intro hguarded hpassed s hs hc
    cases hrest : (number (factoryOf b)).dropWhile fun s => !isRelease s with
    | nil =>
      have hall := List.takeWhile_append_dropWhile (p := fun s => !isRelease s)
        (l := number (factoryOf b))
      rw [hrest, List.append_nil] at hall
      exact hpassed s hs (halts_of_no_release hall s hs hc)
    | cons release later =>
      have hrelease : isRelease release = true := by
        have := List.head?_dropWhile_not (fun s => !isRelease s) (number (factoryOf b))
        simpa [hrest] using this
      have hreach := Build.reaches_of_passed hpassed [] (release :: later)
      rw [beforeRelease, ← hrest, List.takeWhile_append_dropWhile, hrest] at hreach
      cases hline : release.line with
      | nil => simp [isRelease, hline] at hrelease
      | cons now rest =>
        simp only [Build.enter, hline, List.nil_append] at hreach
        have hresult : (s, s.result (byPlace outcomes)) ∈
            Build.resultsOf (byPlace outcomes) (beforeRelease b) := List.mem_map_of_mem hs
        exact hguarded _ release now rest later hreach hrelease _ hresult hc
  · intro h results step now rest later hreach hstep r hr hc
    obtain ⟨earlier, hsplit, rfl, hpassed⟩ := (Build.at_of_reaches hreach).split
    have hearlier := beforeRelease_eq hsplit hstep
    obtain ⟨s, hs, rfl⟩ := List.mem_map.mp hr
    rw [hearlier] at h
    exact h hpassed s hs hc

/-! ## The steps that a failure passes over -/

def unguarded : BuilderName → List (Activity × String)
  | .windows => [
    (.rolling, "toolchain"), (.rolling, "sdk"),
    (.compiling, "Release|Win32"), (.preparing, "builddir for frida-qml Win32"),
    (.generating, "nmake files for frida-qml Win32"), (.building, "frida-qml Win32"),
    (.compiling, "Release|x64"), (.preparing, "builddir for frida-qml x64"),
    (.generating, "nmake files for frida-qml x64"), (.building, "frida-qml x64")]
  | .macosModern => [(.building, "swift bindings")]
  | .macosLegacy => [(.qmaking, "qml bindings"), (.building, "qml bindings")]
  | .ubuntu_20_04_x86_64 => [(.qmaking, "qml bindings"), (.building, "qml bindings")]
  | _ => []

theorem mem_unguarded_iff {b : BuilderName} {s : NumberedStep} (hs : s ∈ beforeRelease b) :
    (s.description.activity, s.description.subject) ∈ unguarded b ↔
      contributes s.description.activity = true ∧ s.cls.haltOnFailure = false := by
  have h : ∀ b : BuilderName, ∀ s ∈ beforeRelease b,
      ((s.description.activity, s.description.subject) ∈ unguarded b ↔
        contributes s.description.activity = true ∧ s.cls.haltOnFailure = false) := by decide
  exact h b s hs

/-- The release is guarded exactly if a Git or Compile step in front of it fails, or all of the
unguarded steps succeed; a step succeeds if the commands of its last chain do. -/
theorem releaseGuarded_iff (b : BuilderName) (outcomes : Loc → Bool) :
    ReleaseGuarded b outcomes ↔
      (∃ s ∈ beforeRelease b, s.cls.haltOnFailure = true ∧
        ∃ l ∈ lastChain s.line, outcomes l.command.1 = false) ∨
      ∀ s ∈ beforeRelease b, (s.description.activity, s.description.subject) ∈ unguarded b →
        ∀ l ∈ lastChain s.line, outcomes l.command.1 = true := by
  rw [releaseGuarded_iff_results]
  constructor
  · intro h
    by_cases hpassed : Build.Passed (byPlace outcomes) (beforeRelease b)
    · refine Or.inr fun s hs hun => ?_
      have hc := ((mem_unguarded_iff hs).mp hun).1
      exact (result_iff _ s).mp (h hpassed s hs hc)
    · apply Or.inl
      simp only [Build.Passed, not_forall] at hpassed
      obtain ⟨s, hs, hhalt, hfail⟩ := hpassed
      rw [result_iff] at hfail
      simp only [not_forall, Bool.not_eq_true] at hfail
      obtain ⟨l, hl, hfail⟩ := hfail
      exact ⟨s, hs, hhalt, l, hl, hfail⟩
  · intro h hpassed s hs hc
    rcases h with ⟨t, ht, hhalt, l, hl, hfail⟩ | h
    · have hall := (result_iff _ t).mp (hpassed t ht hhalt) l hl
      rw [byPlace, hfail] at hall
      cases hall
    · cases hhalt : s.cls.haltOnFailure with
      | true => exact hpassed s hs hhalt
      | false =>
        have hun := (mem_unguarded_iff hs).mpr ⟨hc, hhalt⟩
        exact (result_iff _ s).mpr (h s hs hun)

/-- Everything succeeds except the first command of "building swift bindings". -/
def swiftFails (l : Loc) : Bool := l != ⟨8, 0⟩

/-- macos-modern releases although building the swift bindings has failed. -/
theorem macosModern_released_without_swift :
    (number (factoryOf .macosModern)).any isRelease = true ∧
      ¬ ReleaseGuarded .macosModern swiftFails := by
  refine ⟨by decide, ?_⟩
  rw [releaseGuarded_iff_results]
  unfold Build.Passed
  decide

end FridaCI.Release
