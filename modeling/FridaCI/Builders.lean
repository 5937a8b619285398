import FridaCI.Factories
import Mathlib.Data.Fintype.Basic

/-!
# Workers, schedulers and builders of master.cfg

`c['workers']`, `main_builder_names` and `c['builders']`.
-/

namespace FridaCI.Master
open Buildbot

set_option autoImplicit false

inductive WorkerName where
  | windows | macM1 | macBigsur | macMojave | manylinux_x86_64
  | ubuntu_18_04_x86_64 | ubuntu_18_04_armhf | ubuntu_18_04_arm64
  | ubuntu_20_04_x86_64 | ubuntu_21_04_x86_64 | fedora_35_x86_64
  deriving DecidableEq, Repr

/-- `max_builds` bounds the builds that run on a worker at once; no worker passes it. -/
structure Worker where
  name : WorkerName
  maxBuilds : Option Nat

def workers : List Worker := [
  ⟨.windows, none⟩,
  ⟨.macM1, none⟩,
  ⟨.macBigsur, none⟩,
  ⟨.macMojave, none⟩,
  ⟨.manylinux_x86_64, none⟩,
  ⟨.ubuntu_18_04_x86_64, none⟩,
  ⟨.ubuntu_18_04_armhf, none⟩,
  ⟨.ubuntu_18_04_arm64, none⟩,
  ⟨.ubuntu_20_04_x86_64, none⟩,
  ⟨.ubuntu_21_04_x86_64, none⟩,
  ⟨.fedora_35_x86_64, none⟩]

def Worker.canStartBuild (w : Worker) (active : Nat) : Bool :=
  match w.maxBuilds with
  | none => true
  | some bound => active < bound

theorem canStartBuild_of_mem {w : Worker} (hw : w ∈ workers) (active : Nat) :
    w.canStartBuild active = true := by
  have h : ∀ w ∈ workers, w.maxBuilds = none := by simp [workers]
  simp [Worker.canStartBuild, h w hw]

/-- The builders, `frida-` left out of their names. -/
inductive BuilderName where
  | windows | macosM1 | macosModern | macosLegacy | manylinux_x86_64 | ios | android
  | ubuntu_18_04_x86_64 | ubuntu_18_04_armhf | ubuntu_18_04_arm64
  | ubuntu_20_04_x86_64 | ubuntu_21_04_x86_64 | fedora_35_x86_64 | website
  deriving DecidableEq, Repr

instance : Fintype BuilderName where
  elems := {.windows, .macosM1, .macosModern, .macosLegacy, .manylinux_x86_64, .ios, .android,
    .ubuntu_18_04_x86_64, .ubuntu_18_04_armhf, .ubuntu_18_04_arm64,
    .ubuntu_20_04_x86_64, .ubuntu_21_04_x86_64, .fedora_35_x86_64, .website}
  complete b := by cases b <;> decide

/-- The builders of the scheduler `all`, which a push to frida/frida main triggers. -/
def mainBuilderNames : List BuilderName := [
  .windows,
  .macosModern,
  .macosLegacy,
  .macosM1,
  .manylinux_x86_64,
  .ios,
  .android,
  .ubuntu_18_04_x86_64,
  .ubuntu_18_04_armhf,
  .ubuntu_18_04_arm64,
  .ubuntu_20_04_x86_64,
  .ubuntu_21_04_x86_64,
  .fedora_35_x86_64]

structure BuilderConfig where
  name : BuilderName
  workername : WorkerName
  factory : BuildFactory

def builders : List BuilderConfig := [
  ⟨.windows, .windows, win⟩,
  ⟨.macosM1, .macM1, macosM1⟩,
  ⟨.macosModern, .macBigsur, macosModern⟩,
  ⟨.macosLegacy, .macMojave, macosLegacy⟩,
  ⟨.manylinux_x86_64, .manylinux_x86_64, manylinux_x86_64⟩,
  ⟨.ios, .macBigsur, ios⟩,
  ⟨.android, .macMojave, android⟩,
  ⟨.ubuntu_18_04_x86_64, .ubuntu_18_04_x86_64, ubuntu_18_04_x86_64⟩,
  ⟨.ubuntu_18_04_armhf, .ubuntu_18_04_armhf, ubuntu_18_04_armhf⟩,
  ⟨.ubuntu_18_04_arm64, .ubuntu_18_04_arm64, ubuntu_18_04_arm64⟩,
  ⟨.ubuntu_20_04_x86_64, .ubuntu_20_04_x86_64, ubuntu_20_04_x86_64⟩,
  ⟨.ubuntu_21_04_x86_64, .ubuntu_21_04_x86_64, ubuntu_21_04_x86_64⟩,
  ⟨.fedora_35_x86_64, .fedora_35_x86_64, fedora_35_x86_64⟩,
  ⟨.website, .macMojave, website⟩]

def configOf (b : BuilderName) : Option BuilderConfig := builders.find? (·.name == b)

/-- The factory bound to a builder; a name without a configuration would run no step. -/
def factoryOf (b : BuilderName) : BuildFactory :=
  match configOf b with
  | some config => config.factory
  | none => []

def workerOf (b : BuilderName) : Option Worker :=
  (configOf b).bind fun config => workers.find? (·.name == config.workername)

theorem workerOf_isSome (b : BuilderName) : ∃ w ∈ workers, workerOf b = some w := by
  have h : (workerOf b).isSome := by cases b <;> rfl
  obtain ⟨w, hw⟩ := Option.isSome_iff_exists.mp h
  obtain ⟨config, _, hfind⟩ := Option.bind_eq_some_iff.mp hw
  exact ⟨w, List.mem_of_find?_eq_some hfind, hw⟩

def program (b : BuilderName) : List Command := (factoryOf b).flatMap Step.commands

/-- A fresh build of a builder, its commands numbered by their place in the factory. -/
def startBuild (b : BuilderName) : Build Description (Loc × Command) :=
  .enter [] (number (factoryOf b))

theorem commands_startBuild (b : BuilderName) :
    (startBuild b).commands.map Prod.snd = program b := by
  rw [startBuild, Build.commands_enter, number_flatMap_commands, program]

end FridaCI.Master
