import FridaCI.Buildbot

/-!
# The commands and the step helpers of master.cfg

A command keeps the words of its text that decide what it does to the packages or
names a platform; every other command is its text. `releng/deps.py`, `make`,
`releng/devkit.py` and `releng/release.py` are programs of another repository, so
only what they are asked to do is recorded here.
-/

namespace FridaCI.Master
open Buildbot

set_option autoImplicit false

inductive Os where
  | windows | macos | linux | ios | android
  deriving DecidableEq, Repr

inductive Arch where
  | x86 | x86_64 | arm | arm64 | arm64e | arm64eoabi | armhf | any
  deriving DecidableEq, Repr

structure Platform where
  os : Os
  arch : Arch
  deriving DecidableEq, Repr

inductive Bundle where
  | toolchain | sdk
  deriving DecidableEq, Repr

/-- What `releng/deps.py` rolls and waits for. -/
structure Package where
  bundle : Bundle
  platform : Platform
  deriving DecidableEq, Repr

abbrev sdk (p : Platform) : Package := ⟨.sdk, p⟩

inductive Component where
  | core | gadget | python | node | deb | checkGum | checkCore | checkPython | checkNode
  deriving DecidableEq, Repr

/-- What follows the component in a make target: `core-linux-x86`, `core-macos`,
`python-macos-apple_silicon`, `python-macos-universal`. The last two are no
architectures and have no package of their own. -/
inductive Scope where
  | platform (p : Platform)
  | os (os : Os)
  | appleSilicon (os : Os)
  | universal (os : Os)
  deriving DecidableEq, Repr

inductive MakeTarget where
  | distclean
  | clean
  | component (c : Component) (scope : Scope)
  /-- `build/tmp-<platform>/<path>` -/
  | tmp (p : Platform) (path : String)
  deriving DecidableEq, Repr

inductive Command where
  | gitCheckout (repourl : String)
  | roll (bundle : Bundle) (p : Platform) (activate : Bool)
  | wait (bundle : Bundle) (p : Platform)
  | make (targets : List MakeTarget) (vars : List String)
  /-- `make -C build/tmp-<platform>/<dir> <target>` -/
  | makeIn (p : Platform) (dir target : String)
  | devkit (kit : String) (p : Platform) (outdir : String)
  | release (name : String)
  | msbuild (projectfile config : String)
  | shell (text : String)
  /-- A command behind variable assignments or an interpreter: `python3.8 releng/deps.py …` -/
  | under (words : String) (c : Command)
  deriving DecidableEq, Repr

namespace Command

def rolls : Command → Option Package
  | .roll bundle p _ => some ⟨bundle, p⟩
  | .under _ c => c.rolls
  | _ => none

def waitsFor : Command → Option Package
  | .wait bundle p => some ⟨bundle, p⟩
  | .under _ c => c.waitsFor
  | _ => none

def isRelease : Command → Bool
  | .release _ => true
  | .under _ c => c.isRelease
  | _ => false

end Command

def MakeTarget.consumes : MakeTarget → Option Platform
  | .component _ (.platform p) => some p
  | .tmp p _ => some p
  | _ => none

/-- The platforms that the command names explicitly and whose SDK it builds against. -/
def Command.consumes : Command → List Platform
  | .make targets _ => targets.filterMap MakeTarget.consumes
  | .makeIn p _ _ => [p]
  | .devkit _ p _ => [p]
  | .under _ c => c.consumes
  | _ => []

theorem Command.rolls_eq_none_of_waitsFor {c : Command} {p : Package}
    (h : c.waitsFor = some p) : c.rolls = none := by
  induction c with
  | under _ c ih => exact ih h
  | _ => simp_all [waitsFor, rolls]

/-! ## Steps -/

/-- The first word of a step's description; a Git step has none of its own. -/
inductive Activity where
  | checkingOut | cleaning | rolling | waiting | compiling | building | preparing
  | generating | qmaking | testing | releasing | updating
  deriving DecidableEq, Repr

def Activity.description : Activity → String
  | .checkingOut => "checking out"
  | .cleaning => "cleaning"
  | .rolling => "rolling"
  | .waiting => "waiting"
  | .compiling => "compiling"
  | .building => "building"
  | .preparing => "preparing"
  | .generating => "generating"
  | .qmaking => "qmaking"
  | .testing => "testing"
  | .releasing => "releasing"
  | .updating => "updating"

def Activity.descriptionDone : Activity → String
  | .checkingOut => "check out"
  | .cleaning => "clean"
  | .rolling => "roll"
  | .waiting => "wait"
  | .compiling => "compile"
  | .building => "build"
  | .preparing => "prepare"
  | .generating => "generate"
  | .qmaking => "qmake"
  | .testing => "test"
  | .releasing => "release"
  | .updating => "update"

/-- `description` and `descriptionDone` of a step are its activity followed by the subject. -/
structure Description where
  name : String
  activity : Activity
  subject : String
  deriving DecidableEq, Repr

def Description.description (d : Description) : String :=
  d.activity.description ++ " " ++ d.subject

def Description.descriptionDone (d : Description) : String :=
  d.activity.descriptionDone ++ " " ++ d.subject

abbrev BuildStep := Step Description Command
abbrev BuildFactory := List BuildStep
abbrev CommandLine := List (Link Command)

def joinAnd (commands : List Command) : CommandLine := commands.map (⟨·, .and⟩)

def makeMacBuildCommandLine (commands : List Command) : CommandLine := joinAnd commands

def makeLinuxBuildCommandLine (commands : List Command) : CommandLine := joinAnd commands

/-- The name that the helpers below give a step, `descriptionDone.split(" ")[0]`. -/
def describe (activity : Activity) (subject : String) : Description :=
  ⟨activity.descriptionDone, activity, subject⟩

def fridaShellCommand (activity : Activity) (subject : String)
    (command : CommandLine) : BuildStep :=
  ⟨.shellCommand, describe activity subject, command⟩

/-- As `fridaShellCommand`, with `usePTY` set. -/
def fridaInteractiveShellCommand (activity : Activity) (subject : String)
    (command : CommandLine) : BuildStep :=
  ⟨.shellCommand, describe activity subject, command⟩

def fridaVCShellCommand (activity : Activity) (subject arch : String)
    (command : CommandLine) : BuildStep :=
  ⟨.shellCommand, describe activity subject,
    joinAnd [.shell "set \"VSCMD_START_DIR=%CD%\"",
      .shell ("\"C:\\Program Files\\Microsoft Visual Studio\\2022\\Community" ++
        "\\VC\\Auxiliary\\Build\\vcvarsall.bat\" " ++ arch)] ++ command⟩

def fridaCompile (activity : Activity) (subject : String) (command : CommandLine) : BuildStep :=
  ⟨.compile, describe activity subject, command⟩

/-- `steps.ShellCommand` with the words of one command and a name of its own. -/
def shellCommand (name : String) (activity : Activity) (subject : String)
    (command : Command) : BuildStep :=
  ⟨.shellCommand, ⟨name, activity, subject⟩, joinAnd [command]⟩

def git (repourl : String) : BuildStep :=
  ⟨.git, ⟨"git", .checkingOut, repourl⟩, joinAnd [.gitCheckout repourl]⟩

/-- `VS2022(installdir=vsdir, mode='rebuild', …)` -/
def vs2022 (projectfile config : String) : BuildStep :=
  ⟨.vs2022, ⟨"compile", .compiling, config⟩, joinAnd [.msbuild projectfile config]⟩

end FridaCI.Master
