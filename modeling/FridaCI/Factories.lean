import FridaCI.Commands

/-!
# The build factories of master.cfg

The factories that c['builders'] uses, step by step in the order of their addStep
calls. `rpi32` and `rpi64` are left out: their builders are commented out.
-/

namespace FridaCI.Master
open Buildbot

set_option autoImplicit false

def fridaRepo : String := "https://github.com/frida/frida.git"

def one (c : Command) : CommandLine := joinAnd [c]

def roll (bundle : Bundle) (os : Os) (arch : Arch) : Command := .roll bundle ⟨os, arch⟩ false

def rollActivate (bundle : Bundle) (os : Os) (arch : Arch) : Command := .roll bundle ⟨os, arch⟩ true

def waitSdk (os : Os) (arch : Arch) : Command := .wait .sdk ⟨os, arch⟩

def makeOs (c : Component) (os : Os) (vars : List String) : Command :=
  .make [.component c (.os os)] vars

def makeArch (c : Component) (os : Os) (arch : Arch) (vars : List String) : Command :=
  .make [.component c (.platform ⟨os, arch⟩)] vars

def distclean : Command := .make [.distclean] []

def clean : Command := .make [.clean] []

/-- The three steps of `win` that build frida-qml for one configuration. -/
def winQml (config arch qmake : String) : BuildFactory := [
  fridaVCShellCommand .preparing ("builddir for frida-qml " ++ config) arch [
    ⟨.shell "rmdir /s /q frida-qml 2>nul", .amp⟩,
    ⟨.shell "mkdir frida-qml", .amp⟩,
    ⟨.shell "exit /b 0", .and⟩],
  fridaVCShellCommand .generating ("nmake files for frida-qml " ++ config) arch
    (one (.shell (qmake ++ " ..\\..\\..\\..\\frida-qml"))),
  fridaVCShellCommand .building ("frida-qml " ++ config) arch
    (one (.shell "nmake /f Makefile.Release install"))]

/-- The four steps of `win` that run the tests of one configuration. -/
def winTests (config dir programs : String) : BuildFactory := [
  shellCommand "gum-tests" .testing ("gum for " ++ config)
    (.shell ("build\\tmp-windows\\" ++ dir ++ "\\gum-tests\\gum-tests.exe")),
  shellCommand "frida-core-tests" .testing ("core for " ++ config)
    (.shell ("build\\tmp-windows\\" ++ dir ++ "\\frida-tests\\frida-tests.exe")),
  shellCommand "frida-python2-tests" .testing ("python2 bindings for " ++ config)
    (.shell (programs ++ "\\Python 2.7\\python.exe -m unittest tests.test_core")),
  shellCommand "frida-python3-tests" .testing ("python3 bindings for " ++ config)
    (.shell (programs ++ "\\Python 3.10\\python.exe -m unittest tests.test_core"))]

def win : BuildFactory := [
  git fridaRepo,
  shellCommand "roll-toolchain" .rolling "toolchain" (rollActivate .toolchain .windows .x86),
  shellCommand "roll-sdk" .rolling "sdk" (roll .sdk .windows .any),
  vs2022 "frida.sln" "Release|Win32"] ++
  winTests "Win32" "Win32-Release" "C:\\Program Files (x86)" ++
  winQml "Win32" "x86" "C:\\Qt\\5.15.2\\msvc2019\\bin\\qmake.exe QMAKE_TARGET.arch=x86" ++
  [vs2022 "frida.sln" "Release|x64"] ++
  winTests "x64" "x64-Release" "C:\\Program Files" ++
  winQml "x64" "amd64" "C:\\Qt\\5.15.2\\msvc2019_64\\bin\\qmake.exe QMAKE_TARGET.arch=x86_64" ++
  [shellCommand "release" .releasing "frida for windows" (.release "windows")]

def macosModern : BuildFactory := [
  git fridaRepo,
  fridaCompile .cleaning "build environment" (makeMacBuildCommandLine [distclean]),
  fridaCompile .rolling "dependencies" (makeMacBuildCommandLine [
    rollActivate .toolchain .macos .x86_64,
    roll .toolchain .macos .arm64,
    roll .toolchain .macos .arm64e,
    roll .sdk .macos .x86_64,
    roll .sdk .macos .arm64,
    roll .sdk .macos .arm64e,
    roll .sdk .ios .x86_64,
    roll .sdk .ios .arm64,
    roll .sdk .ios .arm64eoabi,
    roll .sdk .ios .arm64e,
    roll .sdk .android .x86_64,
    waitSdk .android .arm,
    roll .sdk .android .arm64]),
  fridaCompile .cleaning "build environment" (makeMacBuildCommandLine [distclean]),
  fridaCompile .building "core for macos" (makeMacBuildCommandLine [makeOs .core .macos []]),
  fridaCompile .building "gadget for macos" (makeMacBuildCommandLine [makeOs .gadget .macos []]),
  fridaCompile .building "python bindings" (makeMacBuildCommandLine [
    .make [.component .python (.appleSilicon .macos)] ["PYTHON=/usr/local/bin/python3.8"],
    .make [.component .python (.universal .macos)] ["PYTHON=/usr/bin/python2.7"],
    .make [.component .python (.universal .macos)] ["PYTHON=/usr/local/bin/python3.8"]]),
  fridaCompile .building "node bindings" (makeMacBuildCommandLine [
    makeOs .node .macos ["NODE=/usr/local/bin/node"]]),
  fridaShellCommand .building "swift bindings" (makeMacBuildCommandLine [
    .devkit "frida-core" ⟨.macos, .x86_64⟩ "./frida-swift/CFrida/macos-x86_64/",
    .devkit "frida-core" ⟨.macos, .arm64⟩ "./frida-swift/CFrida/macos-arm64/",
    .shell "cd frida-swift/CFrida/",
    .shell "mv macos-x86_64/frida-core.h .",
    .shell "lipo -create macos-x86_64/libfrida-core.a macos-arm64/libfrida-core.a -output libfrida-core.a",
    .shell "rm -rf macos-x86_64 macos-arm64",
    .shell "cd ..",
    .shell "xcodebuild"]),
  fridaShellCommand .testing "gum" (makeMacBuildCommandLine [makeOs .checkGum .macos []]),
  fridaShellCommand .testing "core" (makeMacBuildCommandLine [makeOs .checkCore .macos []]),
  fridaInteractiveShellCommand .testing "python bindings" (makeMacBuildCommandLine [
    makeOs .checkPython .macos ["PYTHON=/usr/bin/python2.7"],
    makeOs .checkPython .macos ["PYTHON=/usr/local/bin/python3.8"]]),
  fridaInteractiveShellCommand .testing "node bindings" (makeMacBuildCommandLine [
    makeOs .checkNode .macos ["NODE=/usr/local/bin/node"]]),
  fridaShellCommand .releasing "frida for macos"
    (makeMacBuildCommandLine [.release "macos-modern"])]

def macosLegacy : BuildFactory := [
  git fridaRepo,
  fridaCompile .cleaning "build environment" (makeMacBuildCommandLine [distclean]),
  fridaCompile .rolling "dependencies" (makeMacBuildCommandLine [
    waitSdk .macos .x86_64,
    rollActivate .toolchain .macos .x86,
    .shell "rm -rf build",
    .shell "export FRIDA_BUILD_ARCH=x86",
    roll .sdk .macos .x86,
    roll .sdk .ios .x86,
    roll .sdk .ios .arm,
    roll .sdk .android .x86,
    roll .sdk .android .arm,
    waitSdk .android .arm64]),
  fridaCompile .cleaning "build environment" (makeMacBuildCommandLine [distclean]),
  fridaCompile .building "core for macos" (makeMacBuildCommandLine [makeOs .core .macos []]),
  fridaShellCommand .qmaking "qml bindings" (joinAnd [
    .shell "rm -rf frida-qml",
    .shell "mkdir frida-qml",
    .shell "cd frida-qml",
    .shell "/Users/frida/Qt/5.15.0/clang_64/bin/qmake QMAKE_TARGET.arch=x86_64 ../../../frida-qml"]),
  fridaShellCommand .building "qml bindings" (makeMacBuildCommandLine [
    .makeIn ⟨.macos, .x86_64⟩ "frida-qml" "install",
    .shell "strip -Sx build/frida-macos-x86_64/lib/qt5/qml/Frida/libfrida-qml.dylib"]),
  fridaShellCommand .testing "gum" (makeMacBuildCommandLine [makeOs .checkGum .macos []]),
  fridaShellCommand .testing "core" (makeMacBuildCommandLine [makeOs .checkCore .macos []]),
  fridaShellCommand .releasing "frida for macos"
    (makeMacBuildCommandLine [.release "macos-legacy"])]

def macosM1 : BuildFactory := [
  git fridaRepo,
  fridaCompile .cleaning "build environment" (makeMacBuildCommandLine [clean]),
  fridaCompile .waiting "for dependencies" (one (waitSdk .macos .arm64e)),
  fridaCompile .building "core for macos" (makeMacBuildCommandLine [makeOs .core .macos []]),
  fridaCompile .building "node bindings" (makeMacBuildCommandLine [
    makeOs .node .macos ["NODE=/usr/local/bin/node"]]),
  fridaShellCommand .testing "gum" (makeMacBuildCommandLine [makeOs .checkGum .macos []]),
  fridaShellCommand .testing "core" (makeMacBuildCommandLine [makeOs .checkCore .macos []]),
  fridaInteractiveShellCommand .testing "node bindings" (makeMacBuildCommandLine [
    makeOs .checkNode .macos ["NODE=/usr/local/bin/node"]]),
  fridaShellCommand .releasing "frida for macos" (makeMacBuildCommandLine [.release "macos-m1"])]

def manylinux_x86_64 : BuildFactory := [
  git fridaRepo,
  fridaCompile .cleaning "build environment" (makeLinuxBuildCommandLine [distclean]),
  fridaCompile .rolling "dependencies" (makeLinuxBuildCommandLine [
    rollActivate .toolchain .linux .x86_64,
    roll .toolchain .linux .x86,
    roll .sdk .linux .x86,
    roll .sdk .linux .x86_64]),
  fridaCompile .cleaning "build environment" (makeLinuxBuildCommandLine [distclean]),
  fridaCompile .building "core" (makeLinuxBuildCommandLine [
    makeArch .core .linux .x86 [],
    makeArch .core .linux .x86_64 []]),
  fridaCompile .building "python bindings" (makeLinuxBuildCommandLine [
    makeArch .python .linux .x86 ["PYTHON=/opt/python-32/cp27-cp27mu/bin/python2.7"],
    makeArch .python .linux .x86 ["PYTHON=/opt/python-32/cp38-cp38/bin/python3.8"],
    makeArch .python .linux .x86_64 ["PYTHON=/opt/python-64/cp27-cp27mu/bin/python2.7"],
    makeArch .python .linux .x86_64 ["PYTHON=/opt/python-64/cp38-cp38/bin/python3.8"]]),
  fridaCompile .building "node bindings" (makeLinuxBuildCommandLine [
    makeArch .node .linux .x86 ["NODE=/opt/node-32/bin/node"],
    makeArch .node .linux .x86_64 ["NODE=/opt/node-64/bin/node"]]),
  fridaShellCommand .testing "gum" (makeLinuxBuildCommandLine [
    makeArch .checkGum .linux .x86 [],
    makeArch .checkGum .linux .x86_64 []]),
  fridaShellCommand .testing "core" (makeLinuxBuildCommandLine [
    makeArch .checkCore .linux .x86 [],
    makeArch .checkCore .linux .x86_64 []]),
  fridaInteractiveShellCommand .testing "python bindings" (makeLinuxBuildCommandLine [
    makeArch .checkPython .linux .x86 ["PYTHON=/opt/python-32/cp27-cp27mu/bin/python2.7"],
    makeArch .checkPython .linux .x86 ["PYTHON=/opt/python-32/cp38-cp38/bin/python3.8"],
    makeArch .checkPython .linux .x86_64 ["PYTHON=/opt/python-64/cp27-cp27mu/bin/python2.7"],
    makeArch .checkPython .linux .x86_64 ["PYTHON=/opt/python-64/cp38-cp38/bin/python3.8"]]),
  fridaInteractiveShellCommand .testing "node bindings" (makeLinuxBuildCommandLine [
    makeArch .checkNode .linux .x86 ["NODE=/opt/node-32/bin/node"],
    makeArch .checkNode .linux .x86_64 ["NODE=/opt/node-64/bin/node"]]),
  fridaShellCommand .releasing "frida for linux-x86"
    (makeLinuxBuildCommandLine [.release "manylinux-x86_64"])]

def ios : BuildFactory := [
  git fridaRepo,
  fridaCompile .cleaning "build environment" (makeMacBuildCommandLine [clean]),
  fridaCompile .waiting "for dependencies" (one (waitSdk .ios .arm64e)),
  fridaCompile .building "core for ios" (makeMacBuildCommandLine [makeOs .core .ios []]),
  fridaCompile .building "gadget for ios" (makeMacBuildCommandLine [makeOs .gadget .ios []]),
  fridaCompile .building ".deb for ios" (makeMacBuildCommandLine [makeOs .deb .ios []]),
  fridaShellCommand .releasing "frida for ios" (makeMacBuildCommandLine [.release "ios"])]

def android : BuildFactory := [
  git fridaRepo,
  fridaCompile .cleaning "build environment" (makeMacBuildCommandLine [clean]),
  fridaCompile .waiting "for dependencies" (one (waitSdk .android .arm64)),
  fridaCompile .building "core" (one (.make [
    .component .core (.platform ⟨.android, .x86⟩),
    .component .core (.platform ⟨.android, .x86_64⟩),
    .component .core (.platform ⟨.android, .arm⟩),
    .component .core (.platform ⟨.android, .arm64⟩)] [])),
  fridaCompile .building "python bindings" (one (.make
    [.tmp ⟨.android, .arm64⟩ "frida-python3.8/.frida-stamp"] ["PYTHON_NAME=python3.8",
      "PYTHON_INCDIR=$(/usr/local/bin/python3.8 -c 'from distutils import sysconfig; " ++
        "import sys; sys.stdout.write(sysconfig.get_python_inc())')"])),
  fridaShellCommand .releasing "frida for android" (makeMacBuildCommandLine [.release "android"])]

def ubuntu_18_04_x86_64 : BuildFactory := [
  git fridaRepo,
  fridaCompile .cleaning "build environment" (one distclean),
  fridaCompile .rolling "dependencies" (makeLinuxBuildCommandLine [
    .shell "export PATH=/opt/python/bin:$PATH",
    .under "python3.8" (rollActivate .toolchain .linux .arm64),
    .under "python3.8" (roll .toolchain .linux .armhf),
    .shell "make -f Makefile.sdk.mk build/fs-env-linux-armhf.rc build/fs-env-linux-arm64.rc",
    .shell ("sed -i -e 's,\\[properties\\],[properties]\\nneeds_exe_wrapper = false,' " ++
      "build/fs-linux-armhf.txt"),
    .shell ("sed -i -e 's,\\[properties\\],[properties]\\nneeds_exe_wrapper = false,' " ++
      "build/fs-linux-arm64.txt"),
    .under "QEMU_LD_PREFIX=/usr/arm-linux-gnueabihf python3.8" (roll .sdk .linux .armhf),
    .under "QEMU_LD_PREFIX=/usr/aarch64-linux-gnu python3.8" (roll .sdk .linux .arm64)]),
  fridaCompile .building "core" (one (.make [
    .component .core (.platform ⟨.linux, .armhf⟩),
    .component .core (.platform ⟨.linux, .arm64⟩)] [])),
  fridaShellCommand .releasing "frida"
    (makeLinuxBuildCommandLine [.under "python3.8" (.release "ubuntu_18_04-x86_64")])]

def ubuntu_18_04_armhf : BuildFactory := [
  git fridaRepo,
  fridaCompile .cleaning "build environment" (one clean),
  fridaCompile .waiting "for dependencies" (one (.under "python3.8" (waitSdk .linux .armhf))),
  fridaCompile .building "python bindings" (makeLinuxBuildCommandLine [
    makeArch .python .linux .armhf ["PYTHON=/usr/bin/python2.7"],
    makeArch .python .linux .armhf ["PYTHON=/usr/bin/python3.6"]]),
  fridaShellCommand .releasing "frida"
    (makeLinuxBuildCommandLine [.under "python3.8" (.release "ubuntu_18_04-armhf")])]

def ubuntu_18_04_arm64 : BuildFactory := [
  git fridaRepo,
  fridaCompile .cleaning "build environment" (one clean),
  fridaCompile .waiting "for dependencies" (one (.under "python3.8" (waitSdk .linux .arm64))),
  fridaCompile .building "python bindings" (makeLinuxBuildCommandLine [
    makeArch .python .linux .arm64 ["PYTHON=/usr/bin/python2.7"],
    makeArch .python .linux .arm64 ["PYTHON=/usr/bin/python3.6"]]),
  fridaShellCommand .releasing "frida"
    (makeLinuxBuildCommandLine [.under "python3.8" (.release "ubuntu_18_04-arm64")])]

def ubuntu_20_04_x86_64 : BuildFactory := [
  git fridaRepo,
  fridaCompile .cleaning "build environment" (one clean),
  fridaCompile .waiting "for dependencies" (one (waitSdk .linux .x86_64)),
  fridaCompile .building "python bindings" (one (.under "LD=/usr/bin/ld.gold"
    (makeArch .python .linux .x86_64 ["PYTHON=/usr/bin/python3.8"]))),
  fridaShellCommand .qmaking "qml bindings" (joinAnd [
    .shell "rm -rf frida-qml",
    .shell "mkdir frida-qml",
    .shell "cd frida-qml",
    .shell "/opt/qt/bin/qmake ../../../frida-qml"]),
  fridaShellCommand .building "qml bindings" (makeMacBuildCommandLine [
    .makeIn ⟨.linux, .x86_64⟩ "frida-qml" "install",
    .shell "strip --strip-all build/frida-linux-x86_64/lib/qt5/qml/Frida/libfrida-qml.so"]),
  fridaInteractiveShellCommand .testing "python bindings"
    (one (makeArch .checkPython .linux .x86_64 ["PYTHON=/usr/bin/python3.8"])),
  fridaShellCommand .releasing "frida for ubuntu" (one (.release "ubuntu_20_04-x86_64"))]

def ubuntu_21_04_x86_64 : BuildFactory := [
  git fridaRepo,
  fridaCompile .cleaning "build environment" (one clean),
  fridaCompile .waiting "for dependencies" (one (waitSdk .linux .x86_64)),
  fridaCompile .building "python bindings" (one (.under "LD=/usr/bin/ld.gold"
    (makeArch .python .linux .x86_64 ["PYTHON=/usr/bin/python3.9"]))),
  fridaInteractiveShellCommand .testing "python bindings"
    (one (makeArch .checkPython .linux .x86_64 ["PYTHON=/usr/bin/python3.9"])),
  fridaShellCommand .releasing "frida for ubuntu" (one (.release "ubuntu_21_04-x86_64"))]

def fedora_35_x86_64 : BuildFactory := [
  git fridaRepo,
  fridaCompile .cleaning "build environment" (one clean),
  fridaCompile .waiting "for dependencies" (one (waitSdk .linux .x86_64)),
  fridaCompile .building "python bindings" (one (.under "LD=/usr/bin/ld.gold"
    (makeArch .python .linux .x86_64 ["PYTHON=/usr/bin/python3.10"]))),
  fridaInteractiveShellCommand .testing "python bindings"
    (one (makeArch .checkPython .linux .x86_64 ["PYTHON=/usr/bin/python3.10"])),
  fridaShellCommand .releasing "frida for fedora" (one (.release "fedora_35-x86_64"))]

def website : BuildFactory := [
  git "https://github.com/frida/frida-website.git",
  fridaShellCommand .updating "website" (makeMacBuildCommandLine [
    .shell "git clean -xffd",
    .shell "/usr/local/opt/ruby/bin/bundle exec jekyll build",
    .shell "./_releng/deploy.py"])]

end FridaCI.Master
