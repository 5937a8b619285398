import Mathlib.Algebra.Group.Nat.Defs
import Mathlib.Data.List.DropRight
import Mathlib.Data.Nat.Init

/-!
# Pieces of bash

The builtins `read` (without -r), `echo` and `exit`, command substitution and
`tr -d`, as functions on texts. IFS has its default value. A text holds no NUL.
-/

namespace FridaCI.Bash

set_option autoImplicit false

abbrev Text := List Char

/-! ## read -/

/-- The characters that `read` takes from a line, each with whether a backslash stood in
front of it. -/
abbrev Cells := List (Char × Bool)

/-- The cells of the first line and the text after its newline, `none` at end of file. A
backslash is removed and keeps the next character as it is; with a newline after it, both
vanish and the line goes on. -/
def readCells : Text → Cells × Option Text
  | [] => ([], none)
  | c :: s =>
    if c = '\\' then
      match s with
      | [] => ([], none)
      | d :: s' =>
        if d = '\n' then readCells s'
        else
          let (cells, rest) := readCells s'
          ((d, true) :: cells, rest)
    else if c = '\n' then ([], some s)
    else
      let (cells, rest) := readCells s
      ((c, false) :: cells, rest)

def isBlank (x : Char × Bool) : Bool :=
  !x.2 && (x.1 == ' ' || x.1 == '\t' || x.1 == '\n')

def trim (cells : Cells) : Cells := (cells.dropWhile isBlank).rdropWhile isBlank

/-- `read line`: the value of `line` and what is left of the input; without a newline `read`
fails and nothing is left. -/
def read (input : Text) : Text × Option Text :=
  ((trim (readCells input).1).map Prod.fst, (readCells input).2)

@[simp] theorem readCells_newline (s : Text) : readCells ('\n' :: s) = ([], some s) := by
  rw [readCells.eq_def]
  simp

theorem readCells_plain {c : Char} (hc : c ≠ '\\') (hn : c ≠ '\n') (s : Text) :
    readCells (c :: s) = ((c, false) :: (readCells s).1, (readCells s).2) := by
  rw [readCells.eq_def]
  simp [hc, hn]

theorem readCells_escaped {d : Char} (hd : d ≠ '\n') (s : Text) :
    readCells ('\\' :: d :: s) = ((d, true) :: (readCells s).1, (readCells s).2) := by
  rw [readCells.eq_def]
  simp [hd]

theorem readCells_rest_length {input rest : Text} (h : (readCells input).2 = some rest) :
    rest.length < input.length := by
  induction input using readCells.induct with
  | case1 => simp [readCells] at h
  | case2 => simp [readCells] at h
  | case3 s' ih =>
    have := ih (by simpa [readCells] using h)
    simp only [List.length_cons]
    omega
  | case4 d s' hd _ _ _ ih =>
    rw [readCells_escaped hd] at h
    have := ih h
    simp only [List.length_cons]
    omega
  | case5 s =>
    rw [readCells_newline] at h
    obtain rfl := Option.some.inj h
    simp
  | case6 c s hc hn _ _ _ ih =>
    rw [readCells_plain hc hn] at h
    have := ih h
    simp only [List.length_cons]
    omega

theorem read_rest_length {input line rest : Text} (h : read input = (line, some rest)) :
    rest.length < input.length :=
  readCells_rest_length (congrArg Prod.snd h)

/-! ## echo, tr, command substitution, exit -/

/-- `echo` takes an argument such as `-n` or `-neE` as options. -/
def isEchoOption : Text → Bool
  | '-' :: o :: options => (o :: options).all fun c => c == 'n' || c == 'e' || c == 'E'
  | _ => false

def echo (arg : Text) : Text :=
  if isEchoOption arg then
    if arg.contains 'n' then [] else ['\n']
  else arg ++ ['\n']

def trDelete (c : Char) (input : Text) : Text := input.filter (· != c)

def commandSubst (output : Text) : Text := output.rdropWhile (· == '\n')

@[simp] theorem trDelete_cons_self (c : Char) (t : Text) : trDelete c (c :: t) = trDelete c t := by
  simp [trDelete]

theorem trDelete_cons_of_ne {c d : Char} (h : d ≠ c) (t : Text) :
    trDelete c (d :: t) = d :: trDelete c t := by
  simp [trDelete, h]

/-- The status that `exit n` leaves: the value modulo 256, or 2 when it is no `intmax_t`. -/
def exitCode (n : Nat) : Nat := if n < 2 ^ 63 then n % 256 else 2

def exitStatus (word : Text) : Nat := exitCode (Nat.ofDigitChars 10 word 0)

theorem exitCode_eq_iff {n : Nat} : exitCode n = n ↔ n < 256 := by
  unfold exitCode
  split <;> omega

theorem exitStatus_toDigits {n : Nat} (h : n < 256) : exitStatus (Nat.toDigits 10 n) = n := by
  rw [exitStatus, Nat.ofDigitChars_toDigits (by decide) (by decide)]
  exact exitCode_eq_iff.mpr h

theorem commandSubst_echo {t : Text} (ht : ∀ c ∈ t, c ≠ '\n') :
    commandSubst (t ++ ['\n']) = t := by
  rw [commandSubst, List.rdropWhile_concat_pos _ _ _ (by simp), List.rdropWhile_eq_self_iff]
  intro hne
  simpa using ht _ (List.getLast_mem hne)

end FridaCI.Bash
