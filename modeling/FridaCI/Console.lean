import FridaCI.Bash
import Mathlib.Data.List.TakeWhile

/-!
# The serial console of the sabrelite image

The guest wrapper that run.sh generates prints the status of the payload script in the
console output, behind whatever the script has printed; the loop at the end of run.sh
reads the console line by line until it finds the status.
-/

namespace FridaCI.Sabrelite
open Bash

set_option autoImplicit false

/-- `::set-exit-status ` and the blank behind it, which `exit_pattern` matches in front of the
digits. -/
def exitMarker : Text :=
  [':', ':', 's', 'e', 't', '-', 'e', 'x', 'i', 't', '-', 's', 't', 'a', 't', 'u', 's', ' ']

theorem exitMarker_cons : exitMarker = ':' :: exitMarker.tail := rfl

/-- `[[ "$line" =~ $exit_pattern ]]` with `^::set-exit-status ([[:digit:]]+)$`, and then
`${BASH_REMATCH[1]}`. -/
def exitPattern (line : Text) : Option Text :=
  if exitMarker.isPrefixOf line then
    let digits := line.drop exitMarker.length
    if digits ≠ [] ∧ digits.all Char.isDigit then some digits else none
  else none

/-- The output of `echo "::set-exit-status $?"` at the end of the guest wrapper. -/
def wrapperEcho (n : Nat) : Text := exitMarker ++ Nat.toDigits 10 n ++ ['\n']

/-- A newline arrives on the console as CR LF. -/
def onConsole (output : Text) : Text :=
  output.flatMap fun c => if c = '\n' then ['\r', '\n'] else [c]

/-- `line=$(echo "$line" | tr -d "\r")` -/
def withoutCr (line : Text) : Text := commandSubst (trDelete '\r' (echo line))

/-- The shell exits with a status, leaving part of the console unread, or the loop ends
because `read` has come to the end of the console. -/
inductive LoopEnd where
  | exited (status : Nat) (unread : Text)
  | endOfFile
  deriving DecidableEq, Repr

/-- The loop `while read line; do … done < "$intdir/serial.out"`: what it prints, and how
it ends. -/
def consoleLoop (console : Text) : Text × LoopEnd :=
  match _h : read console with
  | (_, none) => ([], .endOfFile)
  | (line, some rest) =>
    match exitPattern (withoutCr line) with
    | some digits => ([], .exited (exitStatus digits) rest)
    | none => (echo (withoutCr line) ++ (consoleLoop rest).1, (consoleLoop rest).2)
termination_by console.length
decreasing_by all_goals exact read_rest_length _h

/-! ## How a line is read

`line` stands for a line of the output without its newline, so the console shows it with a
carriage return and a newline behind it. -/

def lineCells (line : Text) : Cells := (readCells (line ++ ['\r', '\n'])).1

/-- What the loop makes of a line of the output. -/
def shown (line : Text) : Text :=
  trDelete '\r' (((lineCells line).dropWhile isBlank).map Prod.fst)

@[simp] theorem lineCells_nil : lineCells [] = [('\r', false)] := by decide

@[simp] theorem lineCells_backslash : lineCells ['\\'] = [('\r', true)] := by decide

theorem lineCells_escaped {d : Char} (hd : d ≠ '\n') (t : Text) :
    lineCells ('\\' :: d :: t) = (d, true) :: lineCells t := by
  simp [lineCells, readCells_escaped hd]

theorem lineCells_plain {c : Char} (hc : c ≠ '\\') (hn : c ≠ '\n') (t : Text) :
    lineCells (c :: t) = (c, false) :: lineCells t := by
  simp [lineCells, readCells_plain hc hn]

/-- Induction on a line the way `read` takes it apart. -/
@[elab_as_elim] theorem line_induction {motive : (line : Text) → '\n' ∉ line → Prop}
    (nil : motive [] (by simp)) (backslash : motive ['\\'] (by simp))
    (escaped : ∀ d t (hd : d ≠ '\n') (ht : '\n' ∉ t), motive t ht →
      motive ('\\' :: d :: t) (by simp [hd.symm, ht]))
    (plain : ∀ c t (_ : c ≠ '\\') (hn : c ≠ '\n') (ht : '\n' ∉ t), motive t ht →
      motive (c :: t) (by simp [hn.symm, ht]))
    (line : Text) (h : '\n' ∉ line) : motive line h := by
  induction line using readCells.induct with
  | case1 => exact nil
  | case2 => exact backslash
  | case3 t ih => simp at h
  | case4 d t hd _ _ _ ih =>
    have ht := List.not_mem_of_not_mem_cons (List.not_mem_of_not_mem_cons h)
    exact escaped d t hd ht (ih ht)
  | case5 t => simp at h
  | case6 c t hc hn _ _ _ ih =>
    have ht := List.not_mem_of_not_mem_cons h
    exact plain c t hc hn ht (ih ht)

/-- No line is joined with the next: a backslash at its end falls on the carriage return. -/
theorem readCells_line {line : Text} (h : '\n' ∉ line) (rest : Text) :
    readCells (line ++ '\r' :: '\n' :: rest) = (lineCells line, some rest) := by
  induction line, h using line_induction with
  | nil => simp [readCells_plain]
  | backslash => simp [readCells_escaped]
  | escaped d t hd _ ih =>
    simp only [List.cons_append, readCells_escaped hd, lineCells_escaped hd, ih]
  | plain c t hc hn _ ih =>
    simp only [List.cons_append, readCells_plain hc hn, lineCells_plain hc hn, ih]

/-- The last cell is the carriage return, so nothing is trimmed at the end of a line. -/
theorem lineCells_concat {line : Text} (h : '\n' ∉ line) :
    ∃ front escaped, lineCells line = front ++ [('\r', escaped)] := by
  induction line, h using line_induction with
  | nil => exact ⟨[], false, by simp⟩
  | backslash => exact ⟨[], true, by simp⟩
  | escaped d t hd _ ih =>
    obtain ⟨front, escaped, heq⟩ := ih
    exact ⟨(d, true) :: front, escaped, by rw [lineCells_escaped hd, heq, List.cons_append]⟩
  | plain c t hc hn _ ih =>
    obtain ⟨front, escaped, heq⟩ := ih
    exact ⟨(c, false) :: front, escaped, by rw [lineCells_plain hc hn, heq, List.cons_append]⟩

theorem lineCells_no_newline {line : Text} (h : '\n' ∉ line) :
    ∀ x ∈ lineCells line, x.1 ≠ '\n' := by
  induction line, h using line_induction with
  | nil => simp
  | backslash => simp
  | escaped d t hd _ ih =>
    rw [lineCells_escaped hd]
    intro x hx
    rcases List.mem_cons.mp hx with rfl | hx
    · exact hd
    · exact ih x hx
  | plain c t hc hn _ ih =>
    rw [lineCells_plain hc hn]
    intro x hx
    rcases List.mem_cons.mp hx with rfl | hx
    · exact hn
    · exact ih x hx

theorem isEchoOption_of_cr (front : Text) : isEchoOption (front ++ ['\r']) = false := by
  unfold isEchoOption
  split
  · next o options heq =>
    have hmem : '\r' ∈ '-' :: o :: options := by
      rw [← heq]
      simp
    have hcr : '\r' ∈ o :: options := by
      rcases List.mem_cons.mp hmem with hcr | hcr
      · exact absurd hcr (by decide)
      · exact hcr
    exact List.all_eq_false.mpr ⟨'\r', hcr, by decide⟩
  · rfl

theorem withoutCr_read {line : Text} (h : '\n' ∉ line) (rest : Text) :
    withoutCr (read (line ++ '\r' :: '\n' :: rest)).1 = shown line := by
  obtain ⟨front, escaped, hcells⟩ := lineCells_concat h
  have hlast : (lineCells line).dropWhile isBlank =
      front.dropWhile isBlank ++ [('\r', escaped)] := by
    rw [hcells, List.dropWhile_append]
    split
    · next hnil =>
      rw [List.isEmpty_iff.mp hnil]
      simp [isBlank]
    · rfl
  have htrim : trim (lineCells line) = front.dropWhile isBlank ++ [('\r', escaped)] := by
    rw [trim, hlast, List.rdropWhile_concat_neg]
    simp [isBlank]
  have hclean : ∀ c ∈ shown line, c ≠ '\n' := by
    intro c hc
    simp only [shown, trDelete, List.mem_filter, List.mem_map] at hc
    obtain ⟨⟨x, hx, rfl⟩, _⟩ := hc
    exact lineCells_no_newline h x ((List.dropWhile_sublist _).subset hx)
  have hecho : echo (read (line ++ '\r' :: '\n' :: rest)).1 =
      ((lineCells line).dropWhile isBlank).map Prod.fst ++ ['\n'] := by
    have hvalue : (read (line ++ '\r' :: '\n' :: rest)).1 =
        (front.dropWhile isBlank).map Prod.fst ++ ['\r'] := by
      simp [Bash.read, readCells_line h, htrim]
    rw [hvalue, echo, isEchoOption_of_cr, hlast]
    simp
  rw [withoutCr, hecho, trDelete, List.filter_append]
  exact commandSubst_echo hclean

theorem exitPattern_iff {line digits : Text} :
    exitPattern line = some digits ↔
      line = exitMarker ++ digits ∧ digits ≠ [] ∧ ∀ c ∈ digits, c.isDigit = true := by
  unfold exitPattern
  constructor
  · intro h
    split at h
    · next hp =>
      have hline := List.prefix_iff_eq_append.mp (List.isPrefixOf_iff_prefix.mp hp)
      simp only [Option.ite_none_right_eq_some, Option.some.injEq] at h
      obtain ⟨⟨hne, hdigits⟩, rfl⟩ := h
      exact ⟨hline.symm, hne, List.all_eq_true.mp hdigits⟩
    · simp at h
  · rintro ⟨rfl, hne, hdigits⟩
    rw [if_pos (List.isPrefixOf_iff_prefix.mpr (List.prefix_append _ _))]
    simp only [List.drop_left]
    rw [if_pos ⟨hne, List.all_eq_true.mpr hdigits⟩]

/-! ## The loop, line by line -/

theorem consoleLoop_next {console line rest : Text}
    (h : Bash.read console = (line, some rest)) :
    consoleLoop console =
      match exitPattern (withoutCr line) with
      | some digits => ([], .exited (exitStatus digits) rest)
      | none => (echo (withoutCr line) ++ (consoleLoop rest).1, (consoleLoop rest).2) := by
  rw [consoleLoop]
  split
  · next heq =>
    rw [h] at heq
    simp at heq
  · next heq =>
    rw [h] at heq
    simp only [Prod.mk.injEq, Option.some.injEq] at heq
    obtain ⟨rfl, rfl⟩ := heq
    rfl

theorem consoleLoop_end {console line : Text} (h : Bash.read console = (line, none)) :
    consoleLoop console = ([], .endOfFile) := by
  rw [consoleLoop]
  split
  · rfl
  · next heq =>
    rw [h] at heq
    simp at heq

@[simp] theorem consoleLoop_nil : consoleLoop [] = ([], .endOfFile) :=
  consoleLoop_end (show Bash.read [] = ([], none) by decide)

theorem consoleLoop_stop {line digits : Text} (h : '\n' ∉ line)
    (hexit : exitPattern (shown line) = some digits) (rest : Text) :
    consoleLoop (line ++ '\r' :: '\n' :: rest) = ([], .exited (exitStatus digits) rest) := by
  have hread : Bash.read (line ++ '\r' :: '\n' :: rest) =
      ((Bash.read (line ++ '\r' :: '\n' :: rest)).1, some rest) := by
    simp [Bash.read, readCells_line h]
  rw [consoleLoop_next hread, withoutCr_read h, hexit]

theorem consoleLoop_pass {line : Text} (h : '\n' ∉ line)
    (hexit : exitPattern (shown line) = none) (rest : Text) :
    consoleLoop (line ++ '\r' :: '\n' :: rest) =
      (echo (shown line) ++ (consoleLoop rest).1, (consoleLoop rest).2) := by
  have hread : Bash.read (line ++ '\r' :: '\n' :: rest) =
      ((Bash.read (line ++ '\r' :: '\n' :: rest)).1, some rest) := by
    simp [Bash.read, readCells_line h]
  rw [consoleLoop_next hread, withoutCr_read h, hexit]

def onConsoleLines (lines : List Text) : Text := lines.flatMap (· ++ ['\r', '\n'])

theorem consoleLoop_pass_lines {lines : List Text} (h : ∀ line ∈ lines, '\n' ∉ line)
    (hexit : ∀ line ∈ lines, exitPattern (shown line) = none) (rest : Text) :
    (consoleLoop (onConsoleLines lines ++ rest)).2 = (consoleLoop rest).2 := by
  induction lines with
  | nil => rfl
  | cons line lines ih =>
    have hrest := ih (fun l hl => h l (.tail _ hl)) (fun l hl => hexit l (.tail _ hl))
    have hsplit : onConsoleLines (line :: lines) ++ rest =
        line ++ '\r' :: '\n' :: (onConsoleLines lines ++ rest) := by
      simp [onConsoleLines]
    rw [hsplit, consoleLoop_pass (h line (.head _)) (hexit line (.head _))]
    exact hrest

theorem exitPattern_of_unread {lines : List Text} (h : ∀ line ∈ lines, '\n' ∉ line)
    {rest : Text} (hne : rest ≠ []) {status : Nat}
    (hloop : (consoleLoop (onConsoleLines lines ++ rest)).2 = .exited status []) :
    ∀ line ∈ lines, exitPattern (shown line) = none := by
  induction lines with
  | nil => simp
  | cons line lines ih =>
    have hsplit : onConsoleLines (line :: lines) ++ rest =
        line ++ '\r' :: '\n' :: (onConsoleLines lines ++ rest) := by
      simp [onConsoleLines]
    rw [hsplit] at hloop
    cases hexit : exitPattern (shown line) with
    | some digits =>
      rw [consoleLoop_stop (h line (.head _)) hexit] at hloop
      injection hloop with _ hunread
      exact absurd (List.append_eq_nil_iff.mp hunread).2 hne
    | none =>
      rw [consoleLoop_pass (h line (.head _)) hexit] at hloop
      intro l hl
      rcases List.mem_cons.mp hl with rfl | hl
      · exact hexit
      · exact ih (fun l hl => h l (.tail _ hl)) hloop l hl

/-! ## The status that the console reports -/

/-- The first line of the console that the loop takes for a marker has the status `n`. -/
inductive Reports : Text → Nat → Prop where
  | here {console line rest digits : Text} (hread : Bash.read console = (line, some rest))
      (hexit : exitPattern (withoutCr line) = some digits) :
      Reports console (Nat.ofDigitChars 10 digits 0)
  | later {console line rest : Text} {n : Nat} (hread : Bash.read console = (line, some rest))
      (hexit : exitPattern (withoutCr line) = none) (h : Reports rest n) : Reports console n

theorem Reports.unique {console : Text} {n m : Nat} (hn : Reports console n)
    (hm : Reports console m) : n = m := by
  induction hn with
  | here hread hexit =>
    cases hm with
    | here hread' hexit' =>
      cases hread.symm.trans hread'
      cases hexit.symm.trans hexit'
      rfl
    | later hread' hexit' _ =>
      cases hread.symm.trans hread'
      cases hexit.symm.trans hexit'
  | later hread hexit _ ih =>
    cases hm with
    | here hread' hexit' =>
      cases hread.symm.trans hread'
      cases hexit.symm.trans hexit'
    | later hread' _ h' =>
      cases hread.symm.trans hread'
      exact ih h'

theorem Reports.consoleLoop {console : Text} {n : Nat} (h : Reports console n) :
    ∃ unread, (consoleLoop console).2 = .exited (exitCode n) unread := by
  induction h with
  | here hread hexit =>
    rw [consoleLoop_next hread, hexit]
    exact ⟨_, rfl⟩
  | later hread hexit _ ih =>
    rw [consoleLoop_next hread, hexit]
    exact ih

theorem reports_or_endOfFile (console : Text) :
    (∃ n, Reports console n) ∨ (consoleLoop console).2 = .endOfFile := by
  induction console using consoleLoop.induct with
  | case1 console line hread => exact Or.inr (by rw [consoleLoop_end hread])
  | case2 console line rest hread digits hexit => exact Or.inl ⟨_, .here hread hexit⟩
  | case3 console line rest hread hexit ih =>
    rcases ih with ⟨n, h⟩ | h
    · exact Or.inl ⟨n, .later hread hexit h⟩
    · rw [consoleLoop_next hread, hexit]
      exact Or.inr h

end FridaCI.Sabrelite
