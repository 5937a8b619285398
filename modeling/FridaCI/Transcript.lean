import FridaCI.Framing
import FridaCI.RunSh

/-!
# What run.sh prints

The loop over the console prints each line again, but not as it was: `read` without -r
takes away leading blanks and backslashes, `tr` the carriage returns, and `echo` takes
some lines for options. This module says what is printed of an output, and which outputs
come through as they are.
-/

namespace FridaCI.Sabrelite
open Bash Errexit

set_option autoImplicit false

def transcript (lines : List Text) : Text := lines.flatMap fun line => echo (shown line)

theorem consoleLoop_transcript {lines : List Text} (h : ∀ line ∈ lines, '\n' ∉ line)
    (hexit : ∀ line ∈ lines, exitPattern (shown line) = none) (rest : Text) :
    (consoleLoop (onConsoleLines lines ++ rest)).1 =
      transcript lines ++ (consoleLoop rest).1 := by
  induction lines with
  | nil => rfl
  | cons line lines ih =>
    have hrest := ih (fun l hl => h l (.tail _ hl)) (fun l hl => hexit l (.tail _ hl))
    have hsplit : onConsoleLines (line :: lines) ++ rest =
        line ++ '\r' :: '\n' :: (onConsoleLines lines ++ rest) := by
      simp [onConsoleLines]
    rw [hsplit, consoleLoop_pass (h line (.head _)) (hexit line (.head _)), hrest]
    simp [transcript, List.append_assoc]

/-- Whatever comes behind the line of the wrapper stays unread. -/
theorem consoleLoop_output {output : Text} {n : Nat} (hn : n < 256)
    (hout : Unmistakable output) (later : Text) :
    consoleLoop (onConsole (output ++ wrapperEcho n) ++ later) =
      (transcript (splitLines output).1, .exited n later) := by
  obtain ⟨hpass, hempty⟩ := (unmistakable_iff output).mp hout
  obtain ⟨_, hlines, hrest⟩ := splitLines_spec output
  have hplain := wrapperLine_plain n
  have hmarker : '\n' ∉ exitMarker ++ Nat.toDigits 10 n := fun hmem => (hplain _ hmem).1 rfl
  have hline : '\n' ∉ (splitLines output).2 ++ (exitMarker ++ Nat.toDigits 10 n) := by
    rw [List.mem_append]
    exact not_or.mpr ⟨hrest, hmarker⟩
  have hshown : shown ((splitLines output).2 ++ (exitMarker ++ Nat.toDigits 10 n)) =
      exitMarker ++ Nat.toDigits 10 n := by
    rw [shown_append hrest hmarker (fun c hc => (hplain c hc).2)
      (by rw [exitMarker_cons, List.cons_append]) (by decide), hempty, List.nil_append]
  have hexit : exitPattern (shown ((splitLines output).2 ++
      (exitMarker ++ Nat.toDigits 10 n))) = some (Nat.toDigits 10 n) := by
    rw [hshown]
    exact exitPattern_iff.mpr ⟨rfl, Nat.toDigits_ne_nil,
      fun c hc => Nat.isDigit_of_mem_toDigits (by decide) (by decide) hc⟩
  have hstop := consoleLoop_stop hline hexit later
  rw [exitStatus_toDigits hn] at hstop
  have hconsole : onConsole (output ++ wrapperEcho n) ++ later =
      onConsoleLines (splitLines output).1 ++ ((splitLines output).2 ++
        (exitMarker ++ Nat.toDigits 10 n) ++ '\r' :: '\n' :: later) := by
    rw [onConsole_output]
    simp only [List.append_assoc, List.cons_append, List.nil_append]
  rw [hconsole]
  apply Prod.ext
  · rw [consoleLoop_transcript hlines hpass, hstop, List.append_nil]
  · rw [consoleLoop_pass_lines hlines hpass, hstop]

/-! ## The whole script -/

theorem keeps_printed_cleanup (t : Text) :
    Triple true (fun m => m.printed = t) cleanup (fun _ m => m.printed = t)
      (fun _ m => m.printed = t) := by
  refine Triple.newline (R := fun m => m.printed = t) ?_ ?_
  · refine Triple.and (R := fun m => m.printed = t) ?_ ?_
    · apply Triple.command
      · intro m hm _
        simpa using hm
      · intro m hm hfail
        simpa [hfail] using hm
    · apply Triple.command
      · intro m hm _
        split <;> exact hm
      · intro m hm _
        simp only [if_true]
        split <;> exact hm
  · exact Triple.command_zero fun m hm => hm

theorem script_prints {r : Run} (h : r.failure = none) :
    Triple true (fun m => m = .start) (script r)
      (fun _ m => m.printed = (consoleLoop r.console).1)
      (fun _ m => m.printed = (consoleLoop r.console).1) := by
  refine Triple.lines ?_ ?_
  · intro c hc
    obtain ⟨command, _, rfl⟩ := List.mem_map.mp hc
    refine setUp_passes fun f hf => ?_
    rw [h] at hf
    cases hf
  · refine Triple.newline (R := fun m => m.printed = []) (Triple.command_zero ?_) ?_
    · rintro m rfl
      rfl
    · refine Triple.newline (R := fun m => m.printed = [])
        (Triple.command_zero fun m hm => hm) ?_
      apply Triple.compound
      intro m hm
      dsimp only
      rw [hm, List.nil_append]
      cases (consoleLoop r.console).2 with
      | exited status unread => exact rfl
      | endOfFile => exact rfl

theorem runSh_printed {r : Run} (h : r.failure = none) :
    (runSh r).2.printed = (consoleLoop r.console).1 :=
  shell_satisfies (T := fun _ m => m.printed = (consoleLoop r.console).1) (script_prints h)
    (fun _ => keeps_printed_cleanup _) rfl

/-- A run in which the set-up succeeds and the payload script prints `output` and ends with
status `n`, while QEMU runs on. -/
structure Completed (r : Run) (output : Text) (n : Nat) : Prop where
  failure : r.failure = none
  qemuAlive : r.qemuAlive = true
  status_lt : n < 256
  console : ∃ later, r.console = onConsole (output ++ wrapperEcho n) ++ later
  unmistakable : Unmistakable output

def okOutput : Text := ['o', 'k', '\n']

/-- The payload script prints one line and succeeds. -/
def okRun : Run where
  failure := none
  pid := 1
  pid_ne := Nat.one_ne_zero
  console := onConsole (okOutput ++ wrapperEcho 0)
  qemuAlive := true

theorem completed_okRun : Completed okRun okOutput 0 where
  failure := rfl
  qemuAlive := rfl
  status_lt := by decide
  console := ⟨[], (List.append_nil _).symm⟩
  unmistakable := (unmistakable_iff okOutput).mpr (by decide)

theorem Spells.sublist {t m : Text} (h : Spells t m) : m.Sublist t := by
  induction h with
  | nil => exact .slnil
  | plain _ _ _ ih => exact ih.cons_cons _
  | cr _ ih => exact ih.cons _
  | escaped _ _ ih => exact (ih.cons_cons _).cons _
  | escapedCr _ ih => exact (ih.cons _).cons _
  | lastBackslash => exact List.nil_sublist _

theorem Spells.eq_self {t m : Text} (h : Spells t m) (heq : m.length = t.length) :
    ∀ c ∈ t, c ≠ '\\' ∧ c ≠ '\r' := by
  induction h with
  | nil => simp
  | plain hc hcr _ ih =>
    intro d hd
    rcases List.mem_cons.mp hd with rfl | hd
    · exact ⟨hc, hcr⟩
    · exact ih (by simpa using heq) d hd
  | cr h =>
    have := h.sublist.length_le
    simp only [List.length_cons] at heq
    omega
  | escaped _ h =>
    have := h.sublist.length_le
    simp only [List.length_cons] at heq
    omega
  | escapedCr h =>
    have := h.sublist.length_le
    simp only [List.length_cons] at heq
    omega
  | lastBackslash => simp at heq

/-- The line holds no backslash and no carriage return, starts with no blank, and is no
option of `echo`. -/
structure Verbatim (line : Text) : Prop where
  plain : ∀ c ∈ line, c ≠ '\\' ∧ c ≠ '\r'
  first : ∀ c ∈ line.head?, c ≠ ' ' ∧ c ≠ '\t'
  option : isEchoOption line = false

theorem shown_sublist {line : Text} (h : '\n' ∉ line) : (shown line).Sublist line :=
  (spells_shown h).sublist.trans (List.dropWhile_sublist _)

theorem shown_eq_self_iff {line : Text} (h : '\n' ∉ line) :
    shown line = line ↔
      (∀ c ∈ line, c ≠ '\\' ∧ c ≠ '\r') ∧ ∀ c ∈ line.head?, c ≠ ' ' ∧ c ≠ '\t' := by
  have hspells := spells_shown h
  constructor
  · intro heq
    have hdrop : line.dropWhile isSpaceOrTab = line := by
      have hle := hspells.sublist.length_le
      rw [heq] at hle
      exact (List.dropWhile_sublist _).eq_of_length_le hle
    rw [hdrop, heq] at hspells
    refine ⟨hspells.eq_self rfl, ?_⟩
    intro c hc
    obtain ⟨t, rfl⟩ := List.head?_eq_some_iff.mp hc
    have hblank : isSpaceOrTab c ≠ true := by
      intro hblank
      have hle := (List.dropWhile_sublist (l := t) isSpaceOrTab).length_le
      rw [List.dropWhile_cons_of_pos hblank] at hdrop
      rw [hdrop] at hle
      simp only [List.length_cons] at hle
      omega
    refine ⟨?_, ?_⟩ <;> rintro rfl <;> exact hblank (by decide)
  · rintro ⟨hplain, hfirst⟩
    have hdrop : line.dropWhile isSpaceOrTab = line := by
      cases line with
      | nil => rfl
      | cons c t =>
        obtain ⟨hspace, htab⟩ := hfirst c rfl
        exact List.dropWhile_cons_of_neg (by simp [isSpaceOrTab, hspace, htab])
    rw [hdrop] at hspells
    exact hspells.unique h (.refl hplain)

theorem echo_length_le (arg : Text) : (echo arg).length ≤ arg.length + 1 := by
  unfold echo
  split
  · split <;> simp
  · simp

theorem echo_shown_eq_iff {line : Text} (h : '\n' ∉ line) :
    echo (shown line) = line ++ ['\n'] ↔ Verbatim line := by
  constructor
  · intro heq
    have hsub := shown_sublist h
    have hlength : line.length ≤ (shown line).length := by
      have hle := echo_length_le (shown line)
      rw [heq] at hle
      simpa using hle
    have hself := hsub.eq_of_length_le hlength
    obtain ⟨hplain, hfirst⟩ := (shown_eq_self_iff h).mp hself
    refine ⟨hplain, hfirst, ?_⟩
    cases hopt : isEchoOption line with
    | false => rfl
    | true =>
      rw [hself, echo, if_pos hopt] at heq
      have hnil : line = [] := by
        have hlen := congrArg List.length heq
        split at hlen
        · simp at hlen
        · simpa using hlen.symm
      rw [hnil] at hopt
      exact absurd hopt (by decide)
  · rintro ⟨hplain, hfirst, hopt⟩
    rw [(shown_eq_self_iff h).mpr ⟨hplain, hfirst⟩, echo, hopt, if_neg (by decide)]

theorem length_flatMap_le {α : Type} {f g : α → Text} {l : List α}
    (h : ∀ x ∈ l, (f x).length ≤ (g x).length) :
    (l.flatMap f).length ≤ (l.flatMap g).length := by
  induction l with
  | nil => exact Nat.le_refl _
  | cons a l ih =>
    have ha := h a (.head _)
    have hl := ih fun x hx => h x (.tail _ hx)
    rw [List.flatMap_cons, List.flatMap_cons, List.length_append, List.length_append]
    omega

/-- Two ways to write the entries of a list, one of them never longer than the other, give
the same text only if they agree on every entry. -/
theorem flatMap_eq_iff {α : Type} {f g : α → Text} {l : List α}
    (h : ∀ x ∈ l, (f x).length ≤ (g x).length) :
    l.flatMap f = l.flatMap g ↔ ∀ x ∈ l, f x = g x := by
  induction l with
  | nil => simp
  | cons a l ih =>
    have htail : ∀ x ∈ l, (f x).length ≤ (g x).length := fun x hx => h x (.tail _ hx)
    have hle := length_flatMap_le htail
    constructor
    · intro heq
      rw [List.flatMap_cons, List.flatMap_cons] at heq
      have hlength : (f a).length = (g a).length := by
        have hsum := congrArg List.length heq
        have ha := h a (.head _)
        rw [List.length_append, List.length_append] at hsum
        omega
      obtain ⟨ha, hl⟩ := List.append_inj heq hlength
      intro x hx
      rcases List.mem_cons.mp hx with rfl | hx
      · exact ha
      · exact (ih htail).mp hl x hx
    · intro hall
      rw [List.flatMap_cons, List.flatMap_cons, hall a (.head _),
        (ih htail).mpr fun x hx => hall x (.tail _ hx)]

end FridaCI.Sabrelite
