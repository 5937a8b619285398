import FridaCI.Console

/-!
# What comes back of the exit status

The status that the guest wrapper prints comes back as the status of the loop exactly when
nothing that the payload script prints can be mistaken for it or stands in front of it.
-/

namespace FridaCI.Sabrelite
open Bash

set_option autoImplicit false

/-- The loop stops exactly at the line of the wrapper, which is the last one, with the
status that the wrapper has printed. -/
def RoundTrip (output : Text) (n : Nat) : Prop :=
  (consoleLoop (onConsole (output ++ wrapperEcho n))).2 = .exited n []

/-! ## What is printed, line by line -/

/-- The lines of an output that end in a newline, and the rest after the last newline. -/
def splitLines : Text → List Text × Text
  | [] => ([], [])
  | c :: s =>
    if c = '\n' then ([] :: (splitLines s).1, (splitLines s).2)
    else
      match (splitLines s).1 with
      | [] => ([], c :: (splitLines s).2)
      | line :: lines => ((c :: line) :: lines, (splitLines s).2)

/-- `Spells t m`: backslashes and carriage returns apart, `t` reads `m`. A backslash keeps
the character after it, and the last one of a line falls on the carriage return that the
console puts behind the line. -/
inductive Spells : Text → Text → Prop where
  | nil : Spells [] []
  | plain {c : Char} {t m : Text} (backslash : c ≠ '\\') (cr : c ≠ '\r') (h : Spells t m) :
      Spells (c :: t) (c :: m)
  | cr {t m : Text} (h : Spells t m) : Spells ('\r' :: t) m
  | escaped {c : Char} {t m : Text} (cr : c ≠ '\r') (h : Spells t m) :
      Spells ('\\' :: c :: t) (c :: m)
  | escapedCr {t m : Text} (h : Spells t m) : Spells ('\\' :: '\r' :: t) m
  | lastBackslash : Spells ['\\'] []

/-- As `Spells`, behind any spaces and tabs. -/
def ReadsAs (line m : Text) : Prop :=
  ∃ blanks t, line = blanks ++ t ∧ (∀ c ∈ blanks, c = ' ' ∨ c = '\t') ∧ Spells t m

/-- No finished line of the output reads as a marker with a status, and nothing is left to
read of the unfinished one. -/
structure Unmistakable (output : Text) : Prop where
  lines : ∀ line ∈ (splitLines output).1, ∀ digits, digits ≠ [] →
    (∀ c ∈ digits, c.isDigit = true) → ¬ ReadsAs line (exitMarker ++ digits)
  rest : ReadsAs (splitLines output).2 []

theorem splitLines_spec (output : Text) :
    output = (splitLines output).1.flatMap (· ++ ['\n']) ++ (splitLines output).2 ∧
    (∀ line ∈ (splitLines output).1, '\n' ∉ line) ∧ '\n' ∉ (splitLines output).2 := by
  induction output with
  | nil => simp [splitLines]
  | cons c s ih =>
    obtain ⟨hs, hlines, hrest⟩ := ih
    unfold splitLines
    split
    · next hc =>
      subst hc
      refine ⟨?_, ?_, hrest⟩
      · simpa using hs
      · intro line hline
        rcases List.mem_cons.mp hline with rfl | hline
        · simp
        · exact hlines line hline
    · next hc =>
      split
      · next hnil =>
        rw [hnil] at hs
        refine ⟨by simpa using hs, by simp, ?_⟩
        simpa using ⟨Ne.symm hc, hrest⟩
      · next line lines hcons =>
        rw [hcons] at hs hlines
        refine ⟨by simpa using hs, ?_, hrest⟩
        intro l hl
        rcases List.mem_cons.mp hl with rfl | hl
        · simpa using ⟨Ne.symm hc, hlines line List.mem_cons_self⟩
        · exact hlines l (List.mem_cons_of_mem line hl)

theorem onConsole_line {line : Text} (h : '\n' ∉ line) : onConsole line = line := by
  induction line with
  | nil => rfl
  | cons c t ih =>
    have hc := (List.ne_of_not_mem_cons h).symm
    have ht := ih (List.not_mem_of_not_mem_cons h)
    simp only [onConsole, List.flatMap_cons] at ht ⊢
    rw [if_neg hc, ht, List.singleton_append]

theorem onConsole_append (s t : Text) : onConsole (s ++ t) = onConsole s ++ onConsole t :=
  List.flatMap_append

theorem onConsole_lines {lines : List Text} (h : ∀ line ∈ lines, '\n' ∉ line) :
    onConsole (lines.flatMap (· ++ ['\n'])) = onConsoleLines lines := by
  induction lines with
  | nil => rfl
  | cons line lines ih =>
    have hrest := ih (fun l hl => h l (.tail _ hl))
    rw [List.flatMap_cons, onConsole_append, onConsole_append, onConsole_line (h line (.head _)),
      hrest]
    rfl

/-! ## What a line spells -/

theorem Spells.eq_of_line {t m : Text} (hs : Spells t m) (h : '\n' ∉ t) :
    m = trDelete '\r' ((lineCells t).map Prod.fst) := by
  induction hs with
  | nil => rfl
  | plain hc hcr _ ih =>
    have hn := (List.ne_of_not_mem_cons h).symm
    rw [lineCells_plain hc hn, List.map_cons, trDelete_cons_of_ne hcr,
      ← ih (List.not_mem_of_not_mem_cons h)]
  | cr _ ih =>
    rw [lineCells_plain (by decide) (by decide), List.map_cons, trDelete_cons_self]
    exact ih (List.not_mem_of_not_mem_cons h)
  | escaped hcr _ ih =>
    have ht := List.not_mem_of_not_mem_cons h
    have hn := (List.ne_of_not_mem_cons ht).symm
    rw [lineCells_escaped hn, List.map_cons, trDelete_cons_of_ne hcr,
      ← ih (List.not_mem_of_not_mem_cons ht)]
  | escapedCr _ ih =>
    rw [lineCells_escaped (by decide), List.map_cons, trDelete_cons_self]
    exact ih (List.not_mem_of_not_mem_cons (List.not_mem_of_not_mem_cons h))
  | lastBackslash => rfl

theorem spells_lineCells {t : Text} (h : '\n' ∉ t) :
    Spells t (trDelete '\r' ((lineCells t).map Prod.fst)) := by
  induction t, h using line_induction with
  | nil => exact .nil
  | backslash => exact .lastBackslash
  | escaped d t hd _ ih =>
    rw [lineCells_escaped hd, List.map_cons]
    by_cases hcr : d = '\r'
    · subst hcr
      rw [trDelete_cons_self]
      exact .escapedCr ih
    · rw [trDelete_cons_of_ne hcr]
      exact .escaped hcr ih
  | plain c t hc hn _ ih =>
    rw [lineCells_plain hc hn, List.map_cons]
    by_cases hcr : c = '\r'
    · subst hcr
      rw [trDelete_cons_self]
      exact .cr ih
    · rw [trDelete_cons_of_ne hcr]
      exact .plain hc hcr ih

theorem Spells.unique {t m m' : Text} (hm : Spells t m) (h : '\n' ∉ t) (hm' : Spells t m') :
    m = m' :=
  (hm.eq_of_line h).trans (hm'.eq_of_line h).symm

theorem Spells.refl {q : Text} (hq : ∀ c ∈ q, c ≠ '\\' ∧ c ≠ '\r') : Spells q q := by
  induction q with
  | nil => exact .nil
  | cons c q ih =>
    obtain ⟨hc, hcr⟩ := hq c (.head _)
    exact .plain hc hcr (ih fun d hd => hq d (.tail _ hd))

/-- A backslash at the end of `t` keeps the first character of `q`, which stays as it is. -/
theorem Spells.append {t m q : Text} (h : Spells t m) (hne : q ≠ [])
    (hq : ∀ c ∈ q, c ≠ '\\' ∧ c ≠ '\r') : Spells (t ++ q) (m ++ q) := by
  induction h with
  | nil => exact .refl hq
  | plain hc hcr _ ih => exact .plain hc hcr ih
  | cr _ ih => exact .cr ih
  | escaped hcr _ ih => exact .escaped hcr ih
  | escapedCr _ ih => exact .escapedCr ih
  | lastBackslash =>
    cases q with
    | nil => exact absurd rfl hne
    | cons c q => exact .escaped (hq c (.head _)).2 (.refl fun d hd => hq d (.tail _ hd))

def isSpaceOrTab (c : Char) : Bool := c == ' ' || c == '\t'

theorem dropWhile_lineCells {line : Text} (h : '\n' ∉ line) :
    (lineCells line).dropWhile isBlank = lineCells (line.dropWhile isSpaceOrTab) := by
  induction line with
  | nil => rfl
  | cons c t ih =>
    have hn := (List.ne_of_not_mem_cons h).symm
    by_cases hblank : isSpaceOrTab c
    · have hc : c ≠ '\\' := by
        rintro rfl
        exact absurd hblank (by decide)
      have hcell : isBlank (c, false) := by
        simp only [isSpaceOrTab, Bool.or_eq_true] at hblank
        simp only [isBlank, Bool.not_false, Bool.true_and, Bool.or_eq_true]
        exact Or.inl hblank
      rw [lineCells_plain hc hn, List.dropWhile_cons_of_pos hcell,
        List.dropWhile_cons_of_pos hblank]
      exact ih (List.not_mem_of_not_mem_cons h)
    · rw [List.dropWhile_cons_of_neg hblank]
      by_cases hc : c = '\\'
      · subst hc
        cases t with
        | nil => rfl
        | cons d t =>
          have hd := (List.ne_of_not_mem_cons (List.not_mem_of_not_mem_cons h)).symm
          rw [lineCells_escaped hd, List.dropWhile_cons_of_neg (by simp [isBlank])]
      · have hcell : ¬ isBlank (c, false) := by
          simpa [isSpaceOrTab, isBlank, hn] using hblank
        rw [lineCells_plain hc hn, List.dropWhile_cons_of_neg hcell]

theorem no_newline_dropWhile {line : Text} (h : '\n' ∉ line) :
    '\n' ∉ line.dropWhile isSpaceOrTab :=
  fun hmem => h ((List.dropWhile_sublist _).subset hmem)

theorem spells_shown {line : Text} (h : '\n' ∉ line) :
    Spells (line.dropWhile isSpaceOrTab) (shown line) := by
  rw [shown, dropWhile_lineCells h]
  exact spells_lineCells (no_newline_dropWhile h)

/-- For a text that starts with no blank, the blanks that `read` strips are all of them. -/
theorem readsAs_iff {line m : Text} (h : '\n' ∉ line)
    (hm : ∀ c s, m = c :: s → isSpaceOrTab c = false) : ReadsAs line m ↔ shown line = m := by
  constructor
  · rintro ⟨blanks, t, rfl, hblanks, hs⟩
    have hall : ∀ c ∈ blanks, isSpaceOrTab c := by
      intro c hc
      rcases hblanks c hc with rfl | rfl <;> decide
    have hfirst : t.dropWhile isSpaceOrTab = t := by
      cases t with
      | nil => rfl
      | cons c t =>
        rw [List.dropWhile_cons_of_neg]
        intro hc
        cases hs with
        | plain => exact absurd (hm c _ rfl) (by simp [hc])
        | cr | escaped | escapedCr | lastBackslash => exact absurd hc (by decide)
    have ht : '\n' ∉ t := fun ht => h (List.mem_append_right blanks ht)
    have hshown := spells_shown h
    rw [List.dropWhile_append_of_pos hall, hfirst] at hshown
    exact hshown.unique ht hs
  · intro heq
    refine ⟨line.takeWhile isSpaceOrTab, line.dropWhile isSpaceOrTab, ?_, ?_, ?_⟩
    · exact (List.takeWhile_append_dropWhile).symm
    · intro c hc
      simpa [isSpaceOrTab] using List.mem_takeWhile_imp hc
    · exact heq ▸ spells_shown h

/-! ## The line of the wrapper -/

theorem shown_append {line q : Text} (h : '\n' ∉ line) (hn : '\n' ∉ q)
    (hq : ∀ c ∈ q, c ≠ '\\' ∧ c ≠ '\r') {c : Char} {s : Text} (hcons : q = c :: s)
    (hc : isSpaceOrTab c = false) : shown (line ++ q) = shown line ++ q := by
  have happend : '\n' ∉ line ++ q := by
    simp [h, hn]
  have hdrop : (line ++ q).dropWhile isSpaceOrTab = line.dropWhile isSpaceOrTab ++ q := by
    rw [List.dropWhile_append]
    split
    · next hnil =>
      rw [List.isEmpty_iff.mp hnil, hcons, List.dropWhile_cons_of_neg (by simp [hc]),
        List.nil_append]
    · rfl
  have hspells : Spells ((line ++ q).dropWhile isSpaceOrTab) (shown line ++ q) := by
    rw [hdrop]
    exact (spells_shown h).append (by simp [hcons]) hq
  exact (spells_shown happend).unique (no_newline_dropWhile happend) hspells

/-- The marker has two colons, at its start, and no digit is a colon: what `m` stands in
front of is no marker unless `m` is empty. -/
theorem exitPattern_append_iff {m digits : Text} (hne : digits ≠ [])
    (hdigits : ∀ c ∈ digits, c.isDigit = true) :
    exitPattern (m ++ (exitMarker ++ digits)) ≠ none ↔ m = [] := by
  constructor
  · intro h
    obtain ⟨digits', hsome⟩ := Option.ne_none_iff_exists'.mp h
    obtain ⟨heq, _, hdigits'⟩ := exitPattern_iff.mp hsome
    have hcolons : ∀ ds : Text, (∀ c ∈ ds, c.isDigit = true) → ds.count ':' = 0 := by
      intro ds hds
      refine List.count_eq_zero.mpr fun hmem => ?_
      exact absurd (hds ':' hmem) (by decide)
    have hcount := congrArg (List.count ':') heq
    simp only [List.count_append, hcolons digits hdigits, hcolons digits' hdigits'] at hcount
    cases m with
    | nil => rfl
    | cons c s =>
      rw [exitMarker_cons, List.cons_append, List.cons_append] at heq
      obtain rfl : c = ':' := (List.cons.inj heq).1
      simp at hcount
  · rintro rfl
    have hsome := exitPattern_iff.mpr ⟨rfl, hne, hdigits⟩
    rw [List.nil_append, hsome]
    exact Option.some_ne_none digits

theorem wrapperLine_plain (n : Nat) :
    ∀ c ∈ exitMarker ++ Nat.toDigits 10 n, c ≠ '\n' ∧ c ≠ '\\' ∧ c ≠ '\r' := by
  have hmarker : ∀ c ∈ exitMarker, c ≠ '\n' ∧ c ≠ '\\' ∧ c ≠ '\r' := by simp [exitMarker]
  intro c hc
  rcases List.mem_append.mp hc with hc | hc
  · exact hmarker c hc
  · have hdigit := Nat.isDigit_of_mem_toDigits (by decide) (by decide) hc
    refine ⟨?_, ?_, ?_⟩ <;> rintro rfl <;> exact absurd hdigit (by decide)

/-- The status line comes glued to whatever the payload script has left unfinished. -/
theorem onConsole_output (output : Text) (n : Nat) :
    onConsole (output ++ wrapperEcho n) =
      onConsoleLines (splitLines output).1 ++
        ((splitLines output).2 ++ (exitMarker ++ Nat.toDigits 10 n) ++ ['\r', '\n']) := by
  obtain ⟨houtput, hlines, hrest⟩ := splitLines_spec output
  have hmarker : '\n' ∉ exitMarker ++ Nat.toDigits 10 n :=
    fun hmem => (wrapperLine_plain n '\n' hmem).1 rfl
  have hecho : onConsole (wrapperEcho n) = exitMarker ++ Nat.toDigits 10 n ++ ['\r', '\n'] := by
    rw [wrapperEcho, onConsole_append, onConsole_line hmarker]
    rfl
  have hout : onConsole output = onConsoleLines (splitLines output).1 ++ (splitLines output).2 :=
    calc onConsole output
        = onConsole ((splitLines output).1.flatMap (· ++ ['\n']) ++ (splitLines output).2) :=
          congrArg onConsole houtput
      _ = onConsoleLines (splitLines output).1 ++ (splitLines output).2 := by
          rw [onConsole_append, onConsole_lines hlines, onConsole_line hrest]
  rw [onConsole_append, hout, hecho]
  simp only [List.append_assoc]

theorem lastLine_iff {rest : Text} (h : '\n' ∉ rest) {n : Nat} (hn : n < 256) :
    (consoleLoop (rest ++ (exitMarker ++ Nat.toDigits 10 n) ++ ['\r', '\n'])).2 =
      .exited n [] ↔ shown rest = [] := by
  have hplain := wrapperLine_plain n
  have hmarker : '\n' ∉ exitMarker ++ Nat.toDigits 10 n := fun hmem => (hplain _ hmem).1 rfl
  have hline : '\n' ∉ rest ++ (exitMarker ++ Nat.toDigits 10 n) := by
    rw [List.mem_append]
    exact not_or.mpr ⟨h, hmarker⟩
  have hshown := shown_append h hmarker (fun c hc => (hplain c hc).2)
    (by rw [exitMarker_cons, List.cons_append]) (by decide)
  have hne : Nat.toDigits 10 n ≠ [] := Nat.toDigits_ne_nil
  have hdigits : ∀ c ∈ Nat.toDigits 10 n, c.isDigit = true :=
    fun c hc => Nat.isDigit_of_mem_toDigits (by decide) (by decide) hc
  constructor
  · intro hloop
    refine (exitPattern_append_iff hne hdigits).mp ?_
    intro hnone
    rw [consoleLoop_pass hline (hshown ▸ hnone), consoleLoop_nil] at hloop
    cases hloop
  · intro hempty
    have hexit : exitPattern (shown (rest ++ (exitMarker ++ Nat.toDigits 10 n))) =
        some (Nat.toDigits 10 n) := by
      rw [hshown, hempty, List.nil_append]
      exact exitPattern_iff.mpr ⟨rfl, hne, hdigits⟩
    rw [consoleLoop_stop hline hexit, exitStatus_toDigits hn]

theorem readsAs_marker_iff {line digits : Text} (h : '\n' ∉ line) :
    ReadsAs line (exitMarker ++ digits) ↔ shown line = exitMarker ++ digits := by
  refine readsAs_iff h fun c s hcons => ?_
  rw [exitMarker_cons, List.cons_append] at hcons
  obtain rfl : ':' = c := (List.cons.inj hcons).1
  rfl

theorem unmistakable_iff (output : Text) :
    Unmistakable output ↔
      (∀ line ∈ (splitLines output).1, exitPattern (shown line) = none) ∧
        shown (splitLines output).2 = [] := by
  obtain ⟨_, hlines, hrest⟩ := splitLines_spec output
  have hempty : ReadsAs (splitLines output).2 [] ↔ shown (splitLines output).2 = [] :=
    readsAs_iff hrest fun c s hcons => nomatch hcons
  constructor
  · intro h
    refine ⟨fun line hline => ?_, hempty.mp h.rest⟩
    refine Option.eq_none_iff_forall_ne_some.mpr fun digits hsome => ?_
    obtain ⟨heq, hne, hdigits⟩ := exitPattern_iff.mp hsome
    exact h.lines line hline digits hne hdigits ((readsAs_marker_iff (hlines line hline)).mpr heq)
  · rintro ⟨hpass, hshown⟩
    refine ⟨fun line hline digits hne hdigits hreads => ?_, hempty.mpr hshown⟩
    have heq := (readsAs_marker_iff (hlines line hline)).mp hreads
    have hsome := exitPattern_iff.mpr ⟨heq, hne, hdigits⟩
    rw [hpass line hline] at hsome
    cases hsome

theorem roundTrip_iff_shown (output : Text) {n : Nat} (hn : n < 256) :
    RoundTrip output n ↔
      (∀ line ∈ (splitLines output).1, exitPattern (shown line) = none) ∧
        shown (splitLines output).2 = [] := by
  obtain ⟨_, hlines, hrest⟩ := splitLines_spec output
  rw [RoundTrip, onConsole_output]
  constructor
  · intro hloop
    have hpass := exitPattern_of_unread hlines (by simp) hloop
    rw [consoleLoop_pass_lines hlines hpass, lastLine_iff hrest hn] at hloop
    exact ⟨hpass, hloop⟩
  · rintro ⟨hpass, hshown⟩
    rw [consoleLoop_pass_lines hlines hpass]
    exact (lastLine_iff hrest hn).mpr hshown

/-- The status of the guest comes back, and the loop stops where it should, exactly for the
outputs that end with their last line and have no line that reads as a status. -/
theorem roundTrip_iff (output : Text) (n : Fin 256) :
    RoundTrip output n ↔ Unmistakable output :=
  (roundTrip_iff_shown output n.isLt).trans (unmistakable_iff output).symm

/-- No line of the output, finished or not, is a marker with a status. -/
def MarkerFree (output : Text) : Prop :=
  ∀ line ∈ (splitLines output).1 ++ [(splitLines output).2], exitPattern line = none

instance (output : Text) : Decidable (MarkerFree output) := by
  unfold MarkerFree
  infer_instance

def unfinished : Text := ['o', 'k']

def indented : Text := [' ', ' '] ++ exitMarker ++ ['1', '\n']

/-- An unfinished last line hides the status, an indented line is taken for it. -/
theorem markerFree_not_roundTrip :
    (MarkerFree unfinished ∧ ¬ RoundTrip unfinished 0) ∧
      MarkerFree indented ∧ ¬ RoundTrip indented 0 := by
  refine ⟨⟨by decide, ?_⟩, by decide, ?_⟩
  · rw [roundTrip_iff_shown unfinished (by decide)]
    decide
  · rw [roundTrip_iff_shown indented (by decide)]
    decide

end FridaCI.Sabrelite
