import InterProcess.Client.Terminal

/-!
# Lines of a script

What a session makes of its standard input, said without the buffer of `fgets`: the input is
a text of lines, and the loop obeys them one by one. A line that does not fit the buffer is
obeyed in pieces, and of a piece only what stands before its first NUL is seen. Nothing else is
lost, joined or read twice, and where the input ends so does the session.
-/

namespace InterProcess

open Scan

/-- The pieces in which a line is obeyed that is followed by its end. -/
def pieces (line : Bytes) : List Bytes :=
  if line.length ≤ 510 then [line] else line.take 511 :: pieces (line.drop 511)
termination_by line.length
decreasing_by rw [List.length_drop]; omega

/-- The pieces in which a line is obeyed that the input ends with. -/
def lastPieces (line : Bytes) : List Bytes :=
  if line = [] then []
  else if line.length ≤ 511 then [line]
  else line.take 511 :: lastPieces (line.drop 511)
termination_by line.length
decreasing_by rw [List.length_drop]; omega

/-- The text of a script: lines with their ends, and a last one without. -/
def scriptText (lines : List Bytes) (last : Bytes) : Bytes :=
  lines.flatMap (fun line => line ++ [10]) ++ last

/-- What the loop obeys of a script. -/
def scriptLines (lines : List Bytes) (last : Bytes) : List Bytes :=
  (lines.flatMap pieces ++ lastPieces last).map cString

/-! ### The buffer -/

theorem ne_newline_of_cString {buffer : Bytes} (h : ∀ b ∈ buffer, b ≠ 10) :
    (cString buffer).getLast? ≠ some 10 := fun hlast =>
  h 10 ((List.takeWhile_sublist _).mem (List.mem_of_getLast? hlast)) rfl

theorem cString_newline {buffer : Bytes} (h : ∀ b ∈ buffer, b ≠ 10) :
    (if (cString (buffer ++ [10])).getLast? = some 10 then (cString (buffer ++ [10])).dropLast
      else cString (buffer ++ [10])) = cString buffer := by
  by_cases hzero : ∀ b ∈ buffer, b ≠ 0
  · have hwhole : cString buffer = buffer :=
      List.takeWhile_eq_self_iff.mpr fun b hb => by simpa using hzero b hb
    have hnewline : cString (buffer ++ [10]) = buffer ++ [10] := by
      refine List.takeWhile_eq_self_iff.mpr fun b hb => ?_
      rcases List.mem_append.mp hb with hb | hb
      · simpa using hzero b hb
      · simp [List.mem_singleton.mp hb]
    simp [hnewline, hwhole]
  · push Not at hzero
    obtain ⟨b, hb, rfl⟩ := hzero
    have hcut : cString (buffer ++ [10]) = cString buffer := by
      unfold cString
      rw [List.takeWhile_append, if_neg]
      intro hlength
      have := List.takeWhile_eq_self_iff.mp
        ((List.takeWhile_sublist (fun b : UInt8 => b != 0)).eq_of_length hlength) 0 hb
      simp at this
    rw [hcut, if_neg (ne_newline_of_cString h)]

section NextLine

variable {line rest : Bytes}

theorem nextLine_fits (hline : ∀ b ∈ line, b ≠ 10) (hlength : line.length ≤ 510) :
    nextLine (line ++ 10 :: rest) = some (cString line, rest) := by
  have hgets : fgets 512 (line ++ 10 :: rest) = some (line ++ [10], rest) :=
    fgets_line (by omega) hline
  rw [nextLine, hgets, Option.map_some]
  dsimp only
  rw [cString_newline hline]

theorem nextLine_cut (hline : ∀ b ∈ line, b ≠ 10) (hlength : 511 ≤ line.length) :
    nextLine (line ++ rest) = some (cString (line.take 511), line.drop 511 ++ rest) := by
  have htake : ∀ b ∈ line.take 511, b ≠ 10 := fun b hb => hline b (List.mem_of_mem_take hb)
  have hfull : (line.take 511).length = 512 - 1 := List.length_take_of_le hlength
  have hgets : fgets 512 (line.take 511 ++ (line.drop 511 ++ rest)) =
      some (line.take 511, line.drop 511 ++ rest) :=
    fgets_full hfull (List.ne_nil_of_length_eq_add_one hfull) htake
  rw [← List.append_assoc, List.take_append_drop] at hgets
  rw [nextLine, hgets, Option.map_some]
  dsimp only
  rw [if_neg (ne_newline_of_cString htake)]

theorem nextLine_last (hline : ∀ b ∈ line, b ≠ 10) (hne : line ≠ []) (hlength : line.length ≤ 511) :
    nextLine line = some (cString line, []) := by
  have hgets : fgets 512 line = some (line, []) := fgets_end hlength hne hline
  rw [nextLine, hgets, Option.map_some]
  dsimp only
  rw [if_neg (ne_newline_of_cString hline)]

end NextLine

/-- The input is read in these lines. -/
inductive ReadsAs : Bytes → List Bytes → Prop
  | nil : ReadsAs [] []
  | cons {input line rest : Bytes} {lines : List Bytes} (h : nextLine input = some (line, rest))
      (hrest : ReadsAs rest lines) : ReadsAs input (line :: lines)

theorem readsAs_line {rest : Bytes} {lines : List Bytes} (hrest : ReadsAs rest lines) (line : Bytes)
    (hline : ∀ b ∈ line, b ≠ 10) :
    ReadsAs (line ++ 10 :: rest) ((pieces line).map cString ++ lines) := by
  induction line using pieces.induct with
  | case1 line hlength =>
      rw [pieces, if_pos hlength]
      exact .cons (nextLine_fits hline hlength) hrest
  | case2 line hlength ih =>
      rw [pieces, if_neg hlength]
      exact .cons (nextLine_cut hline (by omega)) (ih fun b hb => hline b (List.mem_of_mem_drop hb))

theorem readsAs_last (line : Bytes) (hline : ∀ b ∈ line, b ≠ 10) :
    ReadsAs line ((lastPieces line).map cString) := by
  induction line using lastPieces.induct with
  | case1 => simpa [lastPieces] using ReadsAs.nil
  | case2 line hne hlength =>
      rw [lastPieces, if_neg hne, if_pos hlength]
      exact .cons (nextLine_last hline hne hlength) .nil
  | case3 line hne hlength ih =>
      have hcut : nextLine (line ++ []) = _ := nextLine_cut hline (by omega)
      rw [List.append_nil, List.append_nil] at hcut
      rw [lastPieces, if_neg hne, if_neg hlength]
      exact .cons hcut (ih fun b hb => hline b (List.mem_of_mem_drop hb))

/-- The text of a script is read in the pieces of its lines. -/
theorem readsAs_script (lines : List Bytes) (last : Bytes)
    (hlines : ∀ line ∈ lines, ∀ b ∈ line, b ≠ 10) (hlast : ∀ b ∈ last, b ≠ 10) :
    ReadsAs (scriptText lines last) (scriptLines lines last) := by
  induction lines with
  | nil => exact readsAs_last last hlast
  | cons line lines ih =>
      have hrest := ih fun l hl => hlines l (List.mem_cons_of_mem _ hl)
      have h := readsAs_line hrest line (hlines line List.mem_cons_self)
      simpa [scriptText, scriptLines, List.flatMap_cons] using h

namespace Terminal

/-- The loop over the lines of a script. -/
def follow (codec : Codec) : Terminal → List Bytes → List Event → Terminal
  | t, _, [] => t
  | t, lines, e :: es =>
      if t.ending ≠ none then t
      else if e.sigStop then t.exit
      else
        match lines with
        | [] => (t.print (ascii ">> ")).exit
        | line :: lines => follow codec ((t.print (ascii ">> ")).enter codec e line) lines es

@[simp] theorem follow_nil (codec : Codec) (t : Terminal) (lines : List Bytes) :
    follow codec t lines [] = t := by
  rw [follow.eq_def]

theorem follow_cons (codec : Codec) (t : Terminal) (lines : List Bytes) (e : Event)
    (es : List Event) : follow codec t lines (e :: es) =
      if t.ending ≠ none then t
      else if e.sigStop then t.exit
      else
        match lines with
        | [] => (t.print (ascii ">> ")).exit
        | line :: lines => follow codec ((t.print (ascii ">> ")).enter codec e line) lines es := by
  rw [follow.eq_def]

/-- The loop without the rest of its input. -/
@[simps] def unread (t : Terminal) : Terminal := { t with input := [] }

theorem unread_obey (codec : Codec) (t : Terminal) (e : Event) (command : Command) :
    (t.obey codec e command).unread = t.unread.obey codec e command := by
  unfold obey
  rw [unread_shell]
  cases t.shell.call command with
  | none => rfl
  | some call =>
      dsimp only
      cases call.throws codec e <;> rfl

theorem unread_enter (codec : Codec) (t : Terminal) (e : Event) (line : Bytes) :
    (t.enter codec e line).unread = t.unread.enter codec e line := by
  unfold enter
  rw [unread_shell]
  cases t.shell.read line with
  | skip | say | list => rfl
  | command command => exact unread_obey codec t e command

theorem enter_input (codec : Codec) (t : Terminal) (e : Event) (line : Bytes) :
    (t.enter codec e line).input = t.input := by
  unfold enter
  cases t.shell.read line with
  | skip | say | list => rfl
  | command command =>
      dsimp only
      unfold obey
      cases t.shell.call command with
      | none => rfl
      | some call => cases hthrows : call.throws codec e <;> simp [hthrows]

theorem run_cons (codec : Codec) (t : Terminal) (e : Event) (es : List Event) :
    run codec t (e :: es) = run codec (t.turn codec e) es := rfl

/-- What is read in lines is obeyed line by line. -/
theorem follow_of_readsAs {codec : Codec} {t : Terminal} {lines : List Bytes}
    (h : ReadsAs t.input lines) (es : List Event) (hes : ∀ e ∈ es, e.readable = true) :
    (run codec t es).unread = follow codec t.unread lines es := by
  induction es generalizing t lines with
  | nil => rw [follow_nil, run_nil]
  | cons e es ih =>
      have hgets : t.gets e = nextLine t.input := by rw [gets, if_pos (hes e List.mem_cons_self)]
      rw [run_cons, follow_cons, unread_ending]
      by_cases hover : t.ending ≠ none
      · rw [if_pos hover, turn, if_pos hover, run_of_ended hover]
      rw [if_neg hover, turn, if_neg hover]
      by_cases hstop : e.sigStop = true
      · rw [if_pos hstop, if_pos hstop, run_of_ended (by simp)]
        rfl
      rw [if_neg hstop, if_neg hstop, hgets]
      generalize t.input = input at h
      cases h with
      | nil =>
          have hend : nextLine [] = none := rfl
          rw [hend, run_of_ended (by simp)]
          rfl
      | cons hnext hrest =>
          rw [hnext]
          dsimp only
          rw [ih (by rwa [enter_input]) (fun e he => hes e (List.mem_cons_of_mem _ he)), unread_enter]
          rfl

/-- A session on the text of a script obeys its lines one by one, in pieces that fit the
buffer: it prints, sends and returns what the loop over the lines does. -/
theorem session_follows (codec : Codec) (lines : List Bytes) (last : Bytes) (es : List Event)
    (hlines : ∀ line ∈ lines, ∀ b ∈ line, b ≠ 10) (hlast : ∀ b ∈ last, b ≠ 10)
    (hes : ∀ e ∈ es, e.readable = true) :
    (run codec { input := scriptText lines last } es).unread =
      follow codec { input := [] } (scriptLines lines last) es :=
  follow_of_readsAs (readsAs_script lines last hlines hlast) es hes

/-- A line of 511 spaces and `list`, of which the second piece is obeyed as `list`. -/
theorem session_follows_cut :
    (run wireCodec { input := scriptText [List.replicate 511 32 ++ ascii "list"] (ascii "quit") }
        silence).unread =
      follow wireCodec { input := [] } [List.replicate 511 32, ascii "list", ascii "quit"] silence := by
  have hlines : scriptLines [List.replicate 511 32 ++ ascii "list"] (ascii "quit") =
      [List.replicate 511 32, ascii "list", ascii "quit"] := by
    have hcut : pieces (List.replicate 511 32 ++ ascii "list") =
        [List.replicate 511 32, ascii "list"] := by
      have hlong : ¬(List.replicate 511 32 ++ ascii "list").length ≤ 510 := by
        rw [List.length_append, List.length_replicate]
        omega
      rw [pieces, if_neg hlong, List.take_left' List.length_replicate,
        List.drop_left' List.length_replicate, pieces, if_pos (by decide)]
    have hlast : lastPieces (ascii "quit") = [ascii "quit"] := by
      rw [lastPieces, if_neg (by decide), if_pos (by decide)]
    rw [scriptLines, List.flatMap_singleton, hcut, hlast]
    decide +kernel
  rw [← hlines]
  exact session_follows wireCodec _ _ _ (by decide +kernel) (by decide +kernel) (by simp [silence])

end Terminal

end InterProcess
