import InterProcess.Library.Scan
import InterProcess.Client.Shell

/-!
# A line of input

`client::Application::run` up to the call it makes: the line that `fgets` stores, and
the scans of `sscanf` that make a command of it or print a text. `Shell.sent` is what
one turn of the loop sends.

The fields of the scans are bounded, and a field that is cut leaves its tail to the next
one. The arguments of `concat` and `find` reach the request exactly when neither is cut;
those of the math commands are scanned whole, and are sent exactly when they are `int`s.
-/

namespace InterProcess

open Scan

/-- The bytes of a string literal. -/
def ascii (s : String) : Bytes := s.toList.map fun c => UInt8.ofNat c.toNat

def insensitiveEquals : Bytes → Bytes → Bool
  | a :: as, b :: bs => tolower a == tolower b && insensitiveEquals as bs
  | [], [] => true
  | _, _ => false

def isNonblockToken (s : Bytes) : Bool :=
  insensitiveEquals s (ascii "non-block") || insensitiveEquals s (ascii "nonblock") ||
    insensitiveEquals s (ascii "non_block") || insensitiveEquals s (ascii "async")

def isBlockToken (s : Bytes) : Bool :=
  insensitiveEquals s (ascii "block") || insensitiveEquals s (ascii "blocking") ||
    insensitiveEquals s (ascii "sync")

def printHelp : Bytes := ascii <|
  "Commands:\n" ++
  "  block/non-block add a b        \n" ++
  "  block/non-block sub a b        \n" ++
  "  block/non-block mult a b       \n" ++
  "  block/non-block div a b        \n" ++
  "  block/non-block concat s1 s2   \n" ++
  "  block/non-block find hay needle\n" ++
  "  get <ticket> [nowait | wait <ms>]  (retrieve result for non-blocking ticket)\n" ++
  "  list                               (list pending tickets)\n" ++
  "  quit | exit\n"

def badCommand : Bytes := ascii "Bad Command. Type 'help'\n"

/-- What the loop makes of a line. -/
inductive Reading where
  /-- the line is empty -/
  | skip
  /-- the text is printed -/
  | say (text : Bytes)
  /-- the pending tickets are printed -/
  | list
  | command (command : Command)
  deriving DecidableEq

/-- The scan of `%d %d` and the operation of a math command. -/
def readMath (line mode op : Bytes) : Reading :=
  match scan [.skip 31, .skip 31, .int, .int] line with
  | [.int a, .int b] =>
      let m :=
        if insensitiveEquals op (ascii "add") then MathOp.mathAdd
        else if insensitiveEquals op (ascii "sub") then MathOp.mathSub
        else if insensitiveEquals op (ascii "mult") then MathOp.mathMul
        else MathOp.mathDiv
      .command (.math (isBlockToken mode) m a b)
  | _ => .say (ascii "Usage: " ++ mode ++ ascii " " ++ op ++ ascii " a b\n")

/-- The scan of `%63s %63s` of a string command. -/
def readStr (op : StrOp) (usage line mode : Bytes) : Reading :=
  match scan [.skip 31, .skip 31, .word 63, .word 63] line with
  | [.word s1, .word s2] => .command (.str (isBlockToken mode) op s1 s2)
  | _ => .say (ascii "Usage: " ++ mode ++ usage)

/-- A line that starts with a mode. -/
def readSubmit (line : Bytes) : Reading :=
  match scan [.word 31, .word 31] line with
  | [.word mode, .word op] =>
      if isNonblockToken mode = false ∧ isBlockToken mode = false then
        .say (ascii "First token must be 'block' or 'non-block or get'\n")
      else if insensitiveEquals op (ascii "add") || insensitiveEquals op (ascii "sub") ||
          insensitiveEquals op (ascii "mult") || insensitiveEquals op (ascii "div") then
        readMath line mode op
      else if insensitiveEquals op (ascii "concat") then
        readStr .strConcat (ascii " concat s1 s2\n") line mode
      else if insensitiveEquals op (ascii "find") then
        readStr .strFindStart (ascii " find hay needle\n") line mode
      else .say (ascii "Unknown op. Type 'help'\n")
  | _ => .say badCommand

namespace Shell

/-- A line that starts with `get`. The ticket is looked up before the wait mode is. -/
def readGet (shell : Shell) (line : Bytes) : Reading :=
  match scan [.skip 31, .word 63, .word 31, .unsigned] line with
  | .word ticketStr :: values =>
      let ticketId := strtoull ticketStr
      if shell.pending ticketId = none then
        .say (ascii "Unknown or already consumed ticket: " ++ ascii (toString ticketId) ++ ascii "\n")
      else
        match values with
        | .word waitTok :: values =>
            if insensitiveEquals waitTok (ascii "nowait") then .command (.get ticketId none)
            else if insensitiveEquals waitTok (ascii "wait") then
              match values with
              | [.unsigned ms] => .command (.get ticketId (some ms))
              | _ => .command (.get ticketId (some 0))
            else .say (ascii "Invalid wait mode. Use: nowait | wait <ms>\n")
        | _ => .command (.get ticketId none)
  | _ => .say (ascii "Usage: get <ticket> [nowait | wait <ms>]\n")

/-- What the loop makes of the line in its buffer. -/
def read (shell : Shell) (line : Bytes) : Reading :=
  if line = [] then .skip
  else if insensitiveEquals line (ascii "quit") || insensitiveEquals line (ascii "exit") then
    .command .quit
  else if insensitiveEquals line (ascii "help") then .say printHelp
  else
    match scan [.word 31] line with
    | [.word tok1] =>
        if insensitiveEquals tok1 (ascii "get") then shell.readGet line
        else if insensitiveEquals tok1 (ascii "list") then .list
        else readSubmit line
    | _ => .say badCommand

end Shell

/-- The line that is in the buffer after `fgets`, without its end, and what is left of the
input. -/
def nextLine (input : Bytes) : Option (Bytes × Bytes) :=
  (fgets 512 input).map fun (buffer, rest) =>
    let line := cString buffer
    (if line.getLast? = some 10 then line.dropLast else line, rest)

namespace Shell

def reading (shell : Shell) (input : Bytes) : Option Reading :=
  (nextLine input).map fun (line, _) => shell.read line

def sent (shell : Shell) (input : Bytes) : List EnvelopeReq :=
  match shell.reading input with
  | some (.command command) => (shell.call command).toList.map Call.envelope
  | _ => []

end Shell

/-! ### Tokens -/

theorem isGraph_of_insensitiveEquals {s t : Bytes} (h : insensitiveEquals s t = true)
    (ht : ∀ b ∈ t, isGraph b = true) : ∀ b ∈ s, isGraph b = true := by
  induction s, t using insensitiveEquals.induct with
  | case1 a as b bs ih =>
      simp only [insensitiveEquals, Bool.and_eq_true, beq_iff_eq] at h
      have ha : isGraph a = true := by
        rw [← isGraph_tolower, h.1, isGraph_tolower]
        exact ht b List.mem_cons_self
      intro x hx
      rcases List.mem_cons.mp hx with rfl | hx
      · exact ha
      · exact ih h.2 (fun y hy => ht y (List.mem_cons_of_mem _ hy)) x hx
  | case2 => simp
  | case3 s t h₁ h₂ =>
      simp [insensitiveEquals] at h

theorem insensitiveEquals_iff {s t : Bytes} :
    insensitiveEquals s t = true ↔ s.map tolower = t.map tolower := by
  induction s, t using insensitiveEquals.induct with
  | case1 a as b bs ih => simp [insensitiveEquals, ih]
  | case2 => simp [insensitiveEquals]
  | case3 s t h₁ h₂ =>
      cases s with
      | nil =>
          cases t with
          | nil => exact absurd rfl (h₂ rfl)
          | cons => simp [insensitiveEquals]
      | cons =>
          cases t with
          | nil => simp [insensitiveEquals]
          | cons => exact (h₁ _ _ _ _ rfl rfl).elim

theorem length_eq_of_insensitiveEquals {s t : Bytes} (h : insensitiveEquals s t = true) :
    s.length = t.length := by
  simpa using congrArg List.length (insensitiveEquals_iff.mp h)

theorem insensitiveEquals_congr {s t : Bytes} (h : insensitiveEquals s t = true) (u : Bytes) :
    insensitiveEquals s u = insensitiveEquals t u := by
  rw [Bool.eq_iff_iff, insensitiveEquals_iff, insensitiveEquals_iff, insensitiveEquals_iff.mp h]

/-- A word that the fields for the tokens of a command can hold. -/
structure IsToken (s : Bytes) : Prop where
  ne_nil : s ≠ []
  length_le : s.length ≤ 31
  isGraph : ∀ b ∈ s, isGraph b = true

instance (s : Bytes) : Decidable (IsToken s) :=
  decidable_of_iff (s ≠ [] ∧ s.length ≤ 31 ∧ s.all isGraph = true)
    ⟨fun ⟨hne, hle, hgraph⟩ => ⟨hne, hle, List.all_eq_true.mp hgraph⟩,
      fun h => ⟨h.ne_nil, h.length_le, List.all_eq_true.mpr h.isGraph⟩⟩

theorem IsToken.of_insensitiveEquals {s t : Bytes} (ht : IsToken t)
    (h : insensitiveEquals s t = true) : IsToken s := by
  have hlength := length_eq_of_insensitiveEquals h
  refine ⟨?_, hlength ▸ ht.length_le, isGraph_of_insensitiveEquals h ht.isGraph⟩
  rintro rfl
  exact ht.ne_nil (List.length_eq_zero_iff.mp hlength.symm)

theorem isNonblockToken_iff {s : Bytes} : isNonblockToken s = true ↔
    ∃ t ∈ ["non-block", "nonblock", "non_block", "async"],
      insensitiveEquals s (ascii t) = true := by
  simp [isNonblockToken, or_assoc]

theorem isBlockToken_iff {s : Bytes} : isBlockToken s = true ↔
    ∃ t ∈ ["block", "blocking", "sync"], insensitiveEquals s (ascii t) = true := by
  simp [isBlockToken, or_assoc]

/-- The accepted spellings of a mode. -/
def IsMode (mode : Bytes) (isBlocking : Bool) : Prop :=
  if isBlocking then isBlockToken mode = true else isNonblockToken mode = true

instance (mode : Bytes) (isBlocking : Bool) : Decidable (IsMode mode isBlocking) :=
  inferInstanceAs (Decidable (ite _ _ _))

theorem IsMode.insensitiveEquals {mode : Bytes} {isBlocking : Bool} (h : IsMode mode isBlocking) :
    ∃ s ∈ ["non-block", "nonblock", "non_block", "async", "block", "blocking", "sync"],
      insensitiveEquals mode (ascii s) = true := by
  unfold IsMode at h
  split at h
  · obtain ⟨s, hs, hmode⟩ := isBlockToken_iff.mp h
    exact ⟨s, List.mem_append_right ["non-block", "nonblock", "non_block", "async"] hs, hmode⟩
  · obtain ⟨s, hs, hmode⟩ := isNonblockToken_iff.mp h
    exact ⟨s, List.mem_append_left ["block", "blocking", "sync"] hs, hmode⟩

theorem IsMode.isToken {mode : Bytes} {isBlocking : Bool} (h : IsMode mode isBlocking) :
    IsToken mode := by
  obtain ⟨s, hs, hmode⟩ := h.insensitiveEquals
  have htoken : ∀ s ∈ ["non-block", "nonblock", "non_block", "async", "block", "blocking", "sync"],
      IsToken (ascii s) := by decide
  exact (htoken s hs).of_insensitiveEquals hmode

theorem IsMode.not_insensitiveEquals {mode : Bytes} {isBlocking : Bool}
    (h : IsMode mode isBlocking) :
    InterProcess.insensitiveEquals mode (ascii "get") = false ∧
      InterProcess.insensitiveEquals mode (ascii "list") = false := by
  obtain ⟨s, hs, hmode⟩ := h.insensitiveEquals
  rw [insensitiveEquals_congr hmode, insensitiveEquals_congr hmode]
  clear hmode
  revert s
  decide

/-- No spelling is accepted for both modes. -/
theorem isBlockToken_eq_false {mode : Bytes} (h : isNonblockToken mode = true) :
    isBlockToken mode = false := by
  obtain ⟨s, hs, hmode⟩ := isNonblockToken_iff.mp h
  simp only [isBlockToken, insensitiveEquals_congr hmode]
  clear hmode
  revert s
  decide

theorem IsMode.isBlockToken_eq {mode : Bytes} {isBlocking : Bool} (h : IsMode mode isBlocking) :
    isBlockToken mode = isBlocking := by
  cases isBlocking with
  | false => exact isBlockToken_eq_false h
  | true => exact h

theorem IsMode.accepted {mode : Bytes} {isBlocking : Bool} (h : IsMode mode isBlocking) :
    ¬(isNonblockToken mode = false ∧ isBlockToken mode = false) := by
  rintro ⟨hnonblock, hblock⟩
  cases isBlocking with
  | false => exact Bool.eq_false_iff.mp hnonblock h
  | true => exact Bool.eq_false_iff.mp hblock h

/-! ### Lines -/

def commandLine (mode op x y : Bytes) : Bytes := mode ++ 32 :: (op ++ 32 :: (x ++ 32 :: y))

/-- What can come after a line: the end of the input or of the line. -/
def EndsLine (rest : Bytes) : Prop := ∀ b ∈ rest.head?, b = 10

theorem nextLine_append {line rest : Bytes} (hne : line ≠ []) (hlength : line.length ≤ 511)
    (hline : ∀ b ∈ line, b ≠ 10 ∧ b ≠ 0) (hrest : EndsLine rest) :
    ∃ left, nextLine (line ++ rest) = some (line, left) := by
  have hnewline : ∀ b ∈ line, b ≠ 10 := fun b hb => (hline b hb).1
  have hstring : cString line = line :=
    List.takeWhile_eq_self_iff.mpr fun b hb => by simpa using (hline b hb).2
  have hlast : line.getLast? ≠ some 10 := fun h => hnewline 10 (List.mem_of_getLast? h) rfl
  rcases hlength.lt_or_eq with hlt | hfull
  · cases rest with
    | nil =>
        have hgets : fgets 512 line = some (line, []) := fgets_end hlength hne hnewline
        exact ⟨[], by simp [nextLine, hgets, hstring, hlast]⟩
    | cons b rest =>
        obtain rfl : b = 10 := hrest b rfl
        have hstring' : cString (line ++ [10]) = line ++ [10] := by
          refine List.takeWhile_eq_self_iff.mpr fun b hb => ?_
          rcases List.mem_append.mp hb with hb | hb
          · simpa using (hline b hb).2
          · simp [List.mem_singleton.mp hb]
        have hgets : fgets 512 (line ++ 10 :: rest) = some (line ++ [10], rest) :=
          fgets_line (by omega) hnewline
        exact ⟨rest, by simp [nextLine, hgets, hstring']⟩
  · have hgets : fgets 512 (line ++ rest) = some (line, rest) := fgets_full hfull hne hnewline
    exact ⟨rest, by simp [nextLine, hgets, hstring, hlast]⟩

section CommandLine

variable {mode op x y : Bytes}

theorem commandLine_ne_nil : commandLine mode op x y ≠ [] := by simp [commandLine]

theorem word_token {s : Bytes} (h : IsToken s) (rest : Bytes) :
    word 31 (s ++ 32 :: rest) = some (s, 32 :: rest) :=
  word_fits h.ne_nil h.length_le (fun b hb => isSpace_of_isGraph (h.isGraph b hb)) (ends_space rest)

theorem scan_mode (hmode : IsToken mode) : scan [.word 31] (commandLine mode op x y) = [.word mode] := by
  simp [scan, commandLine, word_token hmode]

theorem scan_mode_op (hmode : IsToken mode) (hop : IsToken op) :
    scan [.word 31, .word 31] (commandLine mode op x y) = [.word mode, .word op] := by
  simp [scan, commandLine, word_token hmode, word_token hop]

theorem scan_arguments (hmode : IsToken mode) (hop : IsToken op) (ds : List Directive) :
    scan (.skip 31 :: .skip 31 :: ds) (commandLine mode op x y) = scan ds (32 :: (x ++ 32 :: y)) := by
  simp [scan, commandLine, word_token hmode, word_token hop]

theorem commandLine_isGraph (hmode : IsToken mode) (hop : IsToken op)
    (hx : ∀ b ∈ x, isGraph b = true) (hy : ∀ b ∈ y, isGraph b = true) :
    ∀ b ∈ commandLine mode op x y, b = 32 ∨ isGraph b = true := by
  simp only [commandLine, List.mem_append, List.mem_cons]
  rintro b (hb | rfl | hb | rfl | hb | rfl | hb)
  · exact .inr (hmode.isGraph b hb)
  · exact .inl rfl
  · exact .inr (hop.isGraph b hb)
  · exact .inl rfl
  · exact .inr (hx b hb)
  · exact .inl rfl
  · exact .inr (hy b hb)

theorem not_insensitiveEquals_commandLine (hmode : IsToken mode) (hop : IsToken op) {s : Bytes}
    (hs : s.length ≤ 4) : insensitiveEquals (commandLine mode op x y) s = false := by
  have hmode' := List.length_pos_iff.mpr hmode.ne_nil
  have hop' := List.length_pos_iff.mpr hop.ne_nil
  refine Bool.eq_false_iff.mpr fun h => ?_
  have := length_eq_of_insensitiveEquals h
  simp only [commandLine, List.length_append, List.length_cons] at this
  omega

namespace Shell

variable (shell : Shell) {isBlocking : Bool}

theorem read_commandLine (hmode : IsMode mode isBlocking) (hop : IsToken op) :
    shell.read (commandLine mode op x y) = readSubmit (commandLine mode op x y) := by
  have hother : ∀ s : Bytes, s.length ≤ 4 → insensitiveEquals (commandLine mode op x y) s = false :=
    fun s => not_insensitiveEquals_commandLine hmode.isToken hop
  obtain ⟨hget, hlist⟩ := hmode.not_insensitiveEquals
  rw [read, if_neg commandLine_ne_nil, hother (ascii "quit") (by decide),
    hother (ascii "exit") (by decide), hother (ascii "help") (by decide), scan_mode hmode.isToken]
  simp [hget, hlist]

/-- The loop reads the line as a whole. -/
theorem reading_commandLine (hmode : IsMode mode isBlocking) (hop : IsToken op)
    (hx : ∀ b ∈ x, isGraph b = true) (hy : ∀ b ∈ y, isGraph b = true)
    (hlength : (commandLine mode op x y).length ≤ 511) {rest : Bytes} (hrest : EndsLine rest) :
    shell.reading (commandLine mode op x y ++ rest) = some (readSubmit (commandLine mode op x y)) := by
  obtain ⟨left, hnext⟩ := nextLine_append commandLine_ne_nil hlength (fun b hb => by
    rcases commandLine_isGraph hmode.isToken hop hx hy b hb with rfl | hgraph
    · decide
    · refine ⟨?_, ne_zero_of_isGraph hgraph⟩
      rintro rfl
      exact absurd hgraph (by decide)) hrest
  simp [reading, hnext, read_commandLine shell hmode hop]

end Shell

end CommandLine

/-! ### Numeric arguments -/

def IsMathToken (op : Bytes) : MathOp → Prop
  | .mathAdd => insensitiveEquals op (ascii "add") = true
  | .mathSub => insensitiveEquals op (ascii "sub") = true
  | .mathMul => insensitiveEquals op (ascii "mult") = true
  | .mathDiv => insensitiveEquals op (ascii "div") = true
  | .unrecognized _ _ => False

instance (op : Bytes) : ∀ m, Decidable (IsMathToken op m)
  | .mathAdd | .mathSub | .mathMul | .mathDiv => inferInstanceAs (Decidable (_ = true))
  | .unrecognized _ _ => inferInstanceAs (Decidable False)

theorem IsMathToken.isToken {op : Bytes} {m : MathOp} (h : IsMathToken op m) : IsToken op := by
  cases m with
  | mathAdd => exact .of_insensitiveEquals (by decide) h
  | mathSub => exact .of_insensitiveEquals (by decide) h
  | mathMul => exact .of_insensitiveEquals (by decide) h
  | mathDiv => exact .of_insensitiveEquals (by decide) h
  | unrecognized => exact h.elim

/-- What a math command with numerals makes of its line. The operands are narrowed. -/
theorem readSubmit_math {mode op x y : Bytes} {isBlocking : Bool} {m : MathOp} {a b : ℤ}
    (hmode : IsMode mode isBlocking) (hop : IsMathToken op m) (hx : IsNumeral x a)
    (hy : IsNumeral y b) :
    readSubmit (commandLine mode op x y) =
      .command (.math isBlocking m (storeInt a) (storeInt b)) := by
  have hscan : scan [.skip 31, .skip 31, .int, .int] (commandLine mode op x y) =
      [.int (storeInt a), .int (storeInt b)] := by
    obtain ⟨na, da, hna, rfl⟩ := numeral_append hx (ends_space y)
    obtain ⟨nb, db, hnb, rfl⟩ := numeral_append hy ends_nil
    rw [List.append_nil] at hnb
    rw [scan_arguments hmode.isToken hop.isToken]
    simp [scan, hna, hnb]
  have hread : readSubmit (commandLine mode op x y) = readMath (commandLine mode op x y) mode op := by
    rw [readSubmit, scan_mode_op hmode.isToken hop.isToken]
    simp only [if_neg hmode.accepted]
    cases m with
    | mathAdd | mathSub | mathMul | mathDiv =>
        simp only [insensitiveEquals_congr hop]
        rfl
    | unrecognized => exact hop.elim
  rw [hread, readMath, hscan, hmode.isBlockToken_eq]
  cases m with
  | mathAdd | mathSub | mathMul | mathDiv =>
      simp only [insensitiveEquals_congr hop]
      rfl
  | unrecognized => exact hop.elim

namespace Shell

/-- The turn of the loop sends one math request, with these operands. -/
def SendsOperands (shell : Shell) (input : Bytes) (a b : ℤ) : Prop :=
  ∃ submit args, shell.sent input = [{ req := some (.submit submit) }] ∧
    submit.payload = some (.math args) ∧ args.a.toInt = a ∧ args.b.toInt = b

/-- The turn of the loop sends nothing and prints the usage of the math commands. -/
def RefusesOperands (shell : Shell) (input mode op : Bytes) : Prop :=
  shell.sent input = [] ∧
    shell.reading input = some (.say (ascii "Usage: " ++ mode ++ ascii " " ++ op ++ ascii " a b
"))

/-- Numerals are sent as they are or refused exactly when both are `int`s. -/
theorem operands_exact_iff (shell : Shell) {mode op x y rest : Bytes} {isBlocking : Bool}
    {m : MathOp} {a b : ℤ} (hmode : IsMode mode isBlocking) (hop : IsMathToken op m)
    (hx : IsNumeral x a) (hy : IsNumeral y b)
    (hlength : (commandLine mode op x y).length ≤ 511) (hrest : EndsLine rest) :
    shell.SendsOperands (commandLine mode op x y ++ rest) a b ∨
        shell.RefusesOperands (commandLine mode op x y ++ rest) mode op ↔
      Narrow.Fits a ∧ Narrow.Fits b := by
  have hreading := shell.reading_commandLine hmode hop.isToken hx.isGraph.2 hy.isGraph.2 hlength hrest
  rw [readSubmit_math hmode hop hx hy] at hreading
  have hsent : ∃ submit : SubmitRequest,
      submit.payload = some (.math { op := m, a := storeInt a, b := storeInt b }) ∧
        shell.sent (commandLine mode op x y ++ rest) = [{ req := some (.submit submit) }] := by
    rw [sent, hreading]
    cases isBlocking with
    | false => exact ⟨_, rfl, rfl⟩
    | true => exact ⟨_, rfl, rfl⟩
  obtain ⟨submit, hpayload, hsent⟩ := hsent
  rw [← toInt_storeInt_iff, ← toInt_storeInt_iff]
  constructor
  · rintro (⟨submit', args, hsent', hpayload', ha, hb⟩ | ⟨hsent', -⟩)
    · rw [hsent] at hsent'
      cases hsent'
      rw [hpayload] at hpayload'
      cases hpayload'
      exact ⟨ha, hb⟩
    · rw [hsent] at hsent'
      cases hsent'
  · rintro ⟨ha, hb⟩
    exact .inl ⟨submit, _, hsent, hpayload, ha, hb⟩

/-- `block add 50 -7` is sent as it is. -/
theorem operands_exact_add :
    ({} : Shell).SendsOperands (commandLine (ascii "block") (ascii "add") (ascii "50") (ascii "-7") ++
          [10]) 50 (-7) ∨
        ({} : Shell).RefusesOperands
          (commandLine (ascii "block") (ascii "add") (ascii "50") (ascii "-7") ++ [10])
          (ascii "block") (ascii "add") ↔
      Narrow.Fits 50 ∧ Narrow.Fits (-7) := by
  have hmode : IsMode (ascii "block") true := by decide
  have hop : IsMathToken (ascii "add") .mathAdd := by decide
  exact operands_exact_iff {} hmode hop
    ⟨none, ascii "50", by decide, by decide, by decide, by decide⟩
    ⟨some true, ascii "7", by decide, by decide, by decide, by decide⟩ (by decide)
    (by simp [EndsLine])

/-- `block add 4294967297 1` asks for the sum of 1 and 1. -/
theorem operands_not_exact :
    IsMode (ascii "block") true ∧ IsMathToken (ascii "add") .mathAdd ∧
      IsNumeral (ascii "4294967297") 4294967297 ∧ IsNumeral (ascii "1") 1 ∧
      (commandLine (ascii "block") (ascii "add") (ascii "4294967297") (ascii "1")).length ≤ 511 ∧
      ¬(({} : Shell).SendsOperands (commandLine (ascii "block") (ascii "add") (ascii "4294967297")
            (ascii "1") ++ [10]) 4294967297 1 ∨
          ({} : Shell).RefusesOperands (commandLine (ascii "block") (ascii "add")
            (ascii "4294967297") (ascii "1") ++ [10]) (ascii "block") (ascii "add")) := by
  refine ⟨by decide, by decide, ⟨none, ascii "4294967297", by decide, by decide, by decide, by decide⟩,
    ⟨none, ascii "1", by decide, by decide, by decide, by decide⟩, by decide, ?_⟩
  have hsent : ({} : Shell).sent (commandLine (ascii "block") (ascii "add") (ascii "4294967297")
      (ascii "1") ++ [10]) = [(submitCall true (makeMath .mathAdd 1 1)).envelope] := by
    decide +kernel
  rintro (⟨submit, args, hsent', hpayload, ha, -⟩ | ⟨hsent', -⟩)
  · rw [hsent] at hsent'
    cases hsent'
    cases hpayload
    exact absurd ha (by decide)
  · rw [hsent] at hsent'
    cases hsent'

end Shell

/-! ### String arguments -/

def IsStrToken (op : Bytes) : StrOp → Prop
  | .strConcat => insensitiveEquals op (ascii "concat") = true
  | .strFindStart => insensitiveEquals op (ascii "find") = true
  | .unrecognized _ _ => False

instance (op : Bytes) : ∀ o, Decidable (IsStrToken op o)
  | .strConcat | .strFindStart => inferInstanceAs (Decidable (_ = true))
  | .unrecognized _ _ => inferInstanceAs (Decidable False)

theorem IsStrToken.isToken {op : Bytes} {o : StrOp} (h : IsStrToken op o) : IsToken op := by
  cases o with
  | strConcat => exact .of_insensitiveEquals (by decide) h
  | strFindStart => exact .of_insensitiveEquals (by decide) h
  | unrecognized => exact h.elim

/-- The words that the fields of a string command hold: what is cut off the first argument
is the second one. -/
def strFields (x y : Bytes) : Bytes × Bytes :=
  (x.take 63, if x.length ≤ 63 then y.take 63 else (x.drop 63).take 63)

theorem scan_strFields {x y : Bytes} (hxne : x ≠ []) (hyne : y ≠ [])
    (hx : ∀ b ∈ x, isGraph b = true) (hy : ∀ b ∈ y, isGraph b = true) :
    scan [.word 63, .word 63] (32 :: (x ++ 32 :: y)) =
      [.word (strFields x y).1, .word (strFields x y).2] := by
  have hword : word 63 (32 :: (x ++ 32 :: y)) = some (x.take 63, x.drop 63 ++ 32 :: y) := by
    rw [word_space]
    exact word_append (by decide) hxne (fun b hb => isSpace_of_isGraph (hx b hb)) (ends_space y)
  by_cases hle : x.length ≤ 63
  · have hword' : word 63 (32 :: y) = some (y.take 63, y.drop 63) := by
      have hcut : word 63 (y ++ []) = some (y.take 63, y.drop 63 ++ []) :=
        word_append (by decide) hyne (fun b hb => isSpace_of_isGraph (hy b hb)) ends_nil
      rw [word_space]
      simpa using hcut
    simp [scan, hword, List.drop_of_length_le hle, hword', strFields, hle]
  · have hdrop : x.drop 63 ≠ [] := by simpa [List.drop_eq_nil_iff] using hle
    have hword' : word 63 (x.drop 63 ++ 32 :: y) =
        some ((x.drop 63).take 63, (x.drop 63).drop 63 ++ 32 :: y) :=
      word_append (by decide) hdrop
        (fun b hb => isSpace_of_isGraph (hx b (List.mem_of_mem_drop hb))) (ends_space y)
    simp only [scan, hword, hword', strFields, if_neg hle]

/-- What a string command makes of its line. -/
theorem readSubmit_str {mode op x y : Bytes} {isBlocking : Bool} {o : StrOp}
    (hmode : IsMode mode isBlocking) (hop : IsStrToken op o) (hxne : x ≠ []) (hyne : y ≠ [])
    (hx : ∀ b ∈ x, isGraph b = true) (hy : ∀ b ∈ y, isGraph b = true) :
    readSubmit (commandLine mode op x y) =
      .command (.str isBlocking o (strFields x y).1 (strFields x y).2) := by
  have hstr : ∀ usage, readStr o usage (commandLine mode op x y) mode =
      .command (.str isBlocking o (strFields x y).1 (strFields x y).2) := by
    intro usage
    rw [readStr, scan_arguments hmode.isToken hop.isToken, scan_strFields hxne hyne hx hy,
      hmode.isBlockToken_eq]
  rw [readSubmit, scan_mode_op hmode.isToken hop.isToken]
  simp only [if_neg hmode.accepted]
  cases o with
  | strConcat | strFindStart =>
      simp only [insensitiveEquals_congr hop]
      exact hstr _
  | unrecognized => exact hop.elim

/-- The fields hold both arguments exactly when neither is cut. -/
theorem strFields_eq_iff {x y : Bytes} :
    (strFields x y).1 = x ∧ (strFields x y).2 = y ↔ x.length ≤ 63 ∧ y.length ≤ 63 := by
  simp only [strFields, List.take_eq_self_iff]
  constructor
  · rintro ⟨hx, hy⟩
    rw [if_pos hx, List.take_eq_self_iff] at hy
    exact ⟨hx, hy⟩
  · rintro ⟨hx, hy⟩
    rw [if_pos hx, List.take_eq_self_iff]
    exact ⟨hx, hy⟩

namespace Shell

/-- String arguments are sent as they are exactly when neither is longer than its field. -/
theorem strings_intact_iff (shell : Shell) {mode op x y rest : Bytes} {isBlocking : Bool}
    {o : StrOp} (hmode : IsMode mode isBlocking) (hop : IsStrToken op o) (hxne : x ≠ [])
    (hyne : y ≠ []) (hx : ∀ b ∈ x, isGraph b = true) (hy : ∀ b ∈ y, isGraph b = true)
    (hlength : (commandLine mode op x y).length ≤ 510) (hrest : EndsLine rest) :
    shell.sent (commandLine mode op x y ++ rest) =
        [(submitCall isBlocking (makeStr o x y)).envelope] ↔
      x.length ≤ 63 ∧ y.length ≤ 63 := by
  have hreading := shell.reading_commandLine hmode hop.isToken hx hy (by omega) hrest
  rw [readSubmit_str hmode hop hxne hyne hx hy] at hreading
  have hsent : shell.sent (commandLine mode op x y ++ rest) =
      [(submitCall isBlocking (makeStr o (strFields x y).1 (strFields x y).2)).envelope] := by
    rw [sent, hreading]
    rfl
  rw [hsent, ← strFields_eq_iff]
  cases isBlocking with
  | false => simp [submitCall, Call.envelope, makeStr]
  | true => simp [submitCall, Call.envelope, makeStr]

/-- `block concat hello world` is sent as it is. -/
theorem strings_intact_concat :
    ({} : Shell).sent (commandLine (ascii "block") (ascii "concat") (ascii "hello") (ascii "world") ++
        [10]) = [(submitCall true (makeStr .strConcat (ascii "hello") (ascii "world"))).envelope] ↔
      (ascii "hello").length ≤ 63 ∧ (ascii "world").length ≤ 63 :=
  strings_intact_iff {} (by decide) (by decide) (by decide) (by decide)
    (List.all_eq_true.mp (by decide)) (List.all_eq_true.mp (by decide)) (by decide)
    (by simp [EndsLine])

/-- In `block find` with a hay of 64 bytes, the last of them is sent as the needle. -/
theorem strings_not_intact :
    IsMode (ascii "block") true ∧ IsStrToken (ascii "find") .strFindStart ∧
      (commandLine (ascii "block") (ascii "find") (List.replicate 64 120) (ascii "y")).length ≤ 510 ∧
      ({} : Shell).sent (commandLine (ascii "block") (ascii "find") (List.replicate 64 120)
          (ascii "y") ++ [10]) =
        [(submitCall true (makeStr .strFindStart (List.replicate 63 120) (ascii "x"))).envelope] ∧
      ({} : Shell).sent (commandLine (ascii "block") (ascii "find") (List.replicate 64 120)
          (ascii "y") ++ [10]) ≠
        [(submitCall true (makeStr .strFindStart (List.replicate 64 120) (ascii "y"))).envelope] := by
  decide +kernel

end Shell

end InterProcess
