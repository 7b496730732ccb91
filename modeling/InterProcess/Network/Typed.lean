import InterProcess.Client.Output
import InterProcess.Network.Answers
import InterProcess.Network.Redemption
import InterProcess.Runner.Arithmetic
import InterProcess.Runner.Strings

/-!
# From a typed line to a printed text

What a user sees, end to end. A `Question` is what the loop makes of a line that asks for an
operation: the operands are the `int`s that `sscanf` has stored, and the strings those that fit
their fields. `Shows` is which text is an answer to it: the result over the integers, of which
the low 32 bits are printed, or over strings of any kind. `Typed` are the lines of four words
that ask.

The text that is printed for a line is the answer to its question, whether it comes with the
reply to the line itself or later for a ticket, and whatever else the clients and the workers
did in between. Only the line `No result set` is not printed for a ticket.
-/

namespace InterProcess

open Transition Scan Narrow Occurrence

/-- What a line asks for. -/
inductive Question where
  | math (op : MathOp) (a b : Int32)
  | str (op : StrOp) (s1 s2 : Bytes)

namespace Question

def command (isBlocking : Bool) : Question → Command
  | .math op a b => .math isBlocking op a b
  | .str op s1 s2 => .str isBlocking op s1 s2

/-- The request that is made for it, in the form in which its call takes it. -/
def request : Question → SubmitRequest
  | .math op a b => makeMath op a b
  | .str op s1 s2 => makeStr op s1 s2

def required : Question → UInt8
  | .math .mathAdd _ _ => ExecFunFlags.add
  | .math .mathSub _ _ => ExecFunFlags.sub
  | .math .mathMul _ _ => ExecFunFlags.mult
  | .math .mathDiv _ _ => ExecFunFlags.div
  | .str .strConcat _ _ => ExecFunFlags.concat
  | .str .strFindStart _ _ => ExecFunFlags.findStart
  | .math (.unrecognized _ _) _ _ | .str (.unrecognized _ _) _ _ => 0

/-- The text answers the question. What follows an error is `unset`. -/
inductive Shows (unset : Bytes) : Question → Bytes → Prop
  | value (op : MathOp) (a b : Int32) (z : ℤ) (h : op.exact a.toInt b.toInt = some z) :
      Shows unset (.math op a b)
        (ascii "Result: Int=" ++ signedDecimal (z.bmod (2 ^ 32)) ++ ascii "\n")
  | divByZero (op : MathOp) (a b : Int32) (h : op.exact a.toInt b.toInt = none) :
      Shows unset (.math op a b) (ascii "IPC Error: [ERROR_DIV_BY_ZERO]\n" ++ unset)
  | concat (x y : Bytes) (h : x.length + y.length ≤ 32) :
      Shows unset (.str .strConcat x y) (ascii "Result: Str=" ++ cString (x ++ y) ++ ascii "\n")
  | tooLong (x y : Bytes) (h : ¬x.length + y.length ≤ 32) :
      Shows unset (.str .strConcat x y) (ascii "IPC Error: [ERROR_STRING_TOO_LONG]\n" ++ unset)
  | found (x y : Bytes) (i : ℕ) (h : FirstAt y x i) :
      Shows unset (.str .strFindStart x y) (ascii "Result: Pos=" ++ signedDecimal i ++ ascii "\n")
  | notFound (x y : Bytes) (h : ∀ i, ¬OccursAt y x i) :
      Shows unset (.str .strFindStart x y)
        (ascii "IPC Error: [ERROR_SUBSTR_NOT_FOUND]\n" ++ unset)

/-- A result that is an `int32` is printed as it is. -/
theorem Shows.exact {unset text : Bytes} {op : MathOp} {a b : Int32} {z : ℤ}
    (h : Shows unset (.math op a b) text) (hz : op.exact a.toInt b.toInt = some z)
    (hfits : Fits z) : text = ascii "Result: Int=" ++ signedDecimal z ++ ascii "\n" := by
  cases h with
  | value _ _ _ y hy =>
      obtain rfl := Option.some.inj (hz.symm.trans hy)
      rw [(bmod_eq_iff z).mpr hfits]
  | divByZero _ _ _ hnone =>
      rw [hz] at hnone
      cases hnone

end Question

/-- The line of four words asks the question in this mode. The numerals are stored as `sscanf`
stores them, and the strings cut to their fields. -/
inductive Typed : Bytes → Bool → Question → Prop
  | math {mode op x y : Bytes} {isBlocking : Bool} {m : MathOp} {a b : ℤ}
      (hmode : IsMode mode isBlocking) (hop : IsMathToken op m) (hx : IsNumeral x a)
      (hy : IsNumeral y b) :
      Typed (commandLine mode op x y) isBlocking (.math m (storeInt a) (storeInt b))
  | str {mode op x y : Bytes} {isBlocking : Bool} {o : StrOp} (hmode : IsMode mode isBlocking)
      (hop : IsStrToken op o) (hx : x ≠ []) (hy : y ≠ []) (hxgraph : ∀ b ∈ x, isGraph b = true)
      (hygraph : ∀ b ∈ y, isGraph b = true) :
      Typed (commandLine mode op x y) isBlocking (.str o (strFields x y).1 (strFields x y).2)

theorem Typed.read {line : Bytes} {isBlocking : Bool} {q : Question}
    (h : Typed line isBlocking q) (shell : Shell) :
    shell.read line = .command (q.command isBlocking) := by
  cases h with
  | math hmode hop hx hy =>
      rw [Shell.read_commandLine shell hmode hop.isToken, readSubmit_math hmode hop hx hy]
      rfl
  | str hmode hop hx hy hxgraph hygraph =>
      rw [Shell.read_commandLine shell hmode hop.isToken,
        readSubmit_str hmode hop hx hy hxgraph hygraph]
      rfl

/-- What is known of a question that a line has asked. -/
inductive Question.Asked : Question → Prop
  | math (op : MathOp) (a b : Int32) (hop : ∀ number h, op ≠ .unrecognized number h) :
      Asked (.math op a b)
  | str (op : StrOp) (s1 s2 : Bytes) (hop : ∀ number h, op ≠ .unrecognized number h)
      (hlength : s1.length ≤ 63) : Asked (.str op s1 s2)

theorem asked_of_readMath {line mode op : Bytes} {isBlocking : Bool} {q : Question}
    (h : readMath line mode op = .command (q.command isBlocking)) : q.Asked := by
  unfold readMath at h
  split at h
  · cases q with
    | math m a b =>
        refine .math m a b fun number hnumber hm => ?_
        subst hm
        simp only [Question.command, Reading.command.injEq, Command.math.injEq] at h
        have hop := h.2.1
        split at hop
        · cases hop
        · split at hop
          · cases hop
          · split at hop <;> cases hop
    | str => simp [Question.command] at h
  · cases h

theorem asked_of_readStr {line mode usage : Bytes} {o : StrOp} {isBlocking : Bool} {q : Question}
    (ho : ∀ number h, o ≠ .unrecognized number h)
    (h : readStr o usage line mode = .command (q.command isBlocking)) : q.Asked := by
  unfold readStr at h
  split at h
  · next s1 s2 hscan =>
      cases q with
      | math => simp [Question.command] at h
      | str op x y =>
          simp only [Question.command, Reading.command.injEq, Command.str.injEq] at h
          obtain ⟨-, rfl, rfl, rfl⟩ := h
          have hmem : .word s1 ∈ scan [.skip 31, .skip 31, .word 63, .word 63] line := by
            rw [hscan]
            exact List.mem_cons_self
          obtain ⟨width, hwidth, hle⟩ := length_le_of_mem_scan hmem
          obtain rfl : width = 63 := by simpa using hwidth
          exact .str _ _ _ ho hle
  · cases h

theorem Shell.readGet_cases (shell : Shell) (line : Bytes) :
    (∃ text, shell.readGet line = .say text) ∨
      ∃ k wait, shell.readGet line = .command (.get k wait) := by
  unfold readGet
  split
  · dsimp only
    split
    · exact Or.inl ⟨_, rfl⟩
    · split
      · split
        · exact Or.inr ⟨_, _, rfl⟩
        · split
          · split
            · exact Or.inr ⟨_, _, rfl⟩
            · exact Or.inr ⟨_, _, rfl⟩
          · exact Or.inl ⟨_, rfl⟩
      · exact Or.inr ⟨_, _, rfl⟩
  · exact Or.inl ⟨_, rfl⟩

/-- A line that is read as an operation asks for one that there is. -/
theorem asked_of_read {shell : Shell} {line : Bytes} {isBlocking : Bool} {q : Question}
    (h : shell.read line = .command (q.command isBlocking)) : q.Asked := by
  have hget : shell.readGet line ≠ .command (q.command isBlocking) := by
    rcases Shell.readGet_cases shell line with ⟨text, hsay⟩ | ⟨k, wait, hget⟩
    · simp [hsay]
    · cases q <;> simp [hget, Question.command]
  have hsubmit : readSubmit line = .command (q.command isBlocking) := by
    unfold Shell.read at h
    split at h
    · cases h
    · split at h
      · cases q <;> cases h
      · split at h
        · cases h
        · split at h
          · split at h
            · exact absurd h hget
            · split at h
              · cases h
              · exact h
          · cases h
  unfold readSubmit at hsubmit
  split at hsubmit
  · split at hsubmit
    · cases hsubmit
    · split at hsubmit
      · exact asked_of_readMath hsubmit
      · split at hsubmit
        · exact asked_of_readStr (by simp) hsubmit
        · split at hsubmit
          · exact asked_of_readStr (by simp) hsubmit
          · cases hsubmit
  · cases hsubmit

def outcomeText (unset : Bytes) (outcome : Status × Result) : Bytes :=
  handleIpcError outcome.1 ++ printValue unset outcome.2

theorem shows_of_runMath {m : MathOp} {a b : Int32} (hm : ∀ number h, m ≠ .unrecognized number h)
    {outcome : Status × Result} (h : runMath { op := m, a, b } {} = some outcome) (unset : Bytes) :
    Question.Shows unset (.math m a b) (outcomeText unset outcome) := by
  have hvalue : ∀ {value : Int32} {z : ℤ}, m.exact a.toInt b.toInt = some z →
      value.toInt = z.bmod (2 ^ 32) →
        Question.Shows unset (.math m a b)
          (outcomeText unset (.stSuccess, { value := some (.intResult value) })) := by
    intro value z hexact hvalue
    have hshows := @Question.Shows.value unset m a b z hexact
    rwa [← hvalue] at hshows
  cases m with
  | mathAdd =>
      obtain rfl := Option.some.inj h
      exact hvalue rfl (Int32.toInt_add a b)
  | mathSub =>
      obtain rfl := Option.some.inj h
      exact hvalue rfl (Int32.toInt_sub a b)
  | mathMul =>
      obtain rfl := Option.some.inj h
      exact hvalue rfl (Int32.toInt_mul a b)
  | mathDiv =>
      by_cases hzero : b = 0
      · subst hzero
        obtain rfl := Option.some.inj h
        exact .divByZero .mathDiv a 0 rfl
      · have hexact : MathOp.mathDiv.exact a.toInt b.toInt = some (a.toInt.tdiv b.toInt) :=
          if_neg fun hstore => hzero (Int32.toInt_inj.mp hstore)
        simp only [runMath, if_neg hzero, intDiv] at h
        split at h
        · cases h
        · next hdefined =>
            obtain rfl := Option.some.inj h
            have hdiv : (a / b).toInt = a.toInt.tdiv b.toInt :=
              toInt_div fun htrap => hdefined (Or.inr htrap)
            refine hvalue hexact ?_
            rw [← hdiv, (bmod_eq_iff _).mpr (fits_toInt _)]
  | unrecognized number hnumber => exact absurd rfl (hm number hnumber)

theorem shows_of_runStr {o : StrOp} {x y : Bytes} (ho : ∀ number h, o ≠ .unrecognized number h)
    (hlength : x.length ≤ 63) (unset : Bytes) :
    Question.Shows unset (.str o x y) (outcomeText unset (runStr { op := o, s1 := x, s2 := y } {})) := by
  cases o with
  | strConcat =>
      have hsum : (x ++ y).length = x.length + y.length := List.length_append
      by_cases hshort : x.length + y.length ≤ 32
      · have hrun : runStr { op := .strConcat, s1 := x, s2 := y } {} =
            (.stSuccess, { value := some (.strResult (x ++ y)) }) := by
          simp only [runStr, hsum, if_neg (Nat.not_lt.mpr hshort)]
        rw [hrun]
        exact .concat x y hshort
      · have hrun : runStr { op := .strConcat, s1 := x, s2 := y } {} =
            (.stErrorStringTooLong, {}) := by
          simp only [runStr, hsum, if_pos (Nat.not_le.mp hshort)]
        rw [hrun]
        exact .tooLong x y hshort
  | strFindStart =>
      cases hfind : stringFind y x with
      | none =>
          have hrun : runStr { op := .strFindStart, s1 := x, s2 := y } {} =
              (.stErrorSubstrNotFound, {}) := by simp [runStr, hfind]
          rw [hrun]
          exact .notFound x y (stringFind_eq_none.mp hfind)
      | some pos =>
          have hfirst := stringFind_eq_some.mp hfind
          have hpos : (Int32.ofNat pos).toInt = pos :=
            Int32.toInt_ofNat_of_lt (by have := hfirst.1.le; omega)
          have hrun : runStr { op := .strFindStart, s1 := x, s2 := y } {} =
              (.stSuccess, { value := some (.position (Int32.ofNat pos)) }) := by
            simp [runStr, hfind]
          have h : Question.Shows unset _ _ := .found x y pos hfirst
          rw [← hpos] at h
          rw [hrun]
          exact h
  | unrecognized number hnumber => exact absurd rfl (ho number hnumber)

namespace Question

variable {q : Question}

theorem Asked.flag (h : q.Asked) (mode : SubmitMode) (caps : UInt8) :
    clientHasCapabilityFor { q.request with mode } caps = (caps &&& q.required != 0) := by
  cases h with
  | math op a b hop =>
      cases op with
      | mathAdd | mathSub | mathMul | mathDiv => rfl
      | unrecognized number hnumber => exact absurd rfl (hop number hnumber)
  | str op s1 s2 hop =>
      cases op with
      | strConcat | strFindStart => rfl
      | unrecognized number hnumber => exact absurd rfl (hop number hnumber)

theorem Asked.shows (h : q.Asked) {outcome : Status × Result}
    (houtcome : evaluate q.request = some outcome) (unset : Bytes) :
    q.Shows unset (outcomeText unset outcome) := by
  cases h with
  | math op a b hop => exact shows_of_runMath hop houtcome unset
  | str op s1 s2 hop hlength =>
      obtain rfl := Option.some.inj houtcome
      exact shows_of_runStr hop hlength unset

theorem call_command (shell : Shell) (isBlocking : Bool) :
    shell.call (q.command isBlocking) = some (submitCall isBlocking q.request) := by
  cases q <;> rfl

end Question

/-! ### What is printed -/

theorem printSubmit_outcome (status : Status) (result : Result) :
    printSubmit { status, result := some result } =
      outcomeText (ascii "No result set\n") (status, result) := by
  simp [printSubmit, outcomeText]

theorem printGet_outcome (status : Status) (result : Result) :
    printGet { status, result := some result } = outcomeText [] (status, result) := rfl

theorem Call.submit_of_ok {codec : Codec} {call : Call} {frame : Option Bytes} {isBlocking : Bool}
    {request : SubmitRequest} (hcall : call = submitCall isBlocking request)
    (hok : (call.finish codec frame).ok = true) : ∃ out, call.finish codec frame = .submit true out := by
  subst hcall
  cases isBlocking <;>
  · simp only [submitCall, Bool.false_eq_true, if_false, if_true, finish] at hok ⊢
    split at hok
    · simp at hok
    · split at hok <;> simp_all

namespace Network

/-- Under a steady clock: what is printed for a line that is read as an operation, by a call
that took its own reply, is the answer to its question if the mask of the client permits it, in
the non-blocking mode the ticket, and then for the ticket the answer. -/
theorem typed_printed (codec : Codec) (hcodec : codec.Lawful) (n : ℕ) (ls : List Label) (s : Network)
    (hrun : run (step codec) (start n) ls = some s)
    (hclock : SteadyClock s.server.mAlgoRunner.readings) {line : Bytes} {isBlocking : Bool}
    {q : Question} {shell : Shell} (hread : shell.read line = .command (q.command isBlocking))
    {c : Completed} (hc : c ∈ s.completed)
    (hcall : shell.call (q.command isBlocking) = some c.ongoing.call)
    (hclean : c.ongoing.clean = true) (hok : c.result.ok = true) :
    ∃ execFunFlags, (∀ flags, .init c.client flags ∈ ls ↔ flags = execFunFlags) ∧
      if execFunFlags &&& q.required = 0 then
        (q.command isBlocking).prints c.result = ascii "IPC Error: [ERROR_INVALID_INPUT]\n"
      else if isBlocking then
        q.Shows (ascii "No result set\n") ((q.command isBlocking).prints c.result)
      else ∃ ticket,
        (q.command isBlocking).prints c.result =
            ascii "IPC Info: [NOT_FINISHED]\n" ++ ticketLine ticket ∧
          ∀ d ∈ s.completed, d.ongoing.clean = true → ∀ status result,
            d.Redeems ticket.reqId status result → ∀ command' : Command,
              q.Shows [] (command'.prints d.result) := by
  have hasked : q.Asked := asked_of_read hread
  have hsubmit : c.ongoing.call = submitCall isBlocking q.request :=
    Option.some.inj (hcall.symm.trans (q.call_command shell isBlocking))
  have horderly := run_invariant orderly_step (orderly_start codec n) hrun
  have hpaired := horderly.own c hc hok hclean
  obtain ⟨bytes, -, hfinish⟩ := hpaired.sent
  obtain ⟨out, hout⟩ := Call.submit_of_ok hsubmit (hfinish ▸ hok)
  have hresult : c.result = .submit true out := hfinish.trans hout
  obtain ⟨ms, hknown⟩ := known_of_run hcodec hrun
  have hreq : c.ongoing.call.envelope.req = some (.submit
      { q.request with mode := if isBlocking then .blocking else .nonblocking }) := by
    rw [hsubmit]
    cases isBlocking <;> rfl
  obtain ⟨execFunFlags, hflags, hanswered⟩ := hknown.answered hcodec hpaired hreq hresult
  refine ⟨execFunFlags, hflags, ?_⟩
  rw [SubmitRequest.AnsweredBy, hasked.flag] at hanswered
  rw [hresult]
  split
  · next hflag =>
      rw [hflag, if_neg (by decide)] at hanswered
      rw [hanswered]
      rfl
  · next hflag =>
      rw [if_pos (by simpa using hflag)] at hanswered
      cases isBlocking with
      | true =>
          rw [if_pos rfl]
          have hrun : runBlocking { q.request with mode := .blocking } = some out := hanswered
          rw [runBlocking_eq] at hrun
          obtain ⟨⟨status, result⟩, houtcome, rfl⟩ := Option.map_eq_some_iff.mp hrun
          show q.Shows _ (printSubmit _)
          rw [printSubmit_outcome]
          exact hasked.shows houtcome _
      | false =>
          rw [if_neg (by decide)]
          obtain ⟨ticket, rfl⟩ : ∃ ticket, out = { status := .stNotFinished, ticket := some ticket } :=
            hanswered
          refine ⟨ticket, List.append_nil _, fun d hd hdclean status result hredeems command' => ?_⟩
          obtain ⟨visits, desk, hordered⟩ := ordered_of_run hcodec hrun hclock
          have houtcome := hordered.evaluate_of_redeems hrun hc hd hclean hdclean
            ⟨hsubmit, _, ticket, hresult, rfl, rfl⟩ hredeems
          obtain ⟨_, _, _, -, -, hdresult⟩ := hredeems
          rw [hdresult]
          show q.Shows _ (printGet _)
          rw [printGet_outcome]
          exact hasked.shows houtcome []

/-- What is printed for `async add 2 3` and then for its ticket. -/
theorem typed_printed_redeemed :
    ∃ s c d ticket, run (step wireCodec) (start 1) redeemed = some s ∧ c ∈ s.completed ∧
      d ∈ s.completed ∧
      (Command.math false .mathAdd 2 3).prints c.result =
        ascii "IPC Info: [NOT_FINISHED]\n" ++ ticketLine ticket ∧
      Question.Shows [] (.math .mathAdd 2 3) ((Command.get ticket.reqId none).prints d.result) := by
  obtain ⟨s, hs, htest⟩ := exists_of_run_any (step wireCodec) (start 1) redeemed
    (fun s => s.server.mAlgoRunner.readings = [5] ∧
      (s.completed.any fun c =>
        c.ongoing = ⟨.submitNonBlocking (Server.addBlocking 2 3), 1, true⟩ ∧
          c.client = List.replicate 8 65 ∧ c.result = .submit true
            { status := .stNotFinished, ticket := some { reqId := ticketId 5 0 } }) ∧
      s.completed.any fun d =>
        d.ongoing = ⟨.getResult { reqId := ticketId 5 0 } .noWait 0, 2, true⟩ ∧
          d.result = .get true
            { status := .stSuccess, result := some { value := some (.intResult 5) } })
    (by decide +kernel)
  simp only [decide_eq_true_eq, List.any_eq_true] at htest
  obtain ⟨hreadings, ⟨c, hc, hcongoing, hclient, hcresult⟩, d, hd, hdongoing, hdresult⟩ := htest
  have hclock : SteadyClock s.server.mAlgoRunner.readings := by
    rw [hreadings]
    exact ⟨List.pairwise_singleton _ _, by simp, fun a => List.count_le_length.trans (by simp)⟩
  have htyped : Typed (commandLine (ascii "async") (ascii "add") (ascii "2") (ascii "3")) false
      (.math .mathAdd (storeInt 2) (storeInt 3)) :=
    .math (by decide) (by decide) ⟨none, ascii "2", by decide, by decide, by decide, by decide⟩
      ⟨none, ascii "3", by decide, by decide, by decide, by decide⟩
  rw [show storeInt 2 = 2 by decide, show storeInt 3 = 3 by decide] at htyped
  obtain ⟨execFunFlags, hflags, hprinted⟩ := typed_printed wireCodec wireCodec_lawful 1 redeemed s hs
    hclock (htyped.read {}) hc (by rw [hcongoing]; rfl) (by rw [hcongoing]) (by rw [hcresult]; rfl)
  have hmask : (1 : UInt8) = execFunFlags := (hflags 1).mp (by rw [hclient]; decide)
  subst hmask
  rw [if_neg (by decide), if_neg (by decide)] at hprinted
  obtain ⟨ticket, hticket, hget⟩ := hprinted
  have hline : ticketLine { reqId := ticketId 5 0 } = ticketLine ticket := by
    rw [hcresult] at hticket
    exact List.append_cancel_left ((List.append_nil _).symm.trans hticket)
  obtain rfl := ticketLine_injective hline
  exact ⟨s, c, d, _, hs, hc, hd, hticket, hget d hd (by rw [hdongoing]) .stSuccess
    { value := some (.intResult 5) } ⟨_, .noWait, 0, by rw [hdongoing], rfl, hdresult⟩ _⟩

end Network

end InterProcess
