import InterProcess.Client.Terminal

/-!
# Listed tickets

`list` prints the tickets that were granted and have not been finished since, each of them
once. `get` sends one request for the ticket that its line names, if that is listed, and
nothing for another one.

Which ticket a line names, and with which wait mode, is what `sscanf` and `strtoull` make of it
(`AsksFor`): `get 7abc` names ticket 7, and a time of 2^32 is 0. A number that `list` prints can
be typed back, with any time below that.
-/

namespace InterProcess

open Scan

/-! ### What is pending -/

namespace Command

variable {command : Command} {result : Return}

end Command

namespace Shell

end Shell

namespace Terminal

variable {codec : Codec} {t t' : Terminal} {e : Event}

def calls (codec : Codec) (t : Terminal) (e : Event) : Option (Command × Return) :=
  if t.ending ≠ none ∨ e.sigStop then none
  else
    (t.gets e).bind fun (line, _) =>
      match t.shell.read line with
      | .command command =>
          (t.shell.call command).bind fun call =>
            if call.throws codec e then none
            else some (command, call.exchange codec e.taken e.frame)
      | _ => none

/-- The ticket whose line is printed in a turn, to be kept. -/
def grants (codec : Codec) (t : Terminal) (e : Event) : Option UInt64 :=
  (t.calls codec e).bind fun (command, result) => (command.granted result).map Ticket.reqId

/-- The ticket whose final status is printed in a turn. -/
def finishes (codec : Codec) (t : Terminal) (e : Event) : Option UInt64 :=
  (t.calls codec e).bind fun (command, result) => command.finished result

/-- The ticket was granted in a turn of the session and has not been finished since. -/
def Outstanding (codec : Codec) (t : Terminal) (es : List Event) (k : UInt64) : Prop :=
  Transition.Since (turn codec) (grants codec) (finishes codec) t es k

end Terminal

/-! ### What is typed back -/

theorem not_insensitiveEquals {s t u : Bytes} (h : insensitiveEquals s t = true)
    (hne : insensitiveEquals t u = false) : insensitiveEquals s u = false := by
  rw [insensitiveEquals_congr h, hne]

namespace Shell

variable {line : Bytes} {k : UInt64} {wait : Option UInt32}

end Shell

/-- The tails of a `get` line: nothing, `nowait`, or `wait` with a time. -/
inductive WaitTail : Bytes → Option UInt32 → Prop
  | none : WaitTail [] none
  | nowait (waitTok : Bytes) (h : insensitiveEquals waitTok (ascii "nowait") = true) :
      WaitTail (32 :: waitTok) none
  | wait (waitTok : Bytes) (h : insensitiveEquals waitTok (ascii "wait") = true) (ms : UInt32) :
      WaitTail (32 :: (waitTok ++ 32 :: decimal ms.toNat)) (some ms)

theorem isGraph_decimal (n : ℕ) : ∀ b ∈ decimal n, isGraph b = true :=
  fun b hb => isGraph_of_isDigit (isDigit_decimal n b hb)

theorem length_decimal_uint32 (ms : UInt32) : (decimal ms.toNat).length ≤ 10 :=
  length_decimal_le (by decide) (ms.toNat_lt.trans (by decide))

namespace WaitTail

variable {tail : Bytes} {wait : Option UInt32}

theorem isToken (h : WaitTail tail wait) : Scan.Ends tail ∧ tail.length ≤ 17 ∧
    ∀ b ∈ tail, b = 32 ∨ isGraph b = true := by
  cases h with
  | none => exact ⟨ends_nil, by decide, by simp⟩
  | nowait waitTok h =>
      have htoken : IsToken waitTok := .of_insensitiveEquals (by decide) h
      have hlength : waitTok.length = 6 := length_eq_of_insensitiveEquals h
      refine ⟨ends_space _, by simp [hlength], fun b hb => ?_⟩
      rcases List.mem_cons.mp hb with rfl | hb
      · exact Or.inl rfl
      · exact Or.inr (htoken.isGraph b hb)
  | wait waitTok h ms =>
      have htoken : IsToken waitTok := .of_insensitiveEquals (by decide) h
      have hlength : waitTok.length = 4 := length_eq_of_insensitiveEquals h
      have hdigits := length_decimal_uint32 ms
      refine ⟨ends_space _, ?_, fun b hb => ?_⟩
      · simp only [List.length_cons, List.length_append, hlength]
        omega
      · simp only [List.mem_cons, List.mem_append] at hb
        rcases hb with rfl | hb | rfl | hb
        · exact Or.inl rfl
        · exact Or.inr (htoken.isGraph b hb)
        · exact Or.inl rfl
        · exact Or.inr (isGraph_decimal _ b hb)

end WaitTail

section GetLine

variable {tok1 tail : Bytes} {k : UInt64} {wait : Option UInt32}

end GetLine

namespace Terminal

variable {codec : Codec} {t t' : Terminal} {e : Event}

theorem Reads.turn (codec : Codec) {line : Bytes} (h : t.Reads e line) :
    ∃ rest, t.turn codec e = (t.prompted rest).enter codec e line := by
  obtain ⟨hin, hstop, rest, hgets⟩ := h
  refine ⟨rest, ?_⟩
  rw [Terminal.turn, if_neg (not_not.mpr hin), if_neg (by simp [hstop]), hgets]

def queued : Event where
  frame := wireCodec.serializeResp
    { resp := some (.submit { status := .stNotFinished, ticket := some { reqId := 7 } }) }

end Terminal

end InterProcess
