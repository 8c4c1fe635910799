import PacketTide.Effects.Proofs.ProgProofs
import PacketTide.Wire

/-!
# Rules for connections

What the calls of a party do to its end of the connection: only a written tag is vouched for, only a
checked tag is accepted, and reading a line touches nothing but the input.
-/

namespace PacketTide.Auth

open Effects FileSystem Prog Text

section Rules

variable {α : Type} {w : Wire}

theorem ends_failWith {Q : Except Stop α → Wire → Prop} {text : String}
    (h : Q (.error (.error (.message text))) w) : Ends wireMachine (failWith text) Q w := h

theorem ends_lift {r : Except Stop α} {Q : Except Stop α → Wire → Prop} (h : Q r w) :
    Ends wireMachine (Prog.lift r) Q w := h

theorem ends_require {value : Option α} {text : String} {Q : Except Stop α → Wire → Prop}
    (hnone : value = none → Q (.error (.error (.message text))) w)
    (hsome : ∀ a, value = some a → Q (.ok a) w) : Ends wireMachine (require value text) Q w := by
  cases value with
  | none => exact hnone rfl
  | some a => exact hsome a rfl

theorem ends_readByte {Q : Except Stop (Option UInt8) → Wire → Prop}
    (h : ∀ r input, Q r { w with input }) : Ends wireMachine readByte Q w := by
  obtain ⟨input, failures, draws, output, vouched, accepted⟩ := w
  rcases input with _ | ⟨e | b, input⟩
  · exact h (.ok none) []
  · exact h (.error (.error (.io e))) input
  · exact h (.ok (some b)) input

theorem ends_writeLine {line : Str} {Q : Except Stop Unit → Wire → Prop}
    (hfail : ∀ e failures, Q (.error (.error (.io e))) { w with failures })
    (hok : ∀ failures, Q (.ok ()) { w with failures, output := w.output ++ [line] }) :
    Ends wireMachine (writeLine line) Q w := by
  obtain ⟨input, failures, draws, output, vouched, accepted⟩ := w
  rcases failures with _ | ⟨_ | e, failures⟩
  · exact hok []
  · exact hok failures
  · exact hfail e failures

theorem ends_randomBytes {Q : Except Stop Hash → Wire → Prop}
    (hfail : Q (.error (.error (.io .other))) w)
    (hok : ∀ value draws, w.draws = value :: draws → Q (.ok value) { w with draws }) :
    Ends wireMachine randomBytes Q w := by
  obtain ⟨input, failures, draws, output, vouched, accepted⟩ := w
  rcases draws with _ | ⟨value, draws⟩
  · exact hfail
  · exact hok value draws rfl

/-- Reading a line touches only the input. -/
theorem ends_readLineFrom {Q : Except Stop Str → Wire → Prop} {n : Nat} {bytes : List UInt8}
    (h : ∀ r input, Q r { w with input }) : Ends wireMachine (readLineFrom n bytes) Q w := by
  induction n generalizing w bytes with
  | zero => exact h _ w.input
  | succ n ih =>
    refine ends_bind (ends_readByte fun r input => ?_)
    rcases r with e | _ | b
    · exact h _ input
    · exact h _ input
    · show Ends wireMachine (if b = newline then _ else _) Q _
      split
      · exact ends_require (fun _ => h _ input) fun _ _ => h _ input
      · split
        · exact h _ input
        · exact ih fun r input => h r input

theorem ends_readLineLimited {Q : Except Stop Str → Wire → Prop} {limit : Nat}
    (h : ∀ r input, Q r { w with input }) : Ends wireMachine (readLineLimited limit) Q w :=
  ends_readLineFrom h

variable [Sha256] {key : Hash} {message : List UInt8}

theorem ends_writeTagged {line : Str} {Q : Except Stop Unit → Wire → Prop}
    (hfail : ∀ e failures, Q (.error (.error (.io e))) { w with failures })
    (hok : ∀ failures output,
      Q (.ok ()) { w with failures, output, vouched := w.vouched ++ [(key, message)] }) :
    Ends wireMachine (writeTagged key message line) Q w := by
  refine ends_bind (ends_writeLine ?_ ?_)
  · intro e failures
    exact hfail e failures
  · intro failures
    exact hok failures _

theorem ends_checkTag {supplied : List UInt8} {text : String} {Q : Except Stop Unit → Wire → Prop}
    (hfail : Q (.error (.error (.message text))) w)
    (hok : constantTimeEq supplied (hmacSha256 key.bytes message).bytes = true →
      Q (.ok ()) { w with accepted := w.accepted ++ [(key, message)] }) :
    Ends wireMachine (checkTag key message supplied text) Q w := by
  unfold checkTag
  by_cases heq : constantTimeEq supplied (hmacSha256 key.bytes message).bytes = false
  · rw [if_pos heq]
    exact hfail
  · rw [if_neg heq]
    exact hok (by simpa using heq)

end Rules

end PacketTide.Auth
