import PacketTide.Control

/-!
# Lines sent and collected

Payloads that fit into frames are sent, and lines are put together again as they were.
-/

namespace PacketTide

open Text

/-- While no write fails, payloads that fit are all sent. -/
theorem sendAll_eq_ok {payloads : List Str} (h : ∀ p ∈ payloads, controlPayload p)
    (sent : List Str) : sendAll ⟨sent, []⟩ payloads = .ok ⟨sent ++ payloads, []⟩ := by
  induction payloads generalizing sent with
  | nil => rw [sendAll, List.append_nil]
  | cons payload payloads ih =>
    obtain ⟨hp, h⟩ := List.forall_mem_cons.1 h
    have hsend : ControlWriter.send ⟨sent, []⟩ payload = .ok ⟨sent ++ [payload], []⟩ := by
      simp [ControlWriter.send, hp]
    rw [sendAll, hsend]
    dsimp only
    rw [ih h, List.append_assoc, List.singleton_append]

/-- Lines within the limit are collected into their text. -/
theorem collectLines_eq_ok {limit : Nat} (tooLong : String) {parts : List Str} (rest : List Str)
    {acc : Str} (h : (acc ++ parts.flatMap (· ++ [newline])).length ≤ limit) :
    collectLines limit tooLong parts.length acc (parts ++ rest) =
      .ok (acc ++ parts.flatMap (· ++ [newline]), rest) := by
  induction parts generalizing acc with
  | nil => simp [collectLines]
  | cons part parts ih =>
    have hassoc : acc ++ (part :: parts).flatMap (· ++ [newline]) =
        (acc ++ part ++ [newline]) ++ parts.flatMap (· ++ [newline]) := by simp
    rw [hassoc] at h ⊢
    have hstep : ¬ acc.length + part.length + 1 > limit := by
      simp only [List.length_append, List.length_singleton] at h
      omega
    rw [List.length_cons, List.cons_append, collectLines, if_neg hstep]
    exact ih h

/-- What is collected is the text of as many lines as were asked for. -/
theorem collectLines_ok {limit n : Nat} {tooLong : String} {acc text : Str} {payloads rest : List Str}
    (h : collectLines limit tooLong n acc payloads = .ok (text, rest)) :
    text = acc ++ (payloads.take n).flatMap (· ++ [newline]) := by
  induction n generalizing acc payloads with
  | zero =>
    cases h
    rw [List.take_zero, List.flatMap_nil, List.append_nil]
  | succ n ih =>
    rcases payloads with _ | ⟨line, payloads⟩
    · cases h
    · rw [collectLines] at h
      split at h
      · cases h
      · rw [ih h, List.take_succ_cons, List.flatMap_cons, List.append_assoc, List.append_assoc,
          List.append_assoc]

theorem expectLine_self (expected : Str) (mismatch : String) (payloads : List Str) :
    expectLine expected mismatch (expected :: payloads) = .ok payloads := by
  rw [expectLine, if_pos rfl]

end PacketTide
