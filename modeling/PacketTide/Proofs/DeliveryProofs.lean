import PacketTide.Proofs.ChannelProofs

/-!
# What the control channel delivers

A writer refuses newlines but lets carriage returns pass, and a reader stops at them. All other payloads
arrive as they were sent.
-/

namespace PacketTide.Auth

open Effects FileSystem Prog Text

section Delivery

variable [Sha256] {auth : SessionAuth} {direction : Direction} {payload : Str} {payloads : List Str} {w t : Wire}
  {channel channel' : Channel}

/-- The frames of payloads from a place on. -/
def framesFrom (auth : SessionAuth) (direction : Direction) : Nat → List Str → List Str
  | _, [] => []
  | n, payload :: payloads => frameLine auth direction n payload :: framesFrom auth direction (n + 1) payloads

/-! ## Sending -/

/-- A payload that has been sent fits into a frame, and the frame has been written. -/
theorem sent_of_run_send {writer writer' : ControlWriter}
    (h : (writer.send payload).run wireMachine w = (.ok writer', t)) :
    controlPayload payload ∧ writer.sequence + 1 < 2 ^ 64 ∧
      writer' = { writer with sequence := writer.sequence + 1 } ∧
      t.output = w.output ++ [frameLine writer.auth writer.direction writer.sequence payload] := by
  unfold ControlWriter.send at h
  by_cases hpayload : controlPayload payload
  · rw [if_neg (not_not.2 hpayload)] at h
    obtain ⟨input, failures, draws, output, vouched, accepted⟩ := w
    have hok : ∀ failures' : List (Option Errno), (writeTagged (writer.auth.controlKey writer.direction)
        (controlMacInput writer.auth.session writer.direction writer.sequence payload)
        (ascii "A " ++ decimal writer.sequence ++ space :: payload ++ [space])).run wireMachine
          ⟨input, failures, draws, output, vouched, accepted⟩ = (.ok (), ⟨input, failures', draws,
            output ++ [frameLine writer.auth writer.direction writer.sequence payload],
            vouched ++ [(writer.auth.controlKey writer.direction,
              controlMacInput writer.auth.session writer.direction writer.sequence payload)], accepted⟩) →
        controlPayload payload ∧ writer.sequence + 1 < 2 ^ 64 ∧
          writer' = { writer with sequence := writer.sequence + 1 } ∧
          t.output = output ++ [frameLine writer.auth writer.direction writer.sequence payload] := by
      intro failures' hwrite
      rw [run_bind_ok hwrite] at h
      by_cases hlast : 2 ^ 64 ≤ writer.sequence + 1
      · rw [if_pos hlast] at h
        cases h
      · rw [if_neg hlast] at h
        cases h
        exact ⟨hpayload, Nat.lt_of_not_le hlast, rfl, rfl⟩
    rcases failures with _ | ⟨_ | e, failures⟩
    · exact hok [] rfl
    · exact hok failures rfl
    · cases h
  · rw [if_pos hpayload] at h
    cases h

/-- A step of a writer sends the payload, or changes nothing. -/
theorem step_send_cases (h : (channel.step (.send payload)).run wireMachine w = (.ok channel', t)) :
    (controlPayload payload ∧ channel.writer.sequence + 1 < 2 ^ 64 ∧
        channel' = { channel with
          writer := { channel.writer with sequence := channel.writer.sequence + 1 }
          sent := channel.sent ++ [payload] } ∧
        t.output = w.output ++
          [frameLine channel.writer.auth channel.writer.direction channel.writer.sequence payload]) ∨
      channel' = channel := by
  rcases hsend : (channel.writer.send payload).run wireMachine w with ⟨e | writer, u⟩
  · have hattempt : ((channel.writer.send payload).attempt : WireProg _).run wireMachine w =
        (.ok (.error e), u) := by
      rw [run_attempt, hsend]
    rw [Channel.step, run_bind_ok hattempt] at h
    cases h
    exact .inr rfl
  · obtain ⟨hpayload, hlt, rfl, houtput⟩ := sent_of_run_send hsend
    rw [run_step_send hsend] at h
    cases h
    exact .inl ⟨hpayload, hlt, rfl, houtput⟩

/-- What has been written when all payloads have been sent. -/
theorem run_sends (hlt : channel.writer.sequence < 2 ^ 64)
    (h : (channel.converse (payloads.map .send)).run wireMachine w = (.ok channel', t)) :
    channel'.sent.length ≤ channel.sent.length + payloads.length ∧
      (channel'.sent = channel.sent ++ payloads → (∀ payload ∈ payloads, controlPayload payload) ∧
        channel.writer.sequence + payloads.length < 2 ^ 64 ∧
        t.output = w.output ++
          framesFrom channel.writer.auth channel.writer.direction channel.writer.sequence payloads) := by
  induction payloads generalizing channel w with
  | nil =>
    cases h
    exact ⟨Nat.le_refl _, fun _ => ⟨fun _ h => (nomatch h), hlt, (List.append_nil _).symm⟩⟩
  | cons payload payloads ih =>
    rw [List.map_cons, Channel.converse, run_bind] at h
    rcases hstep : (channel.step (.send payload)).run wireMachine w with ⟨e | next, u⟩
    · rw [hstep] at h
      cases h
    rw [hstep] at h
    rcases step_send_cases hstep with ⟨hpayload, hnext, rfl, houtput⟩ | rfl
    · obtain ⟨hlength, hall⟩ := ih hnext h
      rw [List.length_append, List.length_singleton] at hlength
      refine ⟨?_, fun hsent => ?_⟩
      · rw [List.length_cons]
        omega
      · rw [List.append_assoc, List.singleton_append] at hall
        obtain ⟨hpayloads, hsequence, hframes⟩ := hall hsent
        refine ⟨List.forall_mem_cons.2 ⟨hpayload, hpayloads⟩, ?_, ?_⟩
        · rw [List.length_cons]
          have hsum : channel.writer.sequence + 1 + payloads.length < 2 ^ 64 := hsequence
          omega
        · rw [hframes, houtput, List.append_assoc]
          rfl
    · obtain ⟨hlength, -⟩ := ih hlt h
      refine ⟨?_, fun hsent => ?_⟩
      · rw [List.length_cons]
        omega
      · rw [hsent, List.length_append, List.length_cons] at hlength
        omega

/-! ## Receiving -/

omit [Sha256] in
/-- A line with a carriage return is not read. -/
theorem run_readLineFrom_return {line acc : Str} {rest : List (Except Errno UInt8)} {n : Nat}
    (hnewline : newline ∉ line) (hreturn : carriageReturn ∈ line) (hlen : line.length < n)
    (hinput : w.input = line.map .ok ++ rest) :
    ∃ e t, (readLineFrom n acc).run wireMachine w = (.error e, t) := by
  induction line generalizing acc n w with
  | nil => cases hreturn
  | cons b line ih =>
    obtain ⟨n, rfl⟩ := Nat.exists_eq_succ_of_ne_zero (Nat.ne_of_gt (Nat.zero_lt_of_lt hlen))
    obtain ⟨hb, hnewline⟩ := not_or.1 fun hm => hnewline (List.mem_cons.2 hm)
    rw [readLineFrom, run_bind_ok (run_readByte hinput)]
    dsimp only
    rw [if_neg (Ne.symm hb)]
    by_cases hb' : b = carriageReturn
    · rw [if_pos hb']
      exact ⟨_, _, rfl⟩
    · rw [if_neg hb']
      have hreturn : carriageReturn ∈ line := (List.mem_cons.1 hreturn).resolve_left (Ne.symm hb')
      exact ih hnewline hreturn (Nat.lt_of_succ_lt_succ hlen) rfl

/-- A frame whose payload has a carriage return is not received. -/
theorem run_recv_return {n : Nat} {rest : List (Except Errno UInt8)} (hpayload : controlPayload payload)
    (hreturn : carriageReturn ∈ payload) (hn : n < 2 ^ 64)
    (hinput : w.input = (frameLine auth direction n payload).map .ok ++ rest) :
    ∃ e t, (ControlReader.mk auth direction n |>.recv).run wireMachine w = (.error e, t) := by
  have hnewline : newline ∉ frameLine auth direction n payload := by
    have htag : newline ∉ ascii "A " := by decide
    have hdigits : newline ∉ decimal n := not_mem_decimal (by decide)
    have hmac : ∀ bytes, newline ∉ hex bytes := fun bytes => not_mem_hex (by decide)
    simp only [frameLine, List.mem_append, List.mem_cons, List.not_mem_nil, or_false, not_or]
    exact ⟨⟨⟨⟨htag, hdigits⟩, by decide, hpayload.1⟩, by decide⟩, hmac _⟩
  have hmem : carriageReturn ∈ frameLine auth direction n payload := by
    simp only [frameLine, List.mem_append, List.mem_cons]
    exact .inl (.inl (.inr (.inr hreturn)))
  have hlength := @length_frameLine _ auth direction _ _ hpayload.2 hn
  obtain ⟨e, t, hread⟩ := @run_readLineFrom_return w _ [] _ _ hnewline hmem hlength hinput
  exact ⟨e, t, run_bind_error hread⟩

/-- A channel whose reader has stopped receives nothing. -/
theorem run_recvs_stopped (hreader : channel.reader = none) (n : Nat) :
    (channel.converse (List.replicate n .recv)).run wireMachine w = (.ok channel, w) := by
  induction n with
  | zero => rfl
  | succ n ih =>
    rw [List.replicate_succ, Channel.converse, Channel.step, hreader]
    exact ih

omit [Sha256] in
theorem oneLine_of_payload (hpayload : controlPayload payload) (hvalid : validUtf8 payload = true)
    (hreturn : carriageReturn ∉ payload) : OneLine payload := ⟨hpayload.1, hreturn, hvalid⟩

/-- All payloads are received just if none of them has a carriage return. -/
theorem run_recvs {n : Nat} {rest : List (Except Errno UInt8)}
    (hpayloads : ∀ payload ∈ payloads, controlPayload payload ∧ validUtf8 payload = true)
    (hn : n + payloads.length < 2 ^ 64) (hreader : channel.reader = some ⟨auth, direction, n⟩)
    (hinput : w.input = arriving (framesFrom auth direction n payloads) ++ rest) :
    ∃ channel' t, (channel.converse (List.replicate payloads.length .recv)).run wireMachine w = (.ok channel', t) ∧
      (channel'.received = channel.received ++ payloads ↔ ∀ payload ∈ payloads, carriageReturn ∉ payload) := by
  induction payloads generalizing channel n w with
  | nil => exact ⟨channel, w, rfl, iff_of_true (List.append_nil _).symm fun _ h => nomatch h⟩
  | cons payload payloads ih =>
    obtain ⟨⟨hpayload, hvalid⟩, hrest⟩ := List.forall_mem_cons.1 hpayloads
    rw [List.length_cons] at hn
    rw [framesFrom, arriving_cons, List.append_assoc, List.cons_append] at hinput
    rw [List.length_cons, List.replicate_succ, Channel.converse, List.forall_mem_cons]
    by_cases hreturn : carriageReturn ∈ payload
    · -- the reader stops here
      obtain ⟨e, u, hrecv⟩ := run_recv_return hpayload hreturn (by omega) hinput
      have hattempt : ((ControlReader.mk auth direction n).recv.attempt : WireProg _).run wireMachine w =
          (.ok (.error e), u) := by
        rw [run_attempt, hrecv]
      have hstep : (channel.step .recv).run wireMachine w = (.ok { channel with reader := none }, u) := by
        rw [Channel.step, hreader]
        exact run_bind_ok hattempt
      refine ⟨{ channel with reader := none }, u, ?_, iff_of_false (fun heq => ?_) fun h => h.1 hreturn⟩
      · rw [run_bind_ok hstep]
        exact run_recvs_stopped rfl _
      · have hlength := congrArg List.length heq
        rw [List.length_append, List.length_cons] at hlength
        change channel.received.length = _ at hlength
        omega
    · have hline := oneLine_of_payload hpayload hvalid hreturn
      have hrecv := run_recv hline hpayload.2 (by omega) hinput
      have hstep := run_step_recv hreader hrecv
      obtain ⟨last, t, hrun, hiff⟩ := @ih { w with
          input := arriving (framesFrom auth direction (n + 1) payloads) ++ rest
          accepted := w.accepted ++
            [(auth.controlKey direction, controlMacInput auth.session direction n payload)] }
        { channel with
          reader := some ⟨auth, direction, n + 1⟩
          received := channel.received ++ [payload] } (n + 1) hrest (by omega) rfl rfl
      refine ⟨last, t, ?_, ?_⟩
      · rw [run_bind_ok hstep]
        exact hrun
      · rw [List.append_assoc, List.singleton_append] at hiff
        rw [hiff]
        exact ⟨fun h => ⟨hreturn, h⟩, fun h => h.2⟩

/-- What has been written in a delivery. -/
theorem Delivery.frames {e f : End} (h : Delivery e f payloads) :
    (∀ payload ∈ payloads, controlPayload payload) ∧ payloads.length < 2 ^ 64 ∧
      ∃ rest, f.input = arriving (framesFrom e.auth e.out 0 payloads) ++ rest := by
  obtain ⟨sending, houtcome, hsent⟩ := h.sent
  have hwrite : ((Channel.start e.auth e.out e.back).converse (payloads.map .send)).run wireMachine e.wire =
      (.ok sending, e.final) := by
    rw [← h.sends]
    exact Prod.ext houtcome rfl
  obtain ⟨-, hall⟩ := run_sends (Nat.two_pow_pos 64) hwrite
  obtain ⟨hpayloads, hlength, houtput⟩ := hall hsent
  have hframes : e.final.output = framesFrom e.auth e.out 0 payloads := houtput
  have hn : 0 + payloads.length < 2 ^ 64 := hlength
  rw [Nat.zero_add] at hn
  obtain ⟨rest, hinput⟩ := h.input
  rw [hframes] at hinput
  exact ⟨hpayloads, hn, rest, hinput⟩

/-- An end that is handed the frames of some payloads receives them just if it does not meet a carriage return. -/
theorem receives_frames_iff {f : End} {rest : List (Except Errno UInt8)}
    (hpayloads : ∀ payload ∈ payloads, controlPayload payload ∧ validUtf8 payload = true)
    (hn : payloads.length < 2 ^ 64) (hops : f.ops = List.replicate payloads.length .recv)
    (hinput : f.input = arriving (framesFrom f.auth f.back 0 payloads) ++ rest) :
    f.Receives payloads ↔ ∀ payload ∈ payloads, carriageReturn ∉ payload := by
  rw [← Nat.zero_add payloads.length] at hn
  obtain ⟨reading, t, hrun, hiff⟩ := @run_recvs _ f.auth f.back payloads f.wire
    (Channel.start f.auth f.out f.back) 0 rest hpayloads hn rfl hinput
  have hread : f.outcome = .ok reading := by
    rw [End.outcome, End.program, hops, hrun]
  rw [← hiff]
  constructor
  · rintro ⟨last, hlast, hreceived⟩
    rw [hread] at hlast
    cases hlast
    exact hreceived
  · intro hreceived
    exact ⟨reading, hread, hreceived⟩

/-- The payloads that a writer has accepted are all delivered just if none of them has a carriage return. -/
theorem delivered_iff {e f : End} (h : Delivery e f payloads) :
    f.Receives payloads ↔ ∀ payload ∈ payloads, carriageReturn ∉ payload := by
  obtain ⟨hpayloads, hn, rest, hinput⟩ := h.frames
  rw [← h.auth_eq, ← h.back_eq] at hinput
  refine receives_frames_iff (fun payload hmem => ?_) hn h.receives hinput
  exact ⟨hpayloads payload hmem, h.strings payload hmem⟩

end Delivery

section Example

/-- A server reads what its client sends. -/
theorem delivery_frameEnds [Sha256] {auth : SessionAuth} {payload : Str} (h : controlPayload payload)
    (hvalid : validUtf8 payload = true) :
    Delivery (frameEnds auth payload true) (frameEnds auth payload false) [payload] := by
  have hrun := @run_frameWriter _ auth payload h
  refine ⟨List.forall_mem_singleton.2 hvalid, rfl, ?_, rfl, rfl, rfl, [], ?_⟩
  · exact ⟨_, congrArg Prod.fst hrun, rfl⟩
  · rw [End.final, hrun, List.append_nil]
    rfl

/-- The rule, for a payload with spaces around it. -/
theorem delivered_spaces :
    @End.Receives sha2 (@frameEnds sha2 sampleAuth (ascii " PING  ") false) [ascii " PING  "] := by
  let _ := sha2
  have hdelivery := @delivery_frameEnds _ sampleAuth (ascii " PING  ") (by decide) (by decide)
  exact (delivered_iff hdelivery).2 (by decide)

/-- A carriage return is sent but does not arrive. -/
theorem not_delivered :
    ¬∀ (_ : Sha256) (e f : End) (payloads : List Str), Delivery e f payloads → f.Receives payloads := by
  intro hall
  let _ := sha2
  have hpayload : controlPayload [carriageReturn] := by decide
  have hvalid : validUtf8 [carriageReturn] = true := by decide
  have hdelivery := @delivery_frameEnds _ sampleAuth _ hpayload hvalid
  have hreceives := hall sha2 _ _ _ hdelivery
  rw [receives_frames_iff (List.forall_mem_singleton.2 ⟨hpayload, hvalid⟩) (by decide) rfl
    (List.append_nil _).symm] at hreceives
  exact hreceives [carriageReturn] List.mem_cons_self List.mem_cons_self

end Example

end PacketTide.Auth
