import PacketTide.Network
import PacketTide.Proofs.SessionProofs
import PacketTide.Sha2

/-!
# Authenticity and order of the control channel

Every frame that a writer puts on the connection carries its place in the order, and a reader accepts
only the frame of the next place. So what is received is what was sent, as far as it goes.
-/

namespace PacketTide.Auth

open Effects FileSystem Prog Text

section Frames

variable [Sha256] {w : Wire}

/-- A payload is sent in a frame of the writer's place, or the writer stays as it is; then at most
the last of all places has been vouched for. -/
theorem ends_send {writer : ControlWriter} {payload : Str}
    {Q : Except Stop ControlWriter → Wire → Prop}
    (hfail : ∀ e failures, Q (.error e) { w with failures })
    (hlast : ∀ e failures output, writer.sequence + 1 ≥ 2 ^ 64 → Q (.error e) { w with
      failures, output,
      vouched := w.vouched ++ [(writer.auth.controlKey writer.direction,
        controlMacInput writer.auth.session writer.direction writer.sequence payload)] })
    (hok : ∀ failures output, writer.sequence + 1 < 2 ^ 64 →
      Q (.ok { writer with sequence := writer.sequence + 1 }) { w with
        failures, output,
        vouched := w.vouched ++ [(writer.auth.controlKey writer.direction,
          controlMacInput writer.auth.session writer.direction writer.sequence payload)] }) :
    Ends wireMachine (writer.send payload) Q w := by
  unfold ControlWriter.send
  split
  · exact ends_failWith (hfail _ w.failures)
  refine ends_bind (ends_writeTagged (fun e failures => hfail _ failures) fun failures output => ?_)
  show Ends wireMachine (if 2 ^ 64 ≤ writer.sequence + 1 then _ else _) Q _
  split
  next hmax => exact hlast _ failures output hmax
  next hlt => exact hok failures output (Nat.lt_of_not_le hlt)

/-- A payload is received in a frame of the reader's place, which has been accepted, or the reader
stops. -/
theorem ends_recv {reader : ControlReader} {Q : Except Stop (Str × ControlReader) → Wire → Prop}
    (hfail : ∀ e input, Q (.error e) { w with input })
    (hlast : ∀ e input payload, Q (.error e) { w with
      input
      accepted := w.accepted ++ [(reader.auth.controlKey reader.direction,
        controlMacInput reader.auth.session reader.direction reader.sequence payload)] })
    (hok : ∀ input payload, reader.sequence + 1 < 2 ^ 64 →
      Q (.ok (payload, { reader with sequence := reader.sequence + 1 })) { w with
        input
        accepted := w.accepted ++ [(reader.auth.controlKey reader.direction,
          controlMacInput reader.auth.session reader.direction reader.sequence payload)] }) :
    Ends wireMachine reader.recv Q w := by
  refine ends_bind (ends_readLineLimited fun r input => ?_)
  rcases r with e | line
  · exact hfail e input
  show Ends wireMachine (if (splitN space 3 line)[0]? ≠ some (ascii "A") then _ else _) Q _
  split
  · exact ends_failWith (hfail _ input)
  refine ends_bind (ends_require (fun _ => hfail _ input) fun sequence _ => ?_)
  refine ends_bind (ends_require (fun _ => hfail _ input) fun sequence _ => ?_)
  show Ends wireMachine (if sequence ≠ reader.sequence then _ else _) Q _
  split
  · exact ends_failWith (hfail _ input)
  next hsequence =>
    obtain rfl : sequence = reader.sequence := Decidable.not_not.1 hsequence
    refine ends_bind (ends_require (fun _ => hfail _ input) fun tail _ => ?_)
    refine ends_bind (ends_require (fun _ => hfail _ input) fun parts _ => ?_)
    obtain ⟨payload, mac⟩ := parts
    refine ends_bind (ends_lift ?_)
    rcases decodeArray 32 mac with e | supplied
    · exact hfail e input
    refine ends_bind (ends_checkTag (hfail _ input) fun _ => ?_)
    show Ends wireMachine (if 2 ^ 64 ≤ reader.sequence + 1 then _ else _) Q _
    split
    · exact ends_failWith (hlast _ input payload)
    next hlt => exact hok input payload (Nat.lt_of_not_le hlt)

end Frames

/-! ## The logs of a channel -/

section Logs

variable {auth : SessionAuth} {out back : Direction} {w₀ w : Wire} {channel : Channel}

/-- What a channel has sent and received is what its wire has vouched for and accepted, beyond what
it had before. -/
structure Logged (auth : SessionAuth) (out back : Direction) (w₀ : Wire) (channel : Channel)
    (w : Wire) : Prop where
  writer : channel.writer = ⟨auth, out, channel.sent.length⟩
  sent_lt : channel.sent.length < 2 ^ 64
  vouched : ∀ m ∈ w.vouched, m ∈ w₀.vouched ∨ ∃ n payload,
    m = (auth.controlKey out, controlMacInput auth.session out n payload) ∧ n < 2 ^ 64 ∧
      (n + 1 < 2 ^ 64 → channel.sent[n]? = some payload)
  kept : ∀ m ∈ w₀.vouched, m ∈ w.vouched
  reader : ∀ reader, channel.reader = some reader → reader = ⟨auth, back, channel.received.length⟩
  received_lt : channel.received.length < 2 ^ 64
  received : ∀ n payload, channel.received[n]? = some payload →
    (auth.controlKey back, controlMacInput auth.session back n payload) ∈ w.accepted
  accepted : ∀ m ∈ w.accepted, m ∈ w₀.accepted ∨ ∃ n payload,
    m = (auth.controlKey back, controlMacInput auth.session back n payload)
  kept' : ∀ m ∈ w₀.accepted, m ∈ w.accepted

theorem logged_start (w : Wire) : Logged auth out back w (.start auth out back) w where
  writer := rfl
  sent_lt := Nat.two_pow_pos 64
  vouched := fun _ h => .inl h
  kept := fun _ h => h
  reader := fun _ h => (Option.some.inj h).symm
  received_lt := Nat.two_pow_pos 64
  received := fun _ _ h => nomatch h
  accepted := fun _ h => .inl h
  kept' := fun _ h => h

/-- The logs grow by frames of the channel only. -/
theorem Logged.vouched_snoc (h : Logged auth out back w₀ channel w) {sent : List Str}
    {payload : Str} (hsent : ∀ (n : Nat) (payload : Str), channel.sent[n]? = some payload → sent[n]? = some payload)
    (hnew : channel.sent.length + 1 < 2 ^ 64 → sent[channel.sent.length]? = some payload) :
    ∀ m ∈ w.vouched ++ [(auth.controlKey out,
        controlMacInput auth.session out channel.sent.length payload)],
      m ∈ w₀.vouched ∨ ∃ n payload,
        m = (auth.controlKey out, controlMacInput auth.session out n payload) ∧ n < 2 ^ 64 ∧
          (n + 1 < 2 ^ 64 → sent[n]? = some payload) := by
  intro m hm
  rcases List.mem_append.1 hm with hm | hm
  · rcases h.vouched m hm with hm | ⟨n, payload', rfl, hn, hold⟩
    · exact .inl hm
    · exact .inr ⟨n, payload', rfl, hn, fun hlt => hsent n payload' (hold hlt)⟩
  · rw [List.mem_singleton.1 hm]
    exact .inr ⟨channel.sent.length, payload, rfl, h.sent_lt, hnew⟩

variable [Sha256]

theorem Logged.send (h : Logged auth out back w₀ channel w) (payload : Str) :
    Ends wireMachine (channel.step (.send payload))
      (fun r t => ∃ channel', r = .ok channel' ∧ Logged auth out back w₀ channel' t) w := by
  obtain ⟨writer, reader, sent, received⟩ := channel
  obtain rfl : writer = ⟨auth, out, sent.length⟩ := h.writer
  refine ends_bind (ends_attempt (ends_send ?_ ?_ ?_))
  · intro e failures
    exact ⟨_, rfl, { h with }⟩
  · intro e failures output hlast
    refine ⟨_, rfl, { h with vouched := ?_, kept := fun m hm => ?_ }⟩
    · exact h.vouched_snoc (fun _ _ hn => hn) fun hlt => absurd hlt (Nat.not_lt_of_le hlast)
    · exact List.mem_append_left _ (h.kept m hm)
  · intro failures output hlt
    refine ⟨_, rfl, { h with
      writer := ?_, sent_lt := ?_, vouched := ?_, kept := fun m hm => ?_ }⟩
    · show ControlWriter.mk auth out (sent.length + 1) = ⟨auth, out, (sent ++ [payload]).length⟩
      rw [List.length_append, List.length_singleton]
    · show (sent ++ [payload]).length < 2 ^ 64
      rwa [List.length_append, List.length_singleton]
    · refine h.vouched_snoc (fun n payload' hn => ?_) fun _ => ?_
      · rw [List.getElem?_append_left (List.getElem?_eq_some_iff.1 hn).1]
        exact hn
      · exact List.getElem?_concat_length
    · exact List.mem_append_left _ (h.kept m hm)

theorem Logged.recv (h : Logged auth out back w₀ channel w) :
    Ends wireMachine (channel.step .recv)
      (fun r t => ∃ channel', r = .ok channel' ∧ Logged auth out back w₀ channel' t) w := by
  obtain ⟨writer, reader, sent, received⟩ := channel
  cases reader with
  | none => exact ⟨_, rfl, h⟩
  | some reader =>
    obtain rfl : reader = ⟨auth, back, received.length⟩ := h.reader reader rfl
    refine ends_bind (ends_attempt (ends_recv ?_ ?_ ?_))
    · intro e input
      exact ⟨_, rfl, { h with reader := fun _ he => nomatch he }⟩
    · intro e input payload
      refine ⟨_, rfl, { h with
        reader := fun _ he => (nomatch he), received := fun n payload' hn => ?_,
        accepted := fun m hm => ?_, kept' := fun m hm => ?_ }⟩
      · exact List.mem_append_left _ (h.received n payload' hn)
      · rcases List.mem_append.1 hm with hm | hm
        · exact h.accepted m hm
        · exact .inr ⟨received.length, payload, List.mem_singleton.1 hm⟩
      · exact List.mem_append_left _ (h.kept' m hm)
    · intro input payload hlt
      refine ⟨_, rfl, { h with
        reader := fun reader hr => ?_, received_lt := ?_, received := fun n payload' hn => ?_,
        accepted := fun m hm => ?_, kept' := fun m hm => ?_ }⟩
      · rw [← Option.some.inj hr]
        show ControlReader.mk auth back (received.length + 1) =
          ⟨auth, back, (received ++ [payload]).length⟩
        rw [List.length_append, List.length_singleton]
      · show (received ++ [payload]).length < 2 ^ 64
        rwa [List.length_append, List.length_singleton]
      · rw [List.getElem?_append] at hn
        split at hn
        next => exact List.mem_append_left _ (h.received n payload' hn)
        next hge =>
          obtain ⟨hlast, rfl⟩ := List.getElem?_eq_some_iff.1 hn
          have hlow : ¬ n < received.length := hge
          have hhigh : n - received.length < 1 := hlast
          have hn' : n = received.length := by omega
          subst hn'
          exact List.mem_append_right _ (by simp)
      · rcases List.mem_append.1 hm with hm | hm
        · exact h.accepted m hm
        · exact .inr ⟨received.length, payload, List.mem_singleton.1 hm⟩
      · exact List.mem_append_left _ (h.kept' m hm)

/-- The step lemma of channels. -/
theorem Logged.step (h : Logged auth out back w₀ channel w) (op : ControlOp) :
    Ends wireMachine (channel.step op)
      (fun r t => ∃ channel', r = .ok channel' ∧ Logged auth out back w₀ channel' t) w := by
  cases op with
  | send payload => exact h.send payload
  | recv => exact h.recv

/-- The run lemma of channels. -/
theorem Logged.converse (h : Logged auth out back w₀ channel w) (ops : List ControlOp) :
    Ends wireMachine (channel.converse ops)
      (fun r t => ∃ channel', r = .ok channel' ∧ Logged auth out back w₀ channel' t) w := by
  induction ops generalizing channel w with
  | nil => exact ⟨channel, rfl, h⟩
  | cons op ops ih =>
    refine ends_bind ((h.step op).mono ?_)
    rintro _ t ⟨channel', rfl, h'⟩
    exact ih h'

end Logs

/-! ## Sessions -/

section Sessions

variable [Sha256]

/-- A session end always comes to a channel that its wire agrees with. -/
theorem End.logged (e : End) :
    ∃ channel, e.outcome = .ok channel ∧ Logged e.auth e.out e.back e.wire channel e.final :=
  (logged_start e.wire).converse e.ops

theorem run_step_send {channel : Channel} {payload : Str} {writer : ControlWriter} {w t : Wire}
    (h : (channel.writer.send payload).run wireMachine w = (.ok writer, t)) :
    (channel.step (.send payload)).run wireMachine w =
      (.ok { channel with writer, sent := channel.sent ++ [payload] }, t) := by
  have hattempt : ((channel.writer.send payload).attempt : WireProg _).run wireMachine w =
      (.ok (.ok writer), t) := by
    rw [run_attempt, h]
  exact run_bind_ok hattempt

theorem run_step_recv {channel : Channel} {payload : Str} {reader reader' : ControlReader}
    {w t : Wire} (hreader : channel.reader = some reader)
    (h : reader.recv.run wireMachine w = (.ok (payload, reader'), t)) :
    (channel.step .recv).run wireMachine w =
      (.ok { channel with reader := some reader', received := channel.received ++ [payload] }, t) := by
  have hattempt : (reader.recv.attempt : WireProg _).run wireMachine w =
      (.ok (.ok (payload, reader')), t) := by
    rw [run_attempt, h]
  rw [Channel.step, hreader]
  exact run_bind_ok hattempt

/-- A client that sends a payload, and a server that is handed its frame. -/
def frameEnds (auth : SessionAuth) (payload : Str) : Bool → End
  | true => ⟨auth, .clientToServer, .serverToClient, [.send payload], [], []⟩
  | false => ⟨auth, .serverToClient, .clientToServer, [.recv],
      arriving [frameLine auth .clientToServer 0 payload], []⟩

variable {auth : SessionAuth} {payload : Str}

theorem run_frameWriter (h : controlPayload payload) :
    (frameEnds auth payload true).program.run wireMachine (frameEnds auth payload true).wire =
      (.ok ⟨⟨auth, .clientToServer, 1⟩, some ⟨auth, .serverToClient, 0⟩, [payload], []⟩,
        ⟨[], [], [], [frameLine auth .clientToServer 0 payload],
          [(auth.c2s, controlMacInput auth.session .clientToServer 0 payload)], []⟩) := by
  have hsend : (ControlWriter.mk auth .clientToServer 0 |>.send payload).run wireMachine
      (frameEnds auth payload true).wire = _ := run_send h (by decide)
  have hstep : ((Channel.start auth .clientToServer .serverToClient).step (.send payload)).run
      wireMachine (frameEnds auth payload true).wire = _ := run_step_send hsend
  exact run_bind_ok hstep

end Sessions

section Example

local instance : Sha256 := sha2

/-- A session with four different keys. -/
def sampleAuth : SessionAuth where
  session := List.replicate 16 1
  c2s := Vector.replicate 32 2
  s2c := Vector.replicate 32 3
  udp := Vector.replicate 32 4
  lane := Vector.replicate 32 5

end Example

end PacketTide.Auth
