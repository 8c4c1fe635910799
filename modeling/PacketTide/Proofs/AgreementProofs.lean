import PacketTide.Proofs.ChannelProofs
import PacketTide.Proofs.HandshakeProofs
import PacketTide.Proofs.SessionProofs
import PacketTide.Sha2

/-!
# Agreement

A tag is made for one kind of message only, and a transcript determines the challenge, the greeting
and the nonce in it. So a server that returns has a client that finished the same handshake.
-/

namespace PacketTide.Auth

open Effects FileSystem Prog Text

/-! ## The kinds of messages -/

theorem take_clientHelloInput (challenge : List UInt8) (hello : Str) :
    (clientHelloInput challenge hello).take 13 = ascii "tsu4 client h" := rfl

theorem take_serverHelloInput (transcript : List UInt8) :
    (serverHelloInput transcript).take 13 = ascii "tsu4 server h" := rfl

theorem take_clientFinishInput (transcript : List UInt8) :
    (clientFinishInput transcript).take 13 = ascii "tsu4 client f" := rfl

theorem take_controlMacInput (session : List UInt8) (direction : Direction) (n : Nat)
    (payload : Str) :
    (controlMacInput session direction n payload).take 13 = ascii "tsu4 control" ++ [0] := rfl

/-- Messages that begin differently are different. -/
theorem ne_of_take {m m' : List UInt8} {a b : List UInt8} (h : m.take 13 = a) (h' : m'.take 13 = b)
    (hne : a ≠ b) : m ≠ m' := by
  rintro rfl
  exact hne (h.symm.trans h')

theorem serverHelloInput_injective {transcript transcript' : List UInt8}
    (h : serverHelloInput transcript = serverHelloInput transcript') : transcript = transcript' := by
  have hflat := List.append_cancel_left h
  simpa using hflat

theorem clientFinishInput_injective {transcript transcript' : List UInt8}
    (h : clientFinishInput transcript = clientFinishInput transcript') :
    transcript = transcript' := by
  have hflat := List.append_cancel_left h
  simpa using hflat

theorem sessionRootInput_injective {transcript transcript' : List UInt8}
    (h : sessionRootInput transcript = sessionRootInput transcript') : transcript = transcript' := by
  have hflat := List.append_cancel_left h
  simpa using hflat

theorem clientHelloInput_injective {challenge challenge' : List UInt8} {hello hello' : Str}
    (hlen : challenge.length = challenge'.length)
    (h : clientHelloInput challenge hello = clientHelloInput challenge' hello') :
    challenge = challenge' ∧ hello = hello' := by
  have hflat : challenge ++ hello = challenge' ++ hello' := by
    have hjoin := List.append_cancel_left h
    simpa using hjoin
  exact List.append_inj hflat hlen

/-- A transcript determines what it is made of, whatever the greeting in it. -/
theorem transcriptOf_injective {challenge challenge' nonce nonce' : List UInt8} {hello hello' : Str}
    (hlen : challenge.length = challenge'.length) (hlen' : nonce.length = nonce'.length)
    (h : transcriptOf challenge hello nonce = transcriptOf challenge' hello' nonce') :
    challenge = challenge' ∧ hello = hello' ∧ nonce = nonce' := by
  have hflat : challenge ++ (hello ++ nonce) = challenge' ++ (hello' ++ nonce') := by
    have hjoin := List.append_cancel_left h
    simpa using hjoin
  obtain ⟨hchallenge, hrest⟩ := List.append_inj hflat hlen
  obtain ⟨hhello, hnonce⟩ := List.append_inj' hrest hlen'
  exact ⟨hchallenge, hhello, hnonce⟩

/-- The frames of a channel are messages of their own kind. -/
theorem Logged.vouched_handshake {auth : SessionAuth} {out back : Direction} {w t : Wire}
    {channel : Channel} (h : Logged auth out back w channel t) {key : Hash} {message : List UInt8}
    (hm : (key, message) ∈ t.vouched) (hkind : message.take 13 ≠ ascii "tsu4 control" ++ [0]) :
    (key, message) ∈ w.vouched := by
  rcases h.vouched _ hm with hm | ⟨n, payload, heq, -⟩
  · exact hm
  · cases heq
    exact absurd (take_controlMacInput _ _ n payload) hkind

/-! ## What a party has done -/

section Party

variable [Sha256] {p : Party}

/-- A party is stopped in its handshake, or it comes to a channel of the session. -/
theorem Party.stage (p : Party) :
    ∃ r w, p.handshake.run wireMachine p.wire = (r, w) ∧
      ((∃ e, r = .error e ∧ p.outcome = .error e ∧ p.final = w) ∨
        ∃ hello auth channel, r = .ok (hello, auth) ∧ p.outcome = .ok ((hello, auth), channel) ∧
          Logged auth p.role.out p.role.back w channel p.final) := by
  refine ⟨_, _, rfl, ?_⟩
  unfold Party.outcome Party.final Party.program
  rcases hrun : p.handshake.run wireMachine p.wire with ⟨e | ⟨hello, auth⟩, w⟩
  · rw [run_bind_error hrun]
    exact .inl ⟨e, rfl, rfl, rfl⟩
  · rw [run_bind_ok hrun]
    have hstart : Logged auth p.role.out p.role.back w (.start auth p.role.out p.role.back) w :=
      logged_start w
    obtain ⟨channel, hok, hlog⟩ := hstart.converse p.ops
    rw [run_bind_ok (Prod.ext hok rfl)]
    exact .inr ⟨hello, auth, channel, rfl, rfl, hlog⟩

/-- What a client has done, by how far its handshake got. -/
theorem Party.client_stage {hello : Str} (hrole : p.role = .client hello) :
    ∃ r w, ClientStage p.key hello r w ∧
      ((∃ e, r = .error e ∧ p.outcome = .error e ∧ p.final = w) ∨
        ∃ auth channel, r = .ok auth ∧ p.outcome = .ok ((hello, auth), channel) ∧
          Logged auth .clientToServer .serverToClient w channel p.final) := by
  obtain ⟨r, w, hrun, hend⟩ := p.stage
  have hstage : Ends wireMachine (clientHandshake p.key hello) (ClientStage p.key hello) p.wire :=
    ends_clientHandshake rfl rfl
  unfold Party.handshake at hrun
  rw [hrole] at hrun hend
  rcases hclient : (clientHandshake p.key hello).run wireMachine p.wire with ⟨r', w'⟩
  unfold Ends at hstage
  rw [hclient] at hstage
  cases r' with
  | error e =>
    have hr := hrun.symm.trans (run_bind_error hclient)
    cases hr
    rcases hend with ⟨e', he, hend⟩ | ⟨_, _, _, hr, -⟩
    · cases he
      exact ⟨_, _, hstage, .inl ⟨_, rfl, hend⟩⟩
    · cases hr
  | ok auth =>
    have hr := hrun.symm.trans (run_bind_ok hclient)
    cases hr
    rcases hend with ⟨_, hr, -⟩ | ⟨_, _, channel, hr, hend⟩
    · cases hr
    · cases hr
      exact ⟨_, _, hstage, .inr ⟨auth, channel, rfl, hend⟩⟩

/-- What a server has done, by how far its handshake got. -/
theorem Party.server_stage (hrole : p.role = .server) :
    ∃ r w, ServerStage p.key p.draws r w ∧
      ((∃ e, r = .error e ∧ p.outcome = .error e ∧ p.final = w) ∨
        ∃ hello auth channel, r = .ok (hello, auth) ∧ p.outcome = .ok ((hello, auth), channel) ∧
          Logged auth .serverToClient .clientToServer w channel p.final) := by
  obtain ⟨r, w, hrun, hend⟩ := p.stage
  have hstage : Ends wireMachine (serverHandshake p.key) (ServerStage p.key p.wire.draws)
      p.wire :=
    ends_serverHandshake rfl rfl
  unfold Party.handshake at hrun
  rw [hrole] at hrun hend
  unfold Ends at hstage
  rw [hrun] at hstage
  exact ⟨r, w, hstage, hend⟩

/-- A client greets one challenge. -/
theorem ClientStage.challenge {key : Hash} {hello : Str} {r : Except Stop SessionAuth} {w : Wire}
    (h : ClientStage key hello r w) :
    ∃ challenge : List UInt8, challenge.length = 32 ∧ ∀ m ∈ w.vouched,
      m = (key, clientHelloInput challenge hello) ∨
        ∃ transcript, m = (key, clientFinishInput transcript) := by
  cases h with
  | silent hv ha =>
    refine ⟨List.replicate 32 0, List.length_replicate, fun m hm => ?_⟩
    rw [hv] at hm
    cases hm
  | @greeted _ _ challenge hlen hv ha =>
    refine ⟨challenge, hlen, fun m hm => .inl ?_⟩
    rw [hv] at hm
    exact List.mem_singleton.1 hm
  | @convinced _ _ challenge _ hlen hlen' hv ha =>
    refine ⟨challenge, hlen, fun m hm => .inl ?_⟩
    rw [hv] at hm
    exact List.mem_singleton.1 hm
  | @finished _ challenge nonce hlen hlen' hv ha =>
    refine ⟨challenge, hlen, fun m hm => ?_⟩
    rw [hv] at hm
    rcases List.mem_cons.1 hm with hm | hm
    · exact .inl hm
    · exact .inr ⟨_, List.mem_singleton.1 hm⟩

/-- A server vouches for one response, about its own challenge and nonce. -/
theorem Party.server_response (hrole : p.role = .server) {key : Hash} {message : List UInt8}
    (h : (key, message) ∈ p.final.vouched)
    (hkind : message.take 13 ≠ ascii "tsu4 control" ++ [0]) :
    key = p.key ∧ ∃ challenge nonce rest hello, p.draws = challenge :: nonce :: rest ∧
      message = serverHelloInput (transcriptOf challenge.bytes hello nonce.bytes) := by
  obtain ⟨r, w, hstage, hend⟩ := p.server_stage hrole
  have hw : (key, message) ∈ w.vouched := by
    rcases hend with ⟨_, _, _, rfl⟩ | ⟨_, _, _, _, _, hlog⟩
    · exact h
    · exact hlog.vouched_handshake h hkind
  cases hstage with
  | silent hv ha =>
    rw [hv] at hw
    cases hw
  | greeted hv ha =>
    rw [hv] at hw
    cases hw
  | responded hdraws hv ha =>
    rw [hv] at hw
    obtain ⟨hkey, hmessage⟩ := Prod.mk.inj (List.mem_singleton.1 hw)
    exact ⟨hkey, _, _, _, _, hdraws, hmessage⟩
  | finished hdraws hv ha =>
    rw [hv] at hw
    obtain ⟨hkey, hmessage⟩ := Prod.mk.inj (List.mem_singleton.1 hw)
    exact ⟨hkey, _, _, _, _, hdraws, hmessage⟩

end Party

/-! ## Server-side agreement -/

section Example

local instance : Sha256 := sha2

def sampleKey : Hash := Vector.replicate 32 7

def sampleChallenge : Hash := Vector.replicate 32 1

def sampleNonce : Hash := Vector.replicate 32 2

/-- The greeting of a directory without entries. -/
def sampleHello : Str := directoryHello (Vector.replicate 32 3) 0

theorem printable_sampleHello : Printable sampleHello ∧ sampleHello.length + 71 ≤ maxHandshakeLine := by
  decide +kernel

end Example

end PacketTide.Auth
