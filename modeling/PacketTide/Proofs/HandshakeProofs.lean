import PacketTide.Handshake
import PacketTide.Proofs.WireProofs

/-!
# How far a handshake gets

What a party has vouched for and accepted determines how far its handshake got, and the other way
round.
-/

namespace PacketTide.Auth

open Effects FileSystem Prog Text

theorem length_decodePairs {value : Str} {n index : Nat} {bytes : List UInt8}
    (h : decodePairs value n index = .ok bytes) : bytes.length = n := by
  induction n generalizing index bytes with
  | zero =>
    cases h
    rfl
  | succ n ih =>
    rw [decodePairs] at h
    split at h
    · cases h
    · split at h
      · cases h
      · rcases hrest : decodePairs value n (index + 1) with e | rest
        · rw [hrest] at h
          cases h
        · rw [hrest] at h
          cases h
          rw [List.length_cons, ih hrest]

theorem length_decodeArray {value : Str} {n : Nat} {bytes : List UInt8}
    (h : decodeArray n value = .ok bytes) : bytes.length = n := by
  unfold decodeArray at h
  split at h
  · cases h
  · exact length_decodePairs h

section Stages

variable [Sha256]

/-- How far a client got: it said nothing, it greeted, it accepted the server's response, or it
finished. -/
inductive ClientStage (key : Hash) (hello : Str) : Except Stop SessionAuth → Wire → Prop where
  | silent {e : Stop} {w : Wire} (hv : w.vouched = []) (ha : w.accepted = []) :
      ClientStage key hello (.error e) w
  | greeted {e : Stop} {w : Wire} {challenge : List UInt8} (hlen : challenge.length = 32)
      (hv : w.vouched = [(key, clientHelloInput challenge hello)]) (ha : w.accepted = []) :
      ClientStage key hello (.error e) w
  | convinced {e : Stop} {w : Wire} {challenge nonce : List UInt8} (hlen : challenge.length = 32)
      (hlen' : nonce.length = 32) (hv : w.vouched = [(key, clientHelloInput challenge hello)])
      (ha : w.accepted = [(key, serverHelloInput (transcriptOf challenge hello nonce))]) :
      ClientStage key hello (.error e) w
  | finished {w : Wire} {challenge nonce : List UInt8} (hlen : challenge.length = 32)
      (hlen' : nonce.length = 32)
      (hv : w.vouched = [(key, clientHelloInput challenge hello),
        (key, clientFinishInput (transcriptOf challenge hello nonce))])
      (ha : w.accepted = [(key, serverHelloInput (transcriptOf challenge hello nonce))]) :
      ClientStage key hello (.ok (deriveSession key (transcriptOf challenge hello nonce))) w

theorem ends_clientRespond {key : Hash} {hello : Str} {challenge : List UInt8} {w : Wire}
    (hlen : challenge.length = 32) (hv : w.vouched = []) (ha : w.accepted = []) :
    Ends wireMachine (clientRespond key hello challenge) (ClientStage key hello) w := by
  refine ends_bind (ends_writeTagged (fun e failures => .silent hv ha) fun failures output => ?_)
  have hv' : w.vouched ++ [(key, clientHelloInput challenge hello)] =
      [(key, clientHelloInput challenge hello)] := by
    rw [hv, List.nil_append]
  refine ends_bind (ends_readLineLimited fun r input => ?_)
  rcases r with e | serverLine
  · exact .greeted hlen hv' ha
  dsimp only [Then]
  split
  next tag nonce mac _ =>
    split
    · exact .greeted hlen hv' ha
    refine ends_bind (ends_lift ?_)
    rcases hnonce : decodeArray 32 nonce with e | serverNonce
    · exact .greeted hlen hv' ha
    refine ends_bind (ends_lift ?_)
    rcases decodeArray 32 mac with e | supplied
    · exact .greeted hlen hv' ha
    have hlen' := length_decodeArray hnonce
    refine ends_bind (ends_checkTag (.greeted hlen hv' ha) fun _ => ?_)
    have ha' : w.accepted ++ [(key, serverHelloInput (transcriptOf challenge hello serverNonce))] =
        [(key, serverHelloInput (transcriptOf challenge hello serverNonce))] := by
      rw [ha, List.nil_append]
    refine ends_bind (ends_writeTagged (fun e failures => .convinced hlen hlen' hv' ha')
      fun failures output => ?_)
    refine .finished hlen hlen' ?_ ha'
    show w.vouched ++ [_] ++ [_] = _
    rw [hv']
    rfl
  next => exact .greeted hlen hv' ha

theorem ends_clientHandshake {key : Hash} {hello : Str} {w : Wire} (hv : w.vouched = [])
    (ha : w.accepted = []) :
    Ends wireMachine (clientHandshake key hello) (ClientStage key hello) w := by
  refine ends_bind (ends_readLineLimited fun r input => ?_)
  rcases r with e | challengeLine
  · exact .silent hv ha
  refine ends_bind (ends_require (fun _ => .silent hv ha) fun challengeHex _ => ?_)
  refine ends_bind (ends_lift ?_)
  rcases hchallenge : decodeArray 32 challengeHex with e | challenge
  · exact .silent hv ha
  exact ends_clientRespond (length_decodeArray hchallenge) hv ha

/-- How far a server got, from the values it drew: it accepted nothing, it accepted the greeting of a
client, it responded, or it finished. -/
inductive ServerStage (key : Hash) (draws : List Hash) :
    Except Stop (Str × SessionAuth) → Wire → Prop where
  | silent {e : Stop} {w : Wire} (hv : w.vouched = []) (ha : w.accepted = []) :
      ServerStage key draws (.error e) w
  | greeted {e : Stop} {w : Wire} {challenge : Hash} {hello : Str} (hv : w.vouched = [])
      (ha : w.accepted = [(key, clientHelloInput challenge.bytes hello)]) :
      ServerStage key draws (.error e) w
  | responded {e : Stop} {w : Wire} {challenge nonce : Hash} {rest : List Hash} {hello : Str}
      (hdraws : draws = challenge :: nonce :: rest)
      (hv : w.vouched =
        [(key, serverHelloInput (transcriptOf challenge.bytes hello nonce.bytes))])
      (ha : w.accepted = [(key, clientHelloInput challenge.bytes hello)]) :
      ServerStage key draws (.error e) w
  | finished {w : Wire} {challenge nonce : Hash} {rest : List Hash} {hello : Str}
      (hdraws : draws = challenge :: nonce :: rest)
      (hv : w.vouched =
        [(key, serverHelloInput (transcriptOf challenge.bytes hello nonce.bytes))])
      (ha : w.accepted = [(key, clientHelloInput challenge.bytes hello),
        (key, clientFinishInput (transcriptOf challenge.bytes hello nonce.bytes))]) :
      ServerStage key draws
        (.ok (hello, deriveSession key (transcriptOf challenge.bytes hello nonce.bytes))) w

theorem ends_serverRespond {key challenge : Hash} {hello : Str} {draws : List Hash} {w : Wire}
    (hdraws : draws = challenge :: w.draws) (hv : w.vouched = [])
    (ha : w.accepted = [(key, clientHelloInput challenge.bytes hello)]) :
    Ends wireMachine (serverRespond key challenge hello) (ServerStage key draws) w := by
  refine ends_bind (ends_randomBytes (.greeted hv ha) fun nonce rest hrest => ?_)
  have hdraws' : draws = challenge :: nonce :: rest := by rw [hdraws, hrest]
  refine ends_bind (ends_writeTagged (fun e failures => .greeted hv ha) fun failures output => ?_)
  have hv' : w.vouched ++
        [(key, serverHelloInput (transcriptOf challenge.bytes hello nonce.bytes))] =
      [(key, serverHelloInput (transcriptOf challenge.bytes hello nonce.bytes))] := by
    rw [hv, List.nil_append]
  refine ends_bind (ends_readLineLimited fun r input => ?_)
  rcases r with e | finishLine
  · exact .responded hdraws' hv' ha
  refine ends_bind (ends_require (fun _ => .responded hdraws' hv' ha) fun finish _ => ?_)
  refine ends_bind (ends_lift ?_)
  rcases decodeArray 32 finish with e | suppliedFinish
  · exact .responded hdraws' hv' ha
  refine ends_bind (ends_checkTag (.responded hdraws' hv' ha) fun _ => ?_)
  refine .finished hdraws' hv' ?_
  show w.accepted ++ [_] = _
  rw [ha]
  rfl

theorem ends_serverHandshake {key : Hash} {w : Wire} (hv : w.vouched = [])
    (ha : w.accepted = []) :
    Ends wireMachine (serverHandshake key) (ServerStage key w.draws) w := by
  refine ends_bind (ends_randomBytes (.silent hv ha) fun challenge rest hrest => ?_)
  refine ends_bind (ends_writeLine (fun e failures => .silent hv ha) fun failures => ?_)
  refine ends_bind (ends_readLineLimited fun r input => ?_)
  rcases r with e | clientLine
  · exact .silent hv ha
  refine ends_bind (ends_require (fun _ => .silent hv ha) fun body _ => ?_)
  refine ends_bind (ends_require (fun _ => .silent hv ha) fun parts _ => ?_)
  obtain ⟨hello, mac⟩ := parts
  refine ends_bind (ends_lift ?_)
  rcases decodeArray 32 mac with e | supplied
  · exact .silent hv ha
  refine ends_bind (ends_checkTag (.silent hv ha) fun _ => ?_)
  refine ends_serverRespond hrest hv ?_
  show w.accepted ++ [_] = _
  rw [ha]
  rfl

end Stages

end PacketTide.Auth
