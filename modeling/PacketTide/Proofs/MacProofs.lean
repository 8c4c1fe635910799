import PacketTide.Mac
import PacketTide.Proofs.AgreementProofs

/-!
# Domain separation

No label is a prefix of another, so a message determines its kind; and within a kind at most one
field has no fixed width, so the message determines its fields.
-/

namespace PacketTide.Auth

open Effects FileSystem Prog Text

/-! ## Labels -/

/-- Two labels that begin one message are the same, if no label is a prefix of another. -/
theorem eq_of_append {κ α : Type} {label : κ → List α}
    (hfree : ∀ k l, label k <+: label l → k = l) {k l : κ} {rest rest' : List α}
    (h : label k ++ rest = label l ++ rest') : k = l := by
  have hk : label k <+: label l ++ rest' := ⟨rest, h⟩
  have hl : label l <+: label l ++ rest' := ⟨rest', rfl⟩
  rcases List.prefix_or_prefix_of_prefix hk hl with hpre | hpre
  · exact hfree k l hpre
  · exact (hfree l k hpre).symm

theorem label_prefix_free (k l : MacKind) (h : k.label <+: l.label) : k = l := by
  revert h
  cases k <;> cases l <;> decide

theorem label_prefix_message (input : MacInput) : input.kind.label <+: input.message := by
  cases input <;> first | exact List.prefix_rfl | exact List.prefix_append _ _

theorem kind_eq_of_message {a b : MacInput} (h : a.message = b.message) : a.kind = b.kind := by
  obtain ⟨rest, ha⟩ := label_prefix_message a
  obtain ⟨rest', hb⟩ := label_prefix_message b
  refine @eq_of_append _ _ _ label_prefix_free _ _ rest rest' ?_
  rw [ha, hb, h]

/-! ## Fields -/

theorem length_session (session : Vector UInt8 16) : session.toList.length = 16 := by simp

theorem session_injective {n : Nat} {v v' : Vector UInt8 n} (h : v.toList = v'.toList) : v = v' :=
  Vector.toList_inj.1 h

theorem number_injective {m n : UInt64} (h : toBeBytes m.toNat = toBeBytes n.toNat) : m = n :=
  UInt64.toNat_inj.1 (toBeBytes_injective m.toNat_lt n.toNat_lt h)

theorem letter_injective {d d' : Direction} (h : d.letter = d'.letter) : d = d' := by
  cases d <;> cases d' <;> first | rfl | exact absurd h (by decide)

theorem transcript_fields {challenge challenge' nonce nonce' : Hash} {hello hello' : Str}
    (h : transcriptOf challenge.bytes hello nonce.bytes =
      transcriptOf challenge'.bytes hello' nonce'.bytes) :
    challenge = challenge' ∧ hello = hello' ∧ nonce = nonce' := by
  obtain ⟨hc, hh, hn⟩ := transcriptOf_injective
    ((length_hash_bytes _).trans (length_hash_bytes _).symm)
    ((length_hash_bytes _).trans (length_hash_bytes _).symm) h
  exact ⟨hash_bytes_injective hc, hh, hash_bytes_injective hn⟩

/-- A frame determines its session, its direction, its place and its payload. -/
theorem control_fields {session session' : Vector UInt8 16} {d d' : Direction} {m n : UInt64}
    {payload payload' : Str}
    (h : controlMacInput session.toList d m.toNat payload =
      controlMacInput session'.toList d' n.toNat payload') :
    session = session' ∧ d = d' ∧ m = n ∧ payload = payload' := by
  have hflat : session.toList ++ (d.letter :: (toBeBytes m.toNat ++ payload)) =
      session'.toList ++ (d'.letter :: (toBeBytes n.toNat ++ payload')) := by
    have hjoin := List.append_cancel_left h
    simpa using hjoin
  obtain ⟨hsession, hrest⟩ :=
    List.append_inj hflat ((length_session _).trans (length_session _).symm)
  obtain ⟨hletter, hrest⟩ := List.cons.inj hrest
  obtain ⟨hnumber, hpayload⟩ := List.append_inj hrest rfl
  exact ⟨session_injective hsession, letter_injective hletter, number_injective hnumber, hpayload⟩

theorem packet_fields {header header' : Vector UInt8 taggedHeader} {payload payload' : List UInt8}
    (h : (MacInput.packet header payload).message = (MacInput.packet header' payload').message) :
    header = header' ∧ payload = payload' := by
  have hflat : header.toList ++ payload = header'.toList ++ payload' := by
    have hjoin := List.append_cancel_left h
    simpa using hjoin
  obtain ⟨hheader, hpayload⟩ := List.append_inj hflat (by simp)
  exact ⟨session_injective hheader, hpayload⟩

theorem lane_fields {session session' : Vector UInt8 16} {m n : UInt64}
    (h : laneInput session.toList m.toNat = laneInput session'.toList n.toNat) :
    session = session' ∧ m = n := by
  have hflat : session.toList ++ toBeBytes m.toNat = session'.toList ++ toBeBytes n.toNat := by
    have hjoin := List.append_cancel_left h
    simpa using hjoin
  obtain ⟨hsession, hnumber⟩ :=
    List.append_inj hflat ((length_session _).trans (length_session _).symm)
  exact ⟨session_injective hsession, number_injective hnumber⟩

theorem MacInput.eq_of_message {a b : MacInput} (h : a.message = b.message) : a = b := by
  have hkind := kind_eq_of_message h
  cases a with
  | clientHello challenge hello =>
    cases b <;> cases hkind
    obtain ⟨hc, rfl⟩ := clientHelloInput_injective
      ((length_hash_bytes _).trans (length_hash_bytes _).symm) h
    obtain rfl := hash_bytes_injective hc
    rfl
  | serverHello challenge hello nonce =>
    cases b <;> cases hkind
    obtain ⟨rfl, rfl, rfl⟩ := transcript_fields (serverHelloInput_injective h)
    rfl
  | clientFinish challenge hello nonce =>
    cases b <;> cases hkind
    obtain ⟨rfl, rfl, rfl⟩ := transcript_fields (clientFinishInput_injective h)
    rfl
  | sessionRoot challenge hello nonce =>
    cases b <;> cases hkind
    obtain ⟨rfl, rfl, rfl⟩ := transcript_fields (sessionRootInput_injective h)
    rfl
  | sessionId | c2sKey | s2cKey | udpKey | laneKey =>
    cases b <;> cases hkind
    rfl
  | control session direction sequence payload =>
    cases b <;> cases hkind
    obtain ⟨rfl, rfl, rfl, rfl⟩ := control_fields h
    rfl
  | packet header payload =>
    cases b <;> cases hkind
    obtain ⟨rfl, rfl⟩ := packet_fields h
    rfl
  | lane session number =>
    cases b <;> cases hkind
    obtain ⟨rfl, rfl⟩ := lane_fields h
    rfl

/-- Computations of HMAC on one message are of one kind and agree in all fields, whatever the texts
and the payloads in them. -/
theorem mac_inputs_unambiguous (a b : MacInput) : a.message = b.message ↔ a = b :=
  ⟨MacInput.eq_of_message, congrArg MacInput.message⟩

/-! ## The program computes nothing else

Every tag that is written or accepted belongs to one of these computations.
-/

section Calls

variable {α : Type}

theorem exists_vector {n : Nat} {bytes : List UInt8} (h : bytes.length = n) :
    ∃ v : Vector UInt8 n, v.toList = bytes := by
  subst h
  exact ⟨⟨bytes.toArray, by simp⟩, by simp⟩

theorem exists_number {n : Nat} (h : n < 2 ^ 64) : ∃ v : UInt64, v.toNat = n :=
  ⟨UInt64.ofNatLT n h, UInt64.toNat_ofNatLT⟩

theorem only_lift {P : WireCall → Prop} {r : Except Stop α} {β : Type} {f : α → WireProg β}
    (h : ∀ a, r = .ok a → (f a).Only P) : (Prog.lift r >>= f).Only P := by
  rcases r with e | a
  · exact only_done _
  · exact h a rfl

theorem only_require {P : WireCall → Prop} {value : Option α} {text : String} {β : Type}
    {f : α → WireProg β} (h : ∀ a, value = some a → (f a).Only P) :
    (require value text >>= f).Only P := by
  cases value with
  | none => exact only_done _
  | some a => exact h a rfl

theorem only_readByte : readByte.Only TagsInput := by
  refine ⟨trivial, fun r => ?_⟩
  rcases r with e | b
  · exact only_done _
  · exact only_done _

theorem only_writeLine (line : Str) : (writeLine line).Only TagsInput := by
  refine ⟨trivial, fun r => ?_⟩
  rcases r with e | b
  · exact only_done _
  · exact only_done _

theorem only_randomBytes : randomBytes.Only TagsInput := by
  refine ⟨trivial, fun r => ?_⟩
  rcases r with e | b
  · exact only_done _
  · exact only_done _

theorem only_readLineFrom (n : Nat) (bytes : List UInt8) :
    (readLineFrom n bytes).Only TagsInput := by
  induction n generalizing bytes with
  | zero => exact only_done _
  | succ n ih =>
    refine only_readByte.bind fun r => ?_
    rcases r with _ | b
    · exact only_done _
    · refine only_ite ?_ (only_ite (only_done _) (ih _))
      unfold require
      split
      · exact only_done _
      · exact only_done _

theorem only_readGreetingFrom (n : Nat) (greeting : List UInt8) :
    (readGreetingFrom n greeting).Only TagsInput := by
  induction n generalizing greeting with
  | zero => exact only_done _
  | succ n ih =>
    refine only_readByte.bind fun r => ?_
    rcases r with _ | b
    · exact only_done _
    · exact only_ite (only_done _) (ih _)

end Calls

section Programs

variable [Sha256]

theorem only_writeTagged {key : Hash} {message : List UInt8} {line : Str}
    (h : ∃ input : MacInput, message = input.message) :
    (writeTagged key message line).Only TagsInput :=
  (only_writeLine _).bind fun _ => ⟨h, fun _ => only_done _⟩

theorem only_checkTag {key : Hash} {message supplied : List UInt8} {text : String}
    (h : ∃ input : MacInput, message = input.message) :
    (checkTag key message supplied text).Only TagsInput :=
  only_ite (only_done _) ⟨h, fun _ => only_done _⟩

theorem only_clientHandshake (key : Hash) (hello : Str) :
    (clientHandshake key hello).Only TagsInput := by
  refine (only_readLineFrom _ _).bind fun _ => only_require fun _ _ => only_lift fun challenge hc => ?_
  obtain ⟨challenge, rfl⟩ := exists_vector (length_decodeArray hc)
  refine (only_writeTagged ⟨.clientHello challenge hello, rfl⟩).bind fun _ =>
    (only_readLineFrom _ _).bind fun serverLine => ?_
  split
  · refine only_ite (only_done _) (only_lift fun nonce hn => only_lift fun _ _ => ?_)
    obtain ⟨nonce, rfl⟩ := exists_vector (length_decodeArray hn)
    refine (only_checkTag ⟨.serverHello challenge hello nonce, rfl⟩).bind fun _ => ?_
    exact (only_writeTagged ⟨.clientFinish challenge hello nonce, rfl⟩).bind fun _ => only_done _
  · exact only_done _

theorem only_serverHandshake (key : Hash) : (serverHandshake key).Only TagsInput := by
  refine only_randomBytes.bind fun challenge => (only_writeLine _).bind fun _ =>
    (only_readLineFrom _ _).bind fun _ => only_require fun _ _ => only_require fun parts _ => ?_
  obtain ⟨hello, mac⟩ := parts
  refine only_lift fun _ _ => (only_checkTag ⟨.clientHello challenge hello, rfl⟩).bind fun _ => ?_
  refine only_randomBytes.bind fun nonce => ?_
  refine (only_writeTagged ⟨.serverHello challenge hello nonce, rfl⟩).bind fun _ => ?_
  refine (only_readLineFrom _ _).bind fun _ => only_require fun _ _ => only_lift fun _ _ => ?_
  exact (only_checkTag ⟨.clientFinish challenge hello nonce, rfl⟩).bind fun _ => only_done _

theorem only_send {writer : ControlWriter} (payload : Str) (hs : writer.auth.session.length = 16)
    (hn : writer.sequence < 2 ^ 64) : (writer.send payload).Only TagsInput := by
  obtain ⟨session, hsession⟩ := exists_vector hs
  obtain ⟨sequence, hsequence⟩ := exists_number hn
  refine only_ite (only_done _) ((only_writeTagged ?_).bind fun _ =>
    only_ite (only_done _) (only_done _))
  refine ⟨.control session writer.direction sequence payload, ?_⟩
  rw [MacInput.message, hsession, hsequence]

theorem only_recv {reader : ControlReader} (hs : reader.auth.session.length = 16)
    (hn : reader.sequence < 2 ^ 64) : reader.recv.Only TagsInput := by
  obtain ⟨session, hsession⟩ := exists_vector hs
  obtain ⟨number, hnumber⟩ := exists_number hn
  refine (only_readLineFrom _ _).bind fun line => only_ite (only_done _) ?_
  refine only_require fun _ _ => only_require fun sequence _ => ?_
  show (if sequence ≠ reader.sequence then _ else _ : WireProg _).Only TagsInput
  split
  · exact only_done _
  next heq =>
    refine only_require fun tail _ => only_require fun parts _ => ?_
    obtain ⟨payload, mac⟩ := parts
    refine only_lift fun _ _ => (only_checkTag ?_).bind fun _ =>
      only_ite (only_done _) (only_done _)
    refine ⟨.control session reader.direction number payload, ?_⟩
    rw [MacInput.message, hsession, hnumber, not_not.1 heq]

theorem only_readTcp4Hello (auth : SessionAuth) : (readTcp4Hello auth).Only TagsInput := by
  refine (only_readGreetingFrom _ _).bind fun _ => only_require fun greeting _ => ?_
  split
  · refine only_ite (only_done _) (only_lift fun session hs => only_require fun lane hl => ?_)
    refine only_lift fun _ _ => only_ite (only_done _) ((only_checkTag ?_).bind fun _ => only_done _)
    obtain ⟨session, rfl⟩ := exists_vector (length_decodeArray hs)
    obtain ⟨number, rfl⟩ := exists_number (parseUnsigned_lt hl)
    exact ⟨.lane session number, rfl⟩
  · exact only_done _

/-- The session keys are derived from the session root, under the labels of their kinds. -/
theorem deriveSession_inputs (psk challenge nonce : Hash) (hello : Str) :
    let root := hmacSha256 psk.bytes (MacInput.sessionRoot challenge hello nonce).message
    deriveSession psk (transcriptOf challenge.bytes hello nonce.bytes) =
      { session := (hmacSha256 root.bytes MacInput.sessionId.message).bytes.take 16
        c2s := hmacSha256 root.bytes MacInput.c2sKey.message
        s2c := hmacSha256 root.bytes MacInput.s2cKey.message
        udp := hmacSha256 root.bytes MacInput.udpKey.message
        lane := hmacSha256 root.bytes MacInput.laneKey.message } := rfl

/-- The tag of a datagram is computed over its header before the tag and its payload. -/
theorem udpTagParts_input (key : Hash) (header : Vector UInt8 taggedHeader) (payload : List UInt8) :
    udpTagParts key header.toList payload =
      (hmacSha256 key.bytes (MacInput.packet header payload).message).bytes.take udpTagLen := by
  simp [udpTagParts, hmacSha256, hmacSha256Parts, MacInput.message]

end Programs

end PacketTide.Auth
