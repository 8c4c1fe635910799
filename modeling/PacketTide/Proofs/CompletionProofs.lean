import PacketTide.Proofs.CdcProofs
import PacketTide.Proofs.FreshnessProofs
import PacketTide.Proofs.GreetingProofs
import PacketTide.Proofs.ObjectReceiptProofs
import PacketTide.Proofs.TelemetryProofs
import PacketTide.SendObject

/-!
# Both ends agree on the completion

A sender that ends well has read that the object is there, and it acknowledges that only when it ends well. A
receiver says that the object is there only when it is. So if either end succeeds, the object is at its destination.
-/

namespace PacketTide

open Effects FileSystem Prog Text

/-! ## The answer of the receiver -/

section Lines

variable {lines rest : List Str} {line : Str}

theorem nextLine_ok (h : nextLine lines = .ok (line, rest)) : lines = line :: rest := by
  cases lines with
  | nil => cases h
  | cons first lines =>
    cases h
    rfl

theorem suffix_of_readResumeWords {bitmap words : Bitmap} (h : readResumeWords bitmap lines = .ok (words, rest)) :
    rest <:+ lines := by
  induction lines generalizing bitmap with
  | nil => cases h
  | cons line lines ih =>
    rw [readResumeWords] at h
    split at h
    · cases h
      exact List.suffix_cons _ _
    · obtain ⟨next, -, h⟩ := except_bind_ok h
      exact (ih h).trans (List.suffix_cons _ _)

theorem suffix_of_readResume {chunks payloadBytes : Nat} {acceptance : Acceptance}
    (h : readResume chunks payloadBytes lines = .ok (acceptance, rest)) :
    rest <:+ lines ∧ acceptance.alreadyComplete = false := by
  obtain ⟨⟨line, after⟩, hline, h⟩ := except_bind_ok h
  rw [nextLine_ok hline]
  dsimp only at h
  split at h
  · obtain ⟨-, -, h⟩ := except_bind_ok h
    obtain ⟨bytes, -, h⟩ := except_bind_ok h
    obtain ⟨count, -, h⟩ := except_bind_ok h
    obtain ⟨-, -, h⟩ := except_bind_ok h
    obtain ⟨⟨words, left⟩, hwords, h⟩ := except_bind_ok h
    obtain ⟨-, -, h⟩ := except_bind_ok h
    obtain ⟨-, -, h⟩ := except_bind_ok h
    cases h
    exact ⟨(suffix_of_readResumeWords hwords).trans (List.suffix_cons _ _), rfl⟩
  · cases h

/-- The line after the counters. -/
theorem suffix_of_answer {transport : Transport} {chunks payloadBytes : Nat} {ready : Str} {telemetry : ReceiverTelemetry}
    {acceptance : Acceptance} (hline : line :: rest <:+ lines) {left : List Str}
    (h : (if line = ascii "COMPLETE" then .ok ({ alreadyComplete := true, telemetry }, rest)
      else if line ≠ ready then .error ("receiver rejected transfer: " ++ asciiText line)
      else if transport ≠ .udp then .ok ({ telemetry }, rest)
      else do
        let (acceptance, lines) ← readResume chunks payloadBytes rest
        return ({ acceptance with telemetry }, lines) : Check (Acceptance × List Str)) = .ok (acceptance, left)) :
    left <:+ lines ∧ (acceptance.alreadyComplete = true → ascii "COMPLETE" ∈ lines) := by
  have hrest : rest <:+ lines := (List.suffix_cons _ _).trans hline
  split at h
  next hcomplete =>
    cases h
    refine ⟨hrest, fun _ => hline.subset ?_⟩
    rw [hcomplete]
    exact List.mem_cons_self
  · split at h
    · cases h
    · split at h
      · cases h
        exact ⟨hrest, fun hcomplete => by cases hcomplete⟩
      · obtain ⟨⟨resumed, left'⟩, hresumed, h⟩ := except_bind_ok h
        obtain ⟨hsuffix, hnot⟩ := suffix_of_readResume hresumed
        cases h
        refine ⟨hsuffix.trans hrest, fun hcomplete => ?_⟩
        rw [hnot] at hcomplete
        cases hcomplete

/-- The lines that are left are some of those that have come, and a receiver that holds the object already has said
so in them. -/
theorem suffix_of_readAcceptance {transport : Transport} {chunks payloadBytes reportInterval : Nat}
    {acceptance : Acceptance}
    (h : readAcceptance transport chunks payloadBytes reportInterval lines = .ok (acceptance, rest)) :
    rest <:+ lines ∧ (acceptance.alreadyComplete = true → ascii "COMPLETE" ∈ lines) := by
  obtain ⟨⟨first, after⟩, hfirst, h⟩ := except_bind_ok h
  have hlines := nextLine_ok hfirst
  dsimp only at h
  split at h
  · obtain ⟨telemetry, -, h⟩ := except_bind_ok h
    obtain ⟨⟨second, left⟩, hsecond, h⟩ := except_bind_ok h
    rw [nextLine_ok hsecond] at hlines
    refine suffix_of_answer ?_ h
    rw [hlines]
    exact List.suffix_cons _ _
  · refine suffix_of_answer ?_ h
    rw [hlines]

end Lines

/-! ## Sending by datagrams -/

namespace Sending

variable {c : UdpSender} {s : Sending} {lines : List Str}

/-- A sender acknowledges only what it has been told, and only when it ends. -/
structure Informed (lines : List Str) (s : Sending) : Prop where
  told : s.complete = true → ascii "COMPLETE" ∈ lines
  acknowledged : s.phase = .acknowledged → s.complete = true
  said : ascii "COMPLETE_ACK" ∈ saidOf s.log → s.phase = .acknowledged

theorem said_emit {payload : Str} (h : payload ≠ ascii "COMPLETE_ACK")
    (hmem : ascii "COMPLETE_ACK" ∈ saidOf (s.emit (.control payload)).log) : ascii "COMPLETE_ACK" ∈ saidOf s.log := by
  have hlog : (s.emit (.control payload)).log = s.log ++ [(s.now, .control payload)] := rfl
  rw [hlog, saidOf_append, List.mem_append, List.mem_singleton] at hmem
  exact hmem.elim id fun heq => absurd heq.symm h

theorem said_emit_packet {sequence : Nat} {repair : Bool}
    (hmem : ascii "COMPLETE_ACK" ∈ saidOf (s.emit (.packet sequence repair)).log) :
    ascii "COMPLETE_ACK" ∈ saidOf s.log := by
  have hlog : (s.emit (.packet sequence repair)).log = s.log ++ [(s.now, .packet sequence repair)] := rfl
  rwa [hlog, saidOf_packet] at hmem

theorem said_heartbeat (hmem : ascii "COMPLETE_ACK" ∈ saidOf (s.heartbeat c).log) :
    ascii "COMPLETE_ACK" ∈ saidOf s.log := by
  unfold heartbeat at hmem
  split at hmem
  · exact said_emit (by decide) hmem
  · exact hmem

/-- Only the last action of a transfer acknowledges it. -/
theorem said_act {orders : Nat → FirstKey} {delays : Nat → ℚ≥0}
    (hmem : ascii "COMPLETE_ACK" ∈ saidOf (s.act c orders delays).log) :
    ascii "COMPLETE_ACK" ∈ saidOf s.log ∨ (s.act c orders delays).phase = .acknowledged := by
  rcases hphase : s.phase with n | n | n | ⟨n, _ | ⟨x, waiting⟩⟩ | _ | _ | (_ | ⟨x, waiting⟩) | _ | _
  all_goals simp only [Sending.act, hphase] at hmem ⊢
  case pass =>
    split at hmem
    · exact .inl (said_emit (by decide) hmem)
    · split at hmem
      · exact .inl (said_emit (by decide) hmem)
      · exact .inl (said_heartbeat hmem)
  case original => exact .inl (said_emit_packet hmem)
  case between =>
    split at hmem
    · exact .inl hmem
    · exact .inl hmem
  case tail =>
    split at hmem
    next hcomplete => exact .inr (by rw [if_pos hcomplete]; rfl)
    · split at hmem
      · exact .inl (said_emit (by decide) hmem)
      · exact .inl (said_heartbeat hmem)
  case interleaved.cons => exact .inl (said_emit_packet hmem)
  case repairing.cons => exact .inl (said_emit_packet hmem)
  all_goals exact .inl hmem

theorem informed_start (now : ℚ) : (start c now).Informed lines :=
  ⟨fun h => absurd h Bool.false_ne_true, fun h => (by cases h), fun h => absurd h List.not_mem_nil⟩

theorem Informed.hear {line : Str} (h : s.Informed lines) (hline : line ∈ lines) : (s.hear c line).Informed lines := by
  unfold Sending.hear
  split
  · exact h
  · split
    next hfeedback =>
      have hcomplete := eq_complete_of_readFeedback hfeedback
      exact ⟨fun _ => hcomplete ▸ hline, fun _ => rfl, h.said⟩
    · exact ⟨h.told, h.acknowledged, h.said⟩
    · exact ⟨h.told, h.acknowledged, h.said⟩
    · exact h

theorem Informed.step {input : SendInput} (h : s.Informed lines) (hinput : ∀ line, input ≠ .hear line) :
    (s.step c input).Informed lines := by
  obtain ⟨-, hcomplete, -, hphase⟩ := learnsNothing_step c s hinput
  refine ⟨fun hdone => h.told (hcomplete ▸ hdone), fun hacknowledged => ?_, fun hsaid => ?_⟩
  · rw [hcomplete]
    exact (hphase hacknowledged).elim h.acknowledged id
  · have hstays : s.phase = .acknowledged → (s.step c input).phase = .acknowledged := by
      intro hdone
      cases input with
      | hear line => exact absurd rfl (hinput line)
      | disconnect error =>
        show (s.disconnect error).phase = _
        unfold Sending.disconnect
        split
        · exact hdone
        · exact hdone
      | act orders delays => simp only [Sending.step, Sending.act, hdone]
      | fail => simp only [Sending.step, Sending.ended, hdone, decide_true, Bool.true_or, if_true]
      | wait time => exact hdone
    have hnew : ascii "COMPLETE_ACK" ∈ saidOf s.log ∨ (s.step c input).phase = .acknowledged := by
      cases input with
      | hear line => exact absurd rfl (hinput line)
      | disconnect error =>
        change _ ∈ saidOf (s.disconnect error).log at hsaid
        unfold Sending.disconnect at hsaid
        split at hsaid
        · exact .inl hsaid
        · exact .inl hsaid
      | act orders delays => exact said_act hsaid
      | fail =>
        change _ ∈ saidOf (if s.ended then s else s.cancel).log at hsaid
        split at hsaid
        · exact .inl hsaid
        · exact .inl (said_emit (by decide) hsaid)
      | wait time => exact .inl hsaid
    exact hnew.elim (fun hold => hstays (h.said hold)) id

/-- Whatever happens to it. -/
theorem Informed.run {moves : List SendMove} {left : List Str} (h : s.Informed lines) (hleft : left ⊆ lines) :
    (s.run c (SendMove.inputs moves left)).Informed lines := by
  induction moves generalizing s left with
  | nil => exact h
  | cons move moves ih =>
    cases move with
    | hear =>
      cases left with
      | nil => exact ih h hleft
      | cons line left =>
        obtain ⟨hline, hleft⟩ := List.cons_subset.1 hleft
        exact ih (h.hear hline) hleft
    | disconnect error => exact ih (h.step fun _ heq => by cases heq) hleft
    | act orders delays => exact ih (h.step fun _ heq => by cases heq) hleft
    | fail => exact ih (h.step fun _ heq => by cases heq) hleft
    | wait time => exact ih (h.step fun _ heq => by cases heq) hleft

end Sending

/-! ## The whole sender -/

/-- A sender ends well only if it has been told, and it acknowledges only if it ends well. -/
structure ObjectSent.Faithful (lines : List Str) (out : ObjectSent) : Prop where
  told : out.result = .ok → ascii "COMPLETE" ∈ lines
  said : ascii "COMPLETE_ACK" ∈ out.said → out.result = .ok

section Sender

variable {writer : ControlWriter} {lines left : List Str} {sent : List Str}

theorem faithful_error (hnot : ascii "COMPLETE_ACK" ∉ sent) : ObjectSent.Faithful lines ⟨.error, sent⟩ :=
  ⟨fun h => (by cases h), fun h => absurd h hnot⟩

theorem faithful_acknowledge (hcomplete : ascii "COMPLETE" ∈ lines) (hnot : ascii "COMPLETE_ACK" ∉ writer.sent) :
    (ObjectSend.acknowledge writer).Faithful lines := by
  have hsent := sent_attempt writer (ascii "COMPLETE_ACK")
  unfold ObjectSend.acknowledge
  rcases hattempt : writer.attempt (ascii "COMPLETE_ACK") with ⟨e | u, writer'⟩
  · rw [hattempt] at hsent
    dsimp only at hsent
    rw [List.append_nil] at hsent
    exact faithful_error (hsent ▸ hnot)
  · exact ⟨fun _ => hcomplete, fun _ => rfl⟩

theorem faithful_expectCompletion (hleft : left ⊆ lines) (hnot : ascii "COMPLETE_ACK" ∉ writer.sent) :
    (ObjectSend.expectCompletion writer left).Faithful lines := by
  cases left with
  | nil => exact faithful_error hnot
  | cons completion left =>
    have hmem : completion ∈ lines := hleft List.mem_cons_self
    show ObjectSent.Faithful lines
      (if completion ≠ ascii "COMPLETE" then ⟨.error, writer.sent⟩ else ObjectSend.acknowledge writer)
    split
    · exact faithful_error hnot
    next hcomplete => exact faithful_acknowledge (not_not.1 hcomplete ▸ hmem) hnot

theorem faithful_sendUdp {sender : ObjectSend} {acceptance : Acceptance} (hleft : left ⊆ lines)
    (hnot : ascii "COMPLETE_ACK" ∉ writer.sent) : (sender.sendUdp writer acceptance left).Faithful lines := by
  have hstart : (Sending.start (sender.udpSender acceptance) sender.started).Informed lines := Sending.informed_start _
  have hinformed : Sending.Informed lines ((Sending.start (sender.udpSender acceptance) sender.started).run
    (sender.udpSender acceptance) (SendMove.inputs sender.moves left)) := hstart.run hleft
  refine ⟨fun hok => ?_, fun hsaid => ?_⟩
  · unfold ObjectSend.sendUdp at hok
    dsimp only at hok
    split at hok
    next hphase => exact hinformed.told (hinformed.acknowledged hphase)
    · cases hok
    · cases hok
  · have hphase := hinformed.said ((List.mem_append.1 hsaid).resolve_left hnot)
    unfold ObjectSend.sendUdp
    dsimp only
    rw [hphase]

theorem faithful_transfer [Sha256] {sender : ObjectSend} {acceptance : Acceptance} (hleft : left ⊆ lines)
    (halready : acceptance.alreadyComplete = true → ascii "COMPLETE" ∈ lines)
    (hnot : ascii "COMPLETE_ACK" ∉ writer.sent) : (sender.transfer writer acceptance left).Faithful lines := by
  unfold ObjectSend.transfer
  split
  next hcomplete => exact faithful_acknowledge (halready hcomplete) hnot
  · split
    · split
      · exact faithful_error hnot
      · exact faithful_expectCompletion hleft hnot
    · split
      · exact faithful_error hnot
      · exact faithful_expectCompletion hleft hnot
    · exact faithful_sendUdp hleft hnot

theorem mem_writeAll {payloads : List Str} {payload : Str}
    (h : payload ∈ (writer.writeAll payloads).2.sent) : payload ∈ writer.sent ∨ payload ∈ payloads := by
  induction payloads generalizing writer with
  | nil => exact .inl h
  | cons first payloads ih =>
    have hsent := sent_attempt writer first
    rw [ControlWriter.writeAll] at h
    rcases hattempt : writer.attempt first with ⟨e | u, writer'⟩
    · rw [hattempt] at h hsent
      dsimp only at h hsent
      rw [hsent, List.append_nil] at h
      exact .inl h
    · rw [hattempt] at h hsent
      dsimp only at h hsent
      rcases ih h with hmem | hmem
      · rw [hsent, List.mem_append, List.mem_singleton] at hmem
        rcases hmem with hmem | rfl
        · exact .inl hmem
        · exact .inr List.mem_cons_self
      · exact .inr (List.mem_cons_of_mem _ hmem)

/-- The lines of a manifest do not acknowledge anything. -/
theorem acknowledgement_not_mem_manifestPayloads (m : Cdc.Manifest) :
    ascii "COMPLETE_ACK" ∉ Cdc.manifestPayloads m := by
  have hletter : ∀ payload ∈ Cdc.manifestPayloads m, payload[1]? = some 68 ∨ payload[1]? = some 32 ∨
      payload[1]? = some 72 := by
    intro payload hmem
    rw [Cdc.manifestPayloads, Cdc.lines_encode, Cdc.manifestLines] at hmem
    simp only [List.cons_append, List.mem_cons, List.mem_append, List.not_mem_nil, or_false] at hmem
    rcases hmem with rfl | (hmem | rfl) | rfl
    · exact .inl rfl
    · obtain ⟨chunk, -, rfl⟩ := List.mem_map.1 hmem
      exact .inr (.inl rfl)
    · exact .inr (.inr rfl)
    · exact .inr (.inr rfl)
  intro hmem
  rcases hletter _ hmem with h | h | h <;> exact absurd h (by decide)

theorem ObjectSend.faithful_run [Sha256] (sender : ObjectSend) : sender.run.Faithful sender.lines := by
  have hnot : ascii "COMPLETE_ACK" ∉
      (ControlWriter.writeAll { fates := sender.fates } (sender.reuse.elim [] Cdc.manifestPayloads)).2.sent := by
    intro hmem
    rcases mem_writeAll hmem with hmem | hmem
    · exact List.not_mem_nil hmem
    · cases hreuse : sender.reuse with
      | none =>
        rw [hreuse] at hmem
        exact List.not_mem_nil hmem
      | some manifest =>
        rw [hreuse] at hmem
        exact acknowledgement_not_mem_manifestPayloads manifest hmem
  unfold ObjectSend.run
  split
  next hwrite =>
    rw [hwrite] at hnot
    exact faithful_error hnot
  next writer hwrite =>
    rw [hwrite] at hnot
    split
    · exact faithful_error hnot
    next acceptance left hread =>
      obtain ⟨hsuffix, halready⟩ := suffix_of_readAcceptance hread
      exact faithful_transfer hsuffix.subset halready hnot

end Sender

/-! ## Both ends -/

section Both

variable [Sha256] {sender : ObjectSend} {script : ObjectScript} {hello : Hello} {path : Path} {fs : FS} {pid : Nat}
  {site : Site}

/-- The object of the greeting has the hash that the sender has announced. -/
theorem Paired.leadsToHash (hp : Paired sender script) (hgreets : script.Greets hello)
    (h : LeadsToObject hello path fs) : LeadsToHash sender.greeting.expectedHash path fs := by
  obtain ⟨key, body, auth, parsed, hhandshake, hparse, rfl⟩ := hgreets
  rw [hp.greeting key body auth hhandshake] at hparse
  obtain ⟨-, -, rfl⟩ := SendGreeting.parseHello_iff.1 hparse
  obtain ⟨p, hresolve, content, hview, hhash⟩ := h
  refine ⟨p, content, hresolve, hview, ?_⟩
  have hbytes := Auth.hex_injective hhash
  exact hash_bytes_injective hbytes

/-- Whenever a sender has ended well, the destination leads to a file with the hash that it has announced, then and
for the rest of the run of the receiver. A receiver that ends well does so with a sender that has ended well, and the
file is there. -/
theorem completion_agreement (args : ReceiveArgs) (h : Placeable pid args.out site.fs) (hp : Paired sender script) :
    Sustains siteMachine siteRefuse
      (fun t => sender.run.result = .ok → ReadsFrom sender.lines site t →
        LeadsToHash sender.greeting.expectedHash args.out t.fs)
      (receiveOn pid args script)
      (fun received t => received ≠ none →
        sender.run.result = .ok ∧ LeadsToHash sender.greeting.expectedHash args.out t.fs) site := by
  refine (sustains_receiveOn args script h).mono (fun t ht hok hreads => ?_) fun received t ht hne => ?_
  · have htold : Told site.control.sent t := by
      obtain ⟨said, hsaid, hprefix⟩ := hreads
      exact ⟨said, hsaid, hprefix.subset (sender.faithful_run.told hok)⟩
    rcases ht with ⟨-, hquiet⟩ | ⟨hello, hgreets, hmoment⟩
    · exact absurd htold hquiet.not_told
    · exact hp.leadsToHash hgreets (hmoment.honest htold)
  · obtain ⟨⟨hello, hgreets, hleads, hack⟩, -⟩ := ht hne
    have htransport : hello.transport = sender.greeting.transport := by
      obtain ⟨key, body, auth, parsed, hhandshake, hparse, rfl⟩ := hgreets
      rw [hp.greeting key body auth hhandshake] at hparse
      obtain ⟨-, -, rfl⟩ := SendGreeting.parseHello_iff.1 hparse
      rfl
    rw [htransport] at hack
    exact ⟨sender.faithful_run.said (hp.acknowledged hack), hp.leadsToHash hgreets hleads⟩

end Both

section Example

open Sample

/-- The sender of the file of one byte, which reads what the receiver has said. -/
def Sample.sevenSender : ObjectSend where
  greeting := sevenGreeting
  auth := sevenAuth
  lines := [ascii "READY 256 10", ascii "COMPLETE"]
  file := { input := [.ok 7] }

theorem Sample.paired_seven : Paired sevenSender sevenObject := by
  refine ⟨fun key body auth h => ?_, fun _ => by decide⟩
  cases h
  rfl

/-- Both ends of the transfer of the file of one byte. -/
theorem completion_agreement_seven : sevenSender.run.result = .ok ∧
    LeadsToHash sevenGreeting.expectedHash ⟨none, [d]⟩
      ((receiveOn 1 ⟨⟨none, [d]⟩, ⟨none, [k]⟩, none⟩ sevenObject).run siteMachine keyed).2.fs :=
  (completion_agreement ⟨⟨none, [d]⟩, ⟨none, [k]⟩, none⟩ placeable_keyed paired_seven).returns (some none) _
    (Succeeds.of_fst (by decide +kernel)) (Option.some_ne_none _)

end Example

end PacketTide
