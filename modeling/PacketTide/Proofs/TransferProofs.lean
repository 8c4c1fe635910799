import PacketTide.Proofs.AcceptanceProofs
import PacketTide.Proofs.ConsistencyProofs
import PacketTide.Proofs.FeedbackProofs
import PacketTide.Proofs.FrontierProofs
import PacketTide.Proofs.PacketProofs
import PacketTide.Proofs.SendStepProofs

/-!
# Steps of a transfer

How a transfer starts, what the sender may read in the lines of the receiver, and what a turn of the
receiver leaves.
-/

namespace PacketTide

open Effects FileSystem FS Prog Text

variable {p : UdpTransfer} {network : Network} {t t' : Transferring}

/-! ## What the receiver writes -/

theorem requests_pong {chunks x : Nat} : ¬Requests chunks (ascii "PONG") x := by
  rintro ⟨snapshot, text, hread, -⟩
  have hpong : readFeedback chunks (ascii "PONG") = .pong := rfl
  rw [hpong] at hread
  cases hread

/-- A report requests no more than its ranges name. -/
theorem requests_report {chunks x : Nat} {telemetry : ReceiverTelemetry} {ranges : List (Nat × Nat)}
    (h : Requests chunks (formatFeedbackReport telemetry ranges) x) :
    ∃ r ∈ ranges, r.1 ≤ x ∧ x ≤ r.2 := by
  obtain ⟨snapshot, text, hread, hnamed⟩ := h
  unfold readFeedback at hread
  split at hread
  · cases hread
  · split at hread
    · split at hread
      next hparse =>
        cases hread
        rw [ranges_of_parseFeedbackReport hparse] at hnamed
        exact mem_of_namedIn hnamed
      · cases hread
    · split at hread
      · cases hread
      · cases hread
      · split at hread
        · cases hread
        · cases hread

/-! ## The start -/

/-- The state in which a transfer starts. -/
structure TransferBegun [Sha256] (p : UdpTransfer) (t : Transferring) : Prop where
  starts : PacketTide.Starts p.receiver p.file t.receiver
  durable : p.sender.durableChunks = t.receiver.receiving.resume.bitmap
  highest : t.receiver.receiving.highest = highestReceived t.receiver.receiving.resume.bitmap
  history : ∃ clock, t.receiver.receiving.frontierHistory =
    [(clock, bitmapFrontier t.receiver.receiving.resume.bitmap)]
  ended : t.receiver.receiving.ended = false
  reordering : t.receiver.receiving.reorderingObserved = false
  telemetry : t.receiver.receiving.telemetry =
    { receivedChunks := t.receiver.receiving.resume.receivedCount }
  sender : ∃ now, t.sender = .start p.sender now
  arrived : t.arrived = 0
  heard : t.heard = t.receiver.site.control.sent.length
  told : t.told = 0

theorem UdpTransfer.Starts.begun [Sha256] (hp : p.Agreed) (h : p.Starts t) : TransferBegun p t := by
  obtain ⟨site, clock, lines, acceptance, hsited, hrun, hsent, haccept, hdurable⟩ := h.receiver
  have hb := hp.invoked.able.bounded
  obtain ⟨reused, content, hentered⟩ := returns_startReceiving hp.invoked clock hsited _ _ hrun
  have hlines : lines = acceptancePayloads p.receiver.hello reused := by
    have heq := hentered.sent_eq
    rw [hsent] at heq
    exact List.append_cancel_left heq
  have hopened := hentered.opened
  have hread := readAcceptance_payloads hopened.bitmap (hb.offset_lt_two_pow (Nat.le_refl _))
    hb.payloadBytes_pos (hopened.count ▸ hopened.chunks_le) hopened.bytes_le []
  rw [List.append_nil, ← hlines, ← hp.chunks, ← hp.payloadBytes, haccept] at hread
  have hbitmap : acceptance.durableChunks = reused.resume.bitmap :=
    congrArg (fun a => a.1.durableChunks) (Except.ok.inj hread)
  have hstate := hentered.state_eq
  dsimp only at hstate
  refine ⟨⟨site, clock, hsited, hrun⟩, ?_, ?_, ⟨clock, ?_⟩, ?_, ?_, ?_, h.sender, h.arrived, h.heard,
    h.told⟩
  · rw [hdurable, hbitmap, hstate]
    rfl
  · rw [hstate]
    rfl
  · rw [hstate]
    rfl
  · rw [hstate]
    rfl
  · rw [hstate]
    rfl
  · rw [hstate]
    rfl

/-! ## Frontiers -/

/-- What lies below the end of a report lies below a frontier, unless the first pass has ended. -/
theorem lt_of_lt_reportEnd {hello : Hello} {s : Receiving} {now : Instant} {x : Nat}
    (h : x < (s.reportEnd hello now).2) (hended : s.ended = false) :
    (∃ e ∈ s.frontierHistory, x < e.2) ∨ ∃ top, s.highest = some top ∧ x ≤ top := by
  have hend : (s.reportEnd hello now).2 = (matureFrontier s.frontierHistory now
      (s.highest.elim 0 (· + 1)) (s.activeGrace hello) (millis hello.repairGrace)).2 := by
    simp [Receiving.reportEnd, hended]
  obtain ⟨hmem, hzero | ⟨e, he, heq⟩⟩ := @matureFrontier_spec s.frontierHistory now
      (s.highest.elim 0 (· + 1)) (s.activeGrace hello) (millis hello.repairGrace)
  · omega
  · rcases hmem e he with hold | hcurrent
    · exact .inl ⟨e, hold, by omega⟩
    · rcases htop : s.highest with _ | top
      · rw [htop, Option.elim_none] at hcurrent
        omega
      · rw [htop, Option.elim_some] at hcurrent
        exact .inr ⟨top, rfl, by omega⟩

/-- A report remembers no frontier but the current one. -/
theorem history_report {hello : Hello} {s : Receiving} {turn : Turn} {e : Instant × Nat}
    (h : e ∈ (s.report hello turn).1.frontierHistory) :
    e ∈ s.frontierHistory ∨ e.2 = s.highest.elim 0 (· + 1) :=
  (@matureFrontier_spec _ _ _ (s.activeGrace hello)).1 e h

/-! ## Turns -/

/-- What a turn leaves after which the loop goes on. -/
structure Went [Sha256] (p : UdpTransfer) (a : LoopState) (turn : Turn) (s₁ : Receiving)
    (b : LoopState) : Prop where
  took : ∃ content content', a.receiving.Sound p.receiver content ∧
    OnDisk p.receiver.pid p.receiver.destination p.file content a.site.fs ∧
    TookSocket p.receiver a.receiving content turn.socket s₁ content'
  reported : ∃ pongs lines, Reported p.receiver.hello
      ((s₁.hear turn.endedClock turn.events).checkpointed turn) turn b.receiving lines ∧
    b.site.control.sent = a.site.control.sent ++ List.replicate pongs (ascii "PONG") ++ lines
  settled : Settled p.receiver p.file b

theorem went_of_settled [Sha256] (hp : p.Agreed) {a b : LoopState} {turn : Turn}
    (ha : Settled p.receiver p.file a)
    (hrun : Succeeds siteMachine siteRefuse (receiveTurn p.receiver p.file a.receiving turn) a.site
      (.running b.receiving) b.site) : ∃ s₁, Went p a turn s₁ b := by
  have hb := hp.invoked.able.bounded
  obtain ⟨content, hs, hd⟩ := ha
  obtain ⟨content', hwent⟩ := wentOn_of_succeeds hb hs hd hrun
  obtain ⟨s₁, s₂, u, pongs, lines, htook, hs₂, -, -, -, hreported, -, hsent⟩ := hwent.begun
  rw [hs₂] at hreported
  exact ⟨s₁, ⟨content, content', hs, hd, htook⟩, ⟨pongs, lines, hreported, hsent⟩,
    content', hwent.sound, hwent.disk⟩

/-- What the socket hands over does not concern reports. -/
theorem TookSocket.reports [Sha256] {r : UdpReceiver} {s s₁ : Receiving} {content content' : List UInt8}
    {socket : Except Errno (Option (List UInt8))} (h : TookSocket r s content socket s₁ content') :
    s₁.frontierHistory = s.frontierHistory ∧ s₁.lastReport = s.lastReport ∧ s₁.ended = s.ended := by
  cases h with
  | none => exact ⟨rfl, rfl, rfl⟩
  | datagram h =>
    cases h with
    | invalid _ => exact ⟨rfl, rfl, rfl⟩
    | duplicate _ _ => exact ⟨rfl, rfl, rfl⟩
    | accepted _ _ _ hs' =>
      rcases hs' with rfl | rfl
      · exact ⟨rfl, rfl, rfl⟩
      · exact ⟨rfl, rfl, rfl⟩

/-- Nothing has changed but what the events and a checkpoint change. -/
structure Attended (events : List ControlEvent) (s₁ s₂ : Receiving) : Prop where
  bitmap : s₂.resume = s₁.resume
  highest : s₂.highest = s₁.highest
  history : s₂.frontierHistory = s₁.frontierHistory
  reordering : s₂.reorderingObserved = s₁.reorderingObserved
  telemetry : s₂.telemetry = s₁.telemetry
  lastReport : s₂.lastReport = s₁.lastReport
  ended_iff : s₂.ended = true ↔ s₁.ended = true ∨ .ended ∈ events

theorem attended_heard (s : Receiving) (clock : Instant) (events : List ControlEvent) :
    Attended events s (s.hear clock events) := by
  unfold Receiving.hear
  split
  next hmem => exact ⟨rfl, rfl, rfl, rfl, rfl, rfl, fun _ => .inr hmem, fun _ => rfl⟩
  next hmem => exact ⟨rfl, rfl, rfl, rfl, rfl, rfl, .inl, fun h => h.resolve_right hmem⟩

theorem attended_hear (s : Receiving) (clock : Instant) (events : List ControlEvent) (turn : Turn) :
    Attended events s ((s.hear clock events).checkpointed turn) := by
  have hhear := attended_heard s clock events
  unfold Receiving.checkpointed
  split
  · exact { hhear with }
  · exact hhear

/-- A turn ends with a report or without one. -/
theorem Went.cases [Sha256] {a b : LoopState} {turn : Turn} {s₁ : Receiving}
    (h : Went p a turn s₁ b) : ∃ s₂ pongs, Attended turn.events s₁ s₂ ∧
      (b.receiving = s₂ ∧ b.site.control.sent = a.site.control.sent ++ List.replicate pongs (ascii "PONG") ∨
        ReportDue p.receiver.hello s₂ turn ∧ b.receiving = (s₂.report p.receiver.hello turn).1 ∧
          b.site.control.sent = a.site.control.sent ++ (List.replicate pongs (ascii "PONG") ++
            [formatFeedbackReport (s₂.report p.receiver.hello turn).1.telemetry
              (s₂.report p.receiver.hello turn).2])) := by
  obtain ⟨pongs, lines, hreported, hsent⟩ := h.reported
  refine ⟨_, pongs, attended_hear s₁ turn.endedClock turn.events turn, ?_⟩
  generalize b.receiving = s' at hreported
  cases hreported with
  | quiet _ => exact .inl ⟨rfl, by rw [hsent, List.append_nil]⟩
  | due hdue => exact .inr ⟨hdue, rfl, by rw [hsent, List.append_assoc]⟩

/-- The events are what the sender said. -/
theorem mem_said_of_tells {events : List ControlEvent} {told : Nat} (h : Tells t events told)
    (hended : .ended ∈ events) : ascii "END" ∈ saidOf t.sender.log := by
  obtain ⟨lines, hlines, -, hevents⟩ := h
  have hmem : ControlEvent.ended ∈ lines.map readControl := by
    rcases hevents with rfl | ⟨text, rfl⟩
    · exact hended
    · rcases List.mem_append.1 hended with hmem | hmem
      · exact hmem
      · cases List.mem_singleton.1 hmem
  obtain ⟨line, hline, hread⟩ := List.mem_map.1 hmem
  have hend : line = ascii "END" := by
    by_contra hne
    unfold readControl at hread
    rw [if_neg hne] at hread
    split at hread
    · cases hread
    · split at hread
      · cases hread
      · split at hread
        · cases hread
        · cases hread
  exact hend ▸ List.drop_subset _ _ (hlines.subset hline)

/-- What the receiver reads from a datagram that was sent. -/
theorem check_of_datagram [Sha256] (hp : p.Agreed) {s : Sending} {k : Nat} {datagram : List UInt8}
    (hsent : (p.datagrams s)[k]? = some (.ok datagram)) :
    ∃ b, (packetsOf s.log)[k]? = some b ∧ checkPacket p.receiver.key p.receiver.hello.chunkLayout
      (received p.receiver.hello.chunkLayout datagram) =
        if p.receiver.hello.chunks ≤ b.1 then none
        else some ⟨b.1, b.2, p.receiver.hello.chunkLayout.payload p.source b.1⟩ := by
  have hb := hp.invoked.able.bounded
  rw [UdpTransfer.datagrams, List.getElem?_map, Option.map_eq_some_iff] at hsent
  obtain ⟨b, hk, hbuild⟩ := hsent
  unfold UdpTransfer.datagram at hbuild
  rw [hp.size, hp.payloadBytes] at hbuild
  have hlimit : p.receiver.hello.payloadBytes < 2 ^ 16 := by
    have hle := hb.payloadBytes_le
    unfold maxUdpPayloadBytes at hle
    omega
  exact ⟨b, hk, @checkPacket_buildPacket _ p.receiver.hello.chunkLayout _ _ _ _ _
      ⟨hb.payloadBytes_pos, hlimit⟩ hbuild⟩

/-- A datagram that was sent carries its chunk. -/
theorem packet_of_datagram [Sha256] (hp : p.Agreed) {s : Sending} {k : Nat} {datagram : List UInt8}
    {packet : Packet} (hsent : (p.datagrams s)[k]? = some (.ok datagram))
    (hcheck : checkPacket p.receiver.key p.receiver.hello.chunkLayout
      (received p.receiver.hello.chunkLayout datagram) = some packet) :
    (packetsOf s.log)[k]? = some (packet.sequence, packet.repair) := by
  obtain ⟨b, hk, hread⟩ := check_of_datagram hp hsent
  rw [hcheck] at hread
  split at hread
  · cases hread
  · rw [hk, Option.some.inj hread]

/-! ## A transfer of one byte -/

section Example

/-- The next action of the sending thread, without a pause. -/
def Transferring.acting (p : UdpTransfer) (t : Transferring) : Transferring :=
  { t with sender := t.sender.step p.sender (.act (fun _ => default) fun _ => 0) }

theorem step_acting [Sha256]
    (hbuilt : ∀ built ∈ p.datagrams (t.acting p).sender, built.isOk = true) :
    TransferStep p network t (.send (.act (fun _ => default) fun _ => 0)) (t.acting p) :=
  .send (fun _ h => nomatch h) hbuilt

/-- The sender of one byte to a receiver that holds nothing yet. -/
def singleTransfer : UdpTransfer where
  sender := ⟨1, 1, 256, [0#64], 15 / 2, 30⟩
  receiver := singleReceiver
  source := [7]
  file := (partOf singleFile).names

theorem agreed_single : @UdpTransfer.Agreed constantDigest singleTransfer :=
  letI := constantDigest
  ⟨invoked_single, rfl, rfl, rfl, rfl⟩

def singleBegun : Transferring where
  sender := .start singleTransfer.sender 0
  receiver := ⟨singleStart, singleSite⟩
  heard := 3

theorem starts_single : @UdpTransfer.Starts constantDigest singleTransfer singleBegun := by
  have hrun : (@startReceiving constantDigest singleReceiver 0).run siteMachine ⟨FS.empty, {}⟩ =
      (.ok ((partOf singleFile).names, singleStart), singleSite) :=
    Prod.ext (by decide) rfl
  let _ := constantDigest
  exact ⟨⟨⟨FS.empty, {}⟩, 0, singleSite.control.sent, { durableChunks := [0#64] }, sited_empty 7,
    .of_run hrun, rfl, by decide +kernel, rfl⟩, ⟨0, rfl⟩, rfl, by decide +kernel, rfl⟩

end Example

end PacketTide
