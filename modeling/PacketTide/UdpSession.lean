import PacketTide.UdpTransfer

/-!
# Sessions

A transfer by datagrams up to its end: the receiver may leave its loop while the sender goes on.
-/

namespace PacketTide

open Effects FileSystem Prog Text

/-- A transfer whose receiver may have left its loop. -/
structure UdpSession where
  transfer : Transferring
  left : Bool := false

/-- The receiver has written to the control channel, or its files have changed. -/
def Transferring.atSite (t : Transferring) (site : Site) : Transferring :=
  { t with receiver := { t.receiver with site } }

/-- The count of dropped datagrams is a number of 64 bits. -/
def Turn.Typed (turn : Turn) : Prop := ∀ drops, turn.socketDrops = some drops → drops < 2 ^ 64

/-- A step of a session. -/
inductive SessionStep [Sha256] (p : UdpTransfer) (network : Network) (s : UdpSession) : UdpSession → Prop where
  /-- The sender goes on, or the receiver does while it is in its loop. -/
  | goes {input : TransferInput} {t : Transferring} (hleft : s.left = true → ∃ i, input = .send i)
      (htyped : ∀ turn, input = .turn turn → turn.Typed)
      (h : TransferStep p network s.transfer input t) : SessionStep p network s { s with transfer := t }
  /-- The receiver leaves its loop somewhere in a turn, because the object is complete or something fails. -/
  | leaves {turn : Turn} {site : Site} (hleft : s.left = false) (htyped : turn.Typed)
      (hvisits : Visits siteMachine siteRefuse
        (receiveTurn p.receiver p.file s.transfer.receiver.receiving turn) s.transfer.receiver.site site) :
      SessionStep p network s ⟨s.transfer.atSite site, true⟩
  /-- Outside of its loop it writes no reports. -/
  | speaks {line : Str} {site : Site} (hleft : s.left = true) (hline : stripPrefix (ascii "M ") line = none)
      (hsent : site.control.sent = s.transfer.receiver.site.control.sent ++ [line]) :
      SessionStep p network s { s with transfer := s.transfer.atSite site }

/-- The sessions that may follow a start. -/
def SessionReaches [Sha256] (p : UdpTransfer) (network : Network) (t : Transferring) : UdpSession → Prop :=
  Relation.ReflTransGen (SessionStep p network) ⟨t, false⟩

/-- A session in which both sides have come to the end: the receiver has completed the object and returns its
counters, and the sender has read this and has acknowledged it. -/
def CompletesBoth [Sha256] (p : UdpTransfer) (network : Network) (t : Transferring) (s : UdpSession)
    (telemetry : ReceiverTelemetry) : Prop :=
  ∃ mid turn last site, SessionReaches p network t ⟨mid, false⟩ ∧ turn.Typed ∧
    Succeeds siteMachine siteRefuse (receiveTurn p.receiver p.file mid.receiver.receiving turn)
      mid.receiver.site (.completed last) site ∧ last.telemetry = telemetry ∧
    Relation.ReflTransGen (SessionStep p network) ⟨mid.atSite site, true⟩ s ∧
    s.transfer.sender.phase = .acknowledged

/-- The lines that the receiver has written since the start. -/
def UdpSession.linesSince (s : UdpSession) (t : Transferring) : List Str :=
  s.transfer.receiver.site.control.sent.drop t.heard

/-- A line is no report, or one of counters that pass the checks of the sender unless the count of valid
datagrams has stopped at its largest value and some chunks are new. -/
def ReportPasses (chunks : Nat) (line : Str) : Prop :=
  stripPrefix (ascii "M ") line = none ∨ ∃ telemetry ranges, line = formatFeedbackReport telemetry ranges ∧
    (telemetry.validDatagrams < 2 ^ 64 - 1 ∨ telemetry.acceptedDatagrams = 0 →
      ∃ read, parseFeedbackReport line chunks = .ok read)

/-- The chunks that a bitmap does not have, in ascending order. -/
def clearChunks (chunks : Nat) (bitmap : Bitmap) : List Nat :=
  (List.range chunks).filter fun i => !bitmapContains bitmap i

end PacketTide
