import PacketTide.UdpSession

/-!
# Rounds of repair

When the sender has ended its first pass, the receiver reports on all chunks. In a round the sender reads
such a report, sends again what it has queued, and all of this arrives.
-/

namespace PacketTide

open Effects FileSystem Prog Text

/-- The chunks that a transfer misses, in ascending order. -/
def UdpTransfer.missing (p : UdpTransfer) (t : Transferring) : List Nat :=
  clearChunks p.receiver.hello.chunks t.receiver.receiving.resume.bitmap

/-- A turn ends with a report on all chunks: one is due, the first pass has ended, and the grace that is
granted since then is over. -/
structure ReportsAll (p : UdpTransfer) (t : Transferring) (turn : Turn) (t' : Transferring) : Prop where
  due : millis p.receiver.hello.reportInterval ≤ elapsed t.receiver.receiving.lastReport turn.reportClock
  ended : t'.receiver.receiving.ended = true
  graced : t'.receiver.receiving.endedAt.any (fun since =>
    decide (t'.receiver.receiving.activeGrace p.receiver.hello ≤ elapsed since turn.now)) = true

/-- Steps of a transfer, up to the turn in which the receiver completes the object. -/
inductive Proceeds [Sha256] (p : UdpTransfer) (network : Network) :
    Transferring → List TransferInput → UdpSession → Prop where
  | nil {t : Transferring} : Proceeds p network t [] ⟨t, false⟩
  | step {t u : Transferring} {input : TransferInput} {inputs : List TransferInput} {s : UdpSession}
      (h : TransferStep p network t input u) (rest : Proceeds p network u inputs s) :
      Proceeds p network t (input :: inputs) s
  | completed {t : Transferring} {turn : Turn} {last : Receiving} {site : Site}
      (h : Succeeds siteMachine siteRefuse (receiveTurn p.receiver p.file t.receiver.receiving turn)
        t.receiver.site (.completed last) site) :
      Proceeds p network t [.turn turn] ⟨t.atSite site, true⟩

/-- A round: what the parties do in it, and what the surroundings have to do for it. -/
structure Round [Sha256] (p : UdpTransfer) (network : Network) where
  start : Transferring
  turn : Turn
  reported : Transferring
  read : Transferring
  line : Str
  asked : Transferring
  inputs : List TransferInput
  finish : UdpSession
  /-- The receiver reports on all chunks. -/
  report : TransferStep p network start (.turn turn) reported
  reportsAll : ReportsAll p start turn reported
  /-- Anything may happen until the sender reads this report, when nothing is queued and all repairs are
  past their cooldown. -/
  between : Leads p network (fun _ _ => True) reported read
  next : read.heard + 1 = reported.receiver.site.control.sent.length
  queue : read.sender.repairs.queue = []
  waiting : read.sender.phase.waiting = []
  cool : ∀ e ∈ read.sender.repairs.lastSent, read.sender.repairs.cooldown ≤ max 0 (read.sender.now - e.2)
  hear : TransferStep p network read (.send (.hear line)) asked
  listening : asked.sender.listening = true
  /-- The sender goes on until nothing is queued any more. -/
  proceeds : Proceeds p network asked inputs finish
  unfailing : ∀ input ∈ inputs, ∀ i, input = .send i → i ≠ .fail
  queue_sent : finish.transfer.sender.repairs.queue = []
  waiting_sent : finish.transfer.sender.phase.waiting = []
  /-- Whatever it has sent again is handed over to the receiver, while it is in its loop. -/
  delivered : finish.left = false → ∀ sequence,
    (sequence, true) ∈ (packetsOf finish.transfer.sender.log).drop (packetsOf asked.sender.log).length →
    ∃ datagram turn, p.datagram (sequence, true) = .ok datagram ∧ .turn turn ∈ inputs ∧
      turn.socket = .ok (some datagram)

/-- The chunks that a round is about: those of the first runs of missing chunks, as many as the queue takes. -/
def Round.asks [Sha256] {p : UdpTransfer} {network : Network} (round : Round p network) : List Nat :=
  (sequencesOf (missingRanges round.reported.receiver.receiving.resume.bitmap p.receiver.hello.chunks
    maxRangesPerReport)).take maxQueuedRepairs

/-- The chunks that have been sent again. -/
def repairsOf (log : List (ℚ × SendEvent)) : List Nat :=
  ((packetsOf log).filter fun packet => packet.2).map Prod.fst

/-- The chunks that are sent again in a round. -/
def Round.repairs [Sha256] {p : UdpTransfer} {network : Network} (round : Round p network) : List Nat :=
  (repairsOf round.finish.transfer.sender.log).drop (repairsOf round.asked.sender.log).length

/-- A number of rounds, with other steps in between. -/
inductive Rounds [Sha256] (p : UdpTransfer) (network : Network) (t : Transferring) : Nat → UdpSession → Prop where
  | start : Rounds p network t 0 ⟨t, false⟩
  | step {n : Nat} {u v : Transferring} {input : TransferInput} (h : Rounds p network t n ⟨u, false⟩)
      (hstep : TransferStep p network u input v) : Rounds p network t n ⟨v, false⟩
  | round {n : Nat} (round : Round p network) (h : Rounds p network t n ⟨round.start, false⟩) :
      Rounds p network t (n + 1) round.finish

end PacketTide
