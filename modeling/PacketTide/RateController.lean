import PacketTide.ReceiveUdp
import Mathlib.Algebra.Order.Floor.Semiring
import Mathlib.Data.Rat.Floor
import Mathlib.Data.Rat.Cast.Order

/-!
# The rate of the sender

Unless the rate is fixed, the sender follows the reports of the receiver: at most once in an interval it
compares a report with the last one that it has decided by. Rates, in megabits per second, and times, in
seconds, are exact rational numbers here.
-/

namespace PacketTide

inductive RateDecisionKind where
  | increase
  | decrease
  | hold
  deriving DecidableEq

structure RateDecision where
  elapsedMs : Nat
  kind : RateDecisionKind
  oldRateMbps : ℚ
  newRateMbps : ℚ
  usefulRateMbps : ℚ
  wasteRatio : ℚ
  reason : String
  deriving DecidableEq

def maxRateDecisions : Nat := 4096

structure RateController where
  fixed : Bool
  rateMbps : ℚ
  minRateMbps : ℚ
  maxRateMbps : ℚ
  decisionInterval : ℚ
  started : ℚ
  lastDecision : ℚ
  lastTelemetry : ReceiverTelemetry := {}
  decisions : List RateDecision := []
  decisionCount : Nat := 0
  increaseCount : Nat := 0
  decreaseCount : Nat := 0
  holdCount : Nat := 0
  deriving DecidableEq

/-- What a decision is made by: the differences to the report of the last decision. -/
structure RateSignal where
  accepted : Nat
  socketDrops : Nat
  usefulRateMbps : ℚ
  wasteRatio : ℚ

namespace RateController

def new (fixedRateMbps : Option ℚ) (minRateMbps maxRateMbps reportInterval now : ℚ) : RateController :=
  let rateMbps := fixedRateMbps.getD minRateMbps
  { fixed := fixedRateMbps.isSome
    rateMbps
    minRateMbps := if fixedRateMbps.isSome then rateMbps else minRateMbps
    maxRateMbps := if fixedRateMbps.isSome then rateMbps else maxRateMbps
    decisionInterval := max (reportInterval * 4) (200 / 1000)
    started := now
    lastDecision := now }

/-- The time since the last decision. -/
def elapsed (c : RateController) (now : ℚ) : ℚ := max 0 (now - c.lastDecision)

/-- Whether a report is decided by. -/
def Decides (c : RateController) (now : ℚ) : Prop := ¬(c.fixed = true ∨ c.elapsed now < c.decisionInterval)

instance (c : RateController) (now : ℚ) : Decidable (c.Decides now) := inferInstanceAs (Decidable (¬_))

/-- The drops that are attributed to the time since the last decision. -/
def dropsSince (c : RateController) (telemetry : ReceiverTelemetry) : Nat :=
  match telemetry.socketDrops, c.lastTelemetry.socketDrops with
  | some current, some previous => current - previous
  | some current, none => current
  | none, _ => 0

def signal (c : RateController) (telemetry : ReceiverTelemetry) (now : ℚ) (payloadBytes : Nat) : RateSignal :=
  let accepted := telemetry.acceptedDatagrams - c.lastTelemetry.acceptedDatagrams
  let valid := telemetry.validDatagrams - c.lastTelemetry.validDatagrams
  let socketDrops := c.dropsSince telemetry
  let duplicates := valid - accepted
  { accepted
    socketDrops
    usefulRateMbps := accepted * payloadBytes * 8 / c.elapsed now / 1000000
    wasteRatio := if valid = 0 then 0 else saturatingAdd duplicates socketDrops / valid }

/-- The rate that a signal suggests, and why. -/
def candidate (oldRate : ℚ) (s : RateSignal) : ℚ × String :=
  if s.accepted = 0 then (oldRate * (7 / 10), "stalled_progress")
  else if 3 / 100 < s.wasteRatio ∨ 0 < s.socketDrops then (oldRate * (7 / 10), "receiver_waste")
  else if oldRate * (8 / 10) ≤ s.usefulRateMbps then
    (max (oldRate * (125 / 100)) (oldRate + 1), "useful_throughput_followed_load")
  else if s.usefulRateMbps < oldRate * (1 / 2) then (oldRate * (85 / 100), "throughput_fell_behind_load")
  else (oldRate, "insufficient_signal")

/-- Keep a rate within the bounds. -/
def clamp (c : RateController) (rate : ℚ) : ℚ := min (max rate c.minRateMbps) c.maxRateMbps

def kindOf (oldRate newRate : ℚ) : RateDecisionKind :=
  if oldRate < newRate then .increase else if newRate < oldRate then .decrease else .hold

def observe (c : RateController) (telemetry : ReceiverTelemetry) (now : ℚ) (payloadBytes : Nat) :
    RateController :=
  if c.fixed = true ∨ c.elapsed now < c.decisionInterval then c
  else
    let s := c.signal telemetry now payloadBytes
    let oldRate := c.rateMbps
    let (rate, reason) := candidate oldRate s
    let rateMbps := c.clamp rate
    let kind := kindOf oldRate rateMbps
    let decision : RateDecision := {
      elapsedMs := ⌊max 0 (now - c.started) * 1000⌋₊
      kind
      oldRateMbps := oldRate
      newRateMbps := rateMbps
      usefulRateMbps := s.usefulRateMbps
      wasteRatio := s.wasteRatio
      reason }
    { c with
      rateMbps
      decisionCount := saturatingAdd c.decisionCount 1
      increaseCount := if kind = .increase then saturatingAdd c.increaseCount 1 else c.increaseCount
      decreaseCount := if kind = .decrease then saturatingAdd c.decreaseCount 1 else c.decreaseCount
      holdCount := if kind = .hold then saturatingAdd c.holdCount 1 else c.holdCount
      decisions := if c.decisions.length < maxRateDecisions then c.decisions ++ [decision] else c.decisions
      lastDecision := now
      lastTelemetry := telemetry }

end RateController

/-! ## Drops

The receiver reports a counter of the kernel, which belongs to a socket and not to a transfer: the files of
a directory are received on one socket one after the other.
-/

/-- A report, and when it is observed. -/
structure Observation where
  telemetry : ReceiverTelemetry
  now : ℚ

/-- The readings of the counter that have been available. -/
def readings (reports : List Observation) : List Nat := reports.filterMap (·.telemetry.socketDrops)

/-- The last reading of a counter that has started from a value. -/
def lastReading (start : Nat) (reports : List Observation) : Nat := (readings reports).getLastD start

/-- The readings come from a counter that has started from a value and never decreases. -/
def Readings (start : Nat) (reports : List Observation) : Prop :=
  (start :: readings reports).Pairwise (· ≤ ·)

namespace RateController

/-- The sum of the drops that are attributed to the intervals between decisions. -/
def charged (payloadBytes : Nat) : RateController → List Observation → Nat
  | _, [] => 0
  | c, report :: reports =>
    (if c.Decides report.now then (c.signal report.telemetry report.now payloadBytes).socketDrops else 0) +
      charged payloadBytes (c.observe report.telemetry report.now payloadBytes) reports

/-- The readings, if available, of the reports that come an interval after the one that was decided by last. -/
def readingsAfter (interval : ℚ) : ℚ → List Observation → List (Option Nat)
  | _, [] => []
  | last, report :: reports =>
    if max 0 (report.now - last) < interval then readingsAfter interval last reports
    else report.telemetry.socketDrops :: readingsAfter interval report.now reports

/-- The readings that are decided by. -/
def decidedReadings (c : RateController) (reports : List Observation) : List (Option Nat) :=
  if c.fixed then [] else readingsAfter c.decisionInterval c.lastDecision reports

/-- A counter is decided by right after it was not available only as long as it has not moved from zero. -/
def Unmoved (start : Nat) (decided : List (Option Nat)) : Prop :=
  ∀ before reading after, none :: decided = before ++ none :: some reading :: after →
    start = 0 ∧ ∀ earlier, some earlier ∈ before → earlier = 0

end RateController

/-! ## A bottleneck -/

/-- A path that takes so many datagrams of a size in each interval between two decisions. -/
structure Bottleneck where
  capacity : Nat
  payloadBytes : Nat
  interval : ℚ

namespace Bottleneck

/-- The number of datagrams in an interval for each megabit per second. -/
def datagramsPerRate (p : Bottleneck) : ℚ := p.interval * 1000000 / (p.payloadBytes * 8)

/-- The least rate at which a datagram is dropped. -/
def limit (p : Bottleneck) : ℚ := (p.capacity + 1) / p.datagramsPerRate

/-- The counters after an interval at a rate. -/
def report (p : Bottleneck) (rate : ℚ) (telemetry : ReceiverTelemetry) : ReceiverTelemetry :=
  let offered := ⌊rate * p.datagramsPerRate⌋₊
  let accepted := min offered p.capacity
  { telemetry with
    acceptedDatagrams := telemetry.acceptedDatagrams + accepted
    validDatagrams := telemetry.validDatagrams + accepted
    socketDrops := some (telemetry.socketDrops.getD 0 + (offered - accepted)) }

/-- The controller and the counters after some intervals, from a rate on. -/
def run (p : Bottleneck) (start : RateController) : Nat → RateController × ReceiverTelemetry
  | 0 => (start, { socketDrops := some 0 })
  | n + 1 =>
    let (c, telemetry) := p.run start n
    let telemetry := p.report c.rateMbps telemetry
    (c.observe telemetry (c.lastDecision + p.interval) p.payloadBytes, telemetry)

/-- The rate after some intervals. -/
def rateAfter (p : Bottleneck) (start : RateController) (n : Nat) : ℚ := (p.run start n).1.rateMbps

end Bottleneck

end PacketTide
