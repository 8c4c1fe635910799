import Mathlib.Logic.Relation
import PacketTide.Pacer
import PacketTide.RateController

/-!
# Pacing at the rate of the controller

Before it counts a datagram, an adaptive sender takes over the rate of the controller, which the thread that
reads the reports may have changed since. A pacer of which the rate changes starts anew.
-/

namespace PacketTide

/-- The rate in bytes per second. -/
def RateController.bytesPerSecond (c : RateController) : ℚ := c.rateMbps * 1000000 / 8

def Pacer.setBytesPerSecond (p : Pacer) (bytesPerSecond now : ℚ) : Pacer :=
  if p.bytesPerSecond = bytesPerSecond then p
  else
    { p with
      bytesPerSecond
      started := now
      bytesSent := 0
      bytesSinceWait := 0
      batchBytes := batchFor bytesPerSecond }

/-- Take over the rate at a time, and count the bytes of a datagram at another. -/
def paceWithController (p : Pacer) (c : RateController) (adaptive : Bool) (bytes : Nat) (entered looked : ℚ) :
    Pacer × ℚ :=
  (if adaptive then p.setBytesPerSecond c.bytesPerSecond entered else p).accountAndWait bytes looked

/-- The pacer and the controller of a sender, the bytes that have been counted, and when the last call of the
pacer has returned. -/
structure Pacing where
  pacer : Pacer
  controller : RateController
  sent : Nat := 0
  clock : ℚ

/-- The sending thread counts a datagram, or the reading thread observes a report. A decision that is taken
over has been made before. -/
inductive PacingStep (adaptive : Bool) (s : Pacing) : Pacing → Prop where
  | datagram {bytes : Nat} {entered looked returned : ℚ} (hclock : s.clock ≤ entered)
      (hdecided : s.controller.lastDecision ≤ entered) (hlooked : entered ≤ looked)
      (hreturned : looked + (paceWithController s.pacer s.controller adaptive bytes entered looked).2 ≤ returned) :
      PacingStep adaptive s
        { s with
          pacer := (paceWithController s.pacer s.controller adaptive bytes entered looked).1
          sent := s.sent + bytes
          clock := returned }
  | report (telemetry : ReceiverTelemetry) (now : ℚ) (payloadBytes : Nat) :
      PacingStep adaptive s { s with controller := s.controller.observe telemetry now payloadBytes }

/-- The controller after some reports. -/
def Observed : RateController → RateController → Prop :=
  Relation.ReflTransGen fun c c' => ∃ telemetry now payloadBytes, c' = c.observe telemetry now payloadBytes

/-- The reading thread runs already when the pacer takes its first rate. -/
structure PacingBegins (controller : RateController) (begun : ℚ) (s : Pacing) : Prop where
  observed : Observed controller s.controller
  decided : s.controller.lastDecision ≤ begun
  pacer : s.pacer = .new s.controller.bytesPerSecond begun
  sent : s.sent = 0
  clock : s.clock = begun

end PacketTide
