import PacketTide.Repairs

/-!
# Sending an object by datagrams

The sender goes once over the chunks that the receiver does not hold and then sends again what reports
name, until the receiver says that the object is complete. A second thread reads the reports. Times are
in seconds; how long the sender waits between two datagrams is up to the surroundings.
-/

namespace PacketTide

open Text

/-- What a sender of datagrams works with. -/
structure UdpSender where
  size : Nat
  chunks : Nat
  payloadBytes : Nat
  /-- The chunks that the receiver held when it accepted. -/
  durableChunks : Bitmap
  repairCooldown : ℚ
  idleTimeout : ℚ

/-- The time after which a sign of life is due. -/
def UdpSender.heartbeatInterval (c : UdpSender) : ℚ := min (c.idleTimeout / 3) 1

/-- Where the sending thread stands. -/
inductive SendPhase where
  /-- At the head of the first pass, with the next chunk. -/
  | pass (sequence : Nat)
  /-- Before a chunk is sent for the first time, -/
  | original (sequence : Nat)
  /-- after that, -/
  | between (sequence : Nat)
  /-- and while repairs are sent before the next chunk. -/
  | interleaved (sequence : Nat) (waiting : List Nat)
  /-- At the head of the loop after the first pass. -/
  | tail
  /-- Before chunks are taken from the repair queue. -/
  | taking
  | repairing (waiting : List Nat)
  | acknowledged
  | failed
  deriving DecidableEq

/-- The chunks that have been taken from the repair queue and wait to be sent. -/
def SendPhase.waiting : SendPhase → List Nat
  | interleaved _ waiting | repairing waiting => waiting
  | _ => []

inductive SendEvent where
  | packet (sequence : Nat) (repair : Bool)
  | control (payload : Str)
  deriving DecidableEq

/-- The state of both threads. -/
structure Sending where
  phase : SendPhase
  repairs : RepairQueue
  lastHeartbeat : ℚ
  now : ℚ
  complete : Bool := false
  feedbackError : Option String := none
  telemetry : ReceiverTelemetry := {}
  /-- What has been sent, with the times. -/
  log : List (ℚ × SendEvent) := []
  deriving DecidableEq

/-- The sender when it has been accepted. -/
def Sending.start (c : UdpSender) (now : ℚ) : Sending where
  phase := .pass 0
  repairs := { cooldown := c.repairCooldown }
  lastHeartbeat := now
  now

/-! ## The reading thread -/

/-- What a line of the receiver is. -/
inductive Feedback where
  | complete
  | report (snapshot : ReceiverTelemetry) (ranges : Str)
  | stopped (error : String)
  | pong
  deriving DecidableEq

def readFeedback (chunks : Nat) (line : Str) : Feedback :=
  if line = ascii "COMPLETE" then .complete
  else if (stripPrefix (ascii "M ") line).isSome then
    match parseFeedbackReport line chunks with
    | .ok (snapshot, ranges) => .report snapshot ranges
    | .error e => .stopped e
  else
    match stripPrefix (ascii "CANCEL ") line, stripPrefix (ascii "ERROR ") line with
    | some message, _ => .stopped ("receiver cancelled transfer: " ++ asciiText message)
    | none, some message => .stopped ("receiver error: " ++ asciiText message)
    | none, none =>
      if line = ascii "PONG" then .pong
      else .stopped ("unexpected receiver feedback: " ++ asciiText line)

namespace Sending

/-- The reading thread runs until the transfer is complete or it stops with an error. -/
def listening (s : Sending) : Bool := !s.complete && s.feedbackError.isNone

/-- A report has been read. -/
def takeReport (c : UdpSender) (s : Sending) (snapshot : ReceiverTelemetry) (ranges : Str) :
    Sending :=
  let (repairs, outcome) := enqueueRepairs (s.repairs.expire s.now) ranges c.chunks
  { s with
    telemetry := { snapshot with reports := saturatingAdd s.telemetry.reports 1 }
    repairs
    feedbackError := match outcome with
      | .ok () => none
      | .error e => some e }

/-- A line of the receiver has been read. -/
def hear (c : UdpSender) (s : Sending) (line : Str) : Sending :=
  if s.listening = false then s
  else
    match readFeedback c.chunks line with
    | .complete => { s with complete := true }
    | .report snapshot ranges => s.takeReport c snapshot ranges
    | .stopped error => { s with feedbackError := some error }
    | .pong => s

/-- The connection has failed. -/
def disconnect (s : Sending) (error : String) : Sending :=
  if s.listening = false then s
  else { s with feedbackError := some ("receiver feedback stopped: " ++ error) }

/-! ## The sending thread -/

def enter (s : Sending) (phase : SendPhase) : Sending := { s with phase }

def emit (s : Sending) (event : SendEvent) : Sending := { s with log := s.log ++ [(s.now, event)] }

/-- Give a sign of life, if one is due. -/
def heartbeat (c : UdpSender) (s : Sending) : Sending :=
  if c.heartbeatInterval ≤ max 0 (s.now - s.lastHeartbeat) then
    { s.emit (.control (ascii "PING")) with lastHeartbeat := s.now }
  else s

/-- Stop with an error. -/
def cancel (s : Sending) : Sending :=
  (s.emit (.control (ascii "CANCEL sender-error"))).enter .failed

/-- How many chunks the next action takes from the repair queue, at most. -/
def takeLimit (s : Sending) : Nat :=
  match s.phase with
  | .between sequence => if sequence % 16 = 15 then 4 else 0
  | .taking => 1024
  | _ => 0

/-- The next action of the sending thread. -/
def act (c : UdpSender) (s : Sending) (orders : Nat → FirstKey) (delays : Nat → ℚ≥0) : Sending :=
  let taken := takeRepairs orders delays s.now s.repairs s.takeLimit
  let sequences := taken.entries.map Prod.fst
  match s.phase with
  | .pass sequence =>
    if c.chunks ≤ sequence then (s.emit (.control (ascii "END"))).enter .tail
    else if s.feedbackError.isSome then s.cancel
    else (s.heartbeat c).enter
      (if bitmapContains c.durableChunks sequence then .pass (sequence + 1) else .original sequence)
  | .original sequence => (s.emit (.packet sequence false)).enter (.between sequence)
  | .between sequence =>
    if sequence % 16 = 15 then
      { s with repairs := taken.repairs, now := taken.now, phase := .interleaved sequence sequences }
    else s.enter (.pass (sequence + 1))
  | .interleaved sequence [] => s.enter (.pass (sequence + 1))
  | .interleaved sequence (repair :: waiting) =>
    (s.emit (.packet repair true)).enter (.interleaved sequence waiting)
  | .tail =>
    if s.complete then (s.emit (.control (ascii "COMPLETE_ACK"))).enter .acknowledged
    else if s.feedbackError.isSome then s.cancel
    else (s.heartbeat c).enter .taking
  | .taking =>
    { s with
      repairs := taken.repairs
      now := taken.now
      phase := if sequences = [] then .tail else .repairing sequences }
  | .repairing [] => s.enter .tail
  | .repairing (repair :: waiting) => (s.emit (.packet repair true)).enter (.repairing waiting)
  | .acknowledged | .failed => s

end Sending

/-! ## Runs -/

/-- What happens in a run. -/
inductive SendInput where
  | hear (line : Str)
  | disconnect (error : String)
  | act (orders : Nat → FirstKey) (delays : Nat → ℚ≥0)
  /-- The next action of the sending thread fails. -/
  | fail
  | wait (time : ℚ≥0)

namespace Sending

/-- Whether the sending thread has ended. -/
def ended (s : Sending) : Bool := s.phase = .acknowledged || s.phase = .failed

def step (c : UdpSender) (s : Sending) : SendInput → Sending
  | .hear line => s.hear c line
  | .disconnect error => s.disconnect error
  | .act orders delays => s.act c orders delays
  | .fail => if s.ended then s else s.cancel
  | .wait time => { s with now := s.now + time }

def run (c : UdpSender) (s : Sending) (inputs : List SendInput) : Sending :=
  inputs.foldl (step c) s

/-- Every input of a run is related to the state that it meets. -/
def Along (c : UdpSender) (P : Sending → SendInput → Prop) (s : Sending) : List SendInput → Prop
  | [] => True
  | input :: inputs => P s input ∧ (s.step c input).Along c P inputs

end Sending

/-! ## Repairs in a run -/

/-- Chunks are sent again only after a cooldown. -/
def RepairsSpaced (cooldown : ℚ) (log : List (ℚ × SendEvent)) : Prop :=
  ∀ before t₁ between t₂ after sequence,
    log = before ++ (t₁, .packet sequence true) :: between ++ (t₂, .packet sequence true) :: after →
    t₁ + cooldown ≤ t₂

/-- A chunk does not wait, and a cooldown has passed since it was last sent again. -/
def Sending.Cool (c : UdpSender) (s : Sending) (sequence : Nat) : Prop :=
  sequence ∉ s.phase.waiting ∧
    ∀ t, (t, SendEvent.packet sequence true) ∈ s.log → t + c.repairCooldown ≤ s.now

/-- What an input makes the map forget, because it is older than a cooldown or because there is no
room, is cool. -/
def Sending.ForgetsCool (c : UdpSender) (s : Sending) : SendInput → Prop
  | .hear line => s.listening = true → ∀ snapshot ranges,
      readFeedback c.chunks line = .report snapshot ranges →
      ∀ e ∈ s.repairs.lastSent, c.repairCooldown ≤ max 0 (s.now - e.2) → s.Cool c e.1
  | .act orders delays =>
    EachForgotten (fun taken _ forgotten => forgotten ∉ taken ∧ s.Cool c forgotten) orders delays s.now
      s.repairs [] s.takeLimit
  | _ => True

end PacketTide
