import PacketTide.Feedback
import PacketTide.Receive
import PacketTide.Reuse
import PacketTide.Site

/-!
# Receiving an object by datagrams

The receiver opens its resume state, tells the sender which chunks it holds, and then takes turns: a
datagram, the messages of the sender, the end of the transfer once all chunks are there, a checkpoint
and a report.
-/

namespace PacketTide

open Effects FileSystem Prog Text

/-- What a receiver of datagrams works with. -/
structure UdpReceiver where
  pid : Nat
  destination : Path
  hello : Hello
  identity : Identity
  /-- The key of the datagrams of the session. -/
  key : Hash
  /-- The manifest of the object and the path of a file to reuse content of. -/
  reuse : Option (Cdc.Manifest × Path) := none

/-- The object of a greeting, if the receiver can keep its state. -/
def Hello.identity (hello : Hello) : Option Identity :=
  match Auth.decodeArray 32 hello.hash with
  | .error _ => none
  | .ok bytes =>
    if h : bytes.toArray.size = 32 ∧ hello.size < 2 ^ 64 ∧ hello.chunks < 2 ^ 64
        ∧ hello.payloadBytes < 2 ^ 64 then
      some ⟨hello.size, hello.chunks, hello.payloadBytes, ⟨bytes.toArray, h.1⟩, h.2.1, h.2.2.1, h.2.2.2⟩
    else none

/-- What the receiver hears from the control thread. -/
inductive ControlEvent where
  | ended
  | ping
  | completeAck
  | cancel (reason : Str)
  | error (text : String)
  deriving DecidableEq

/-- What the surroundings do in one turn of the loop. -/
structure Turn where
  /-- What the socket hands over: a datagram, nothing in time, or an error. -/
  socket : Except Errno (Option (List UInt8)) := .ok none
  /-- The events that have arrived. -/
  events : List ControlEvent := []
  /-- The clock when the end of the first pass is noted, -/
  endedClock : Instant := 0
  /-- when it is checked whether a checkpoint is due, -/
  checkpointClock : Instant := 0
  /-- after the checkpoint, -/
  checkpointedClock : Instant := 0
  /-- when it is checked whether a report is due, -/
  reportClock : Instant := 0
  /-- when the report is put together, -/
  now : Instant := 0
  /-- and after the report. -/
  reportedClock : Instant := 0
  /-- The socket's count of dropped datagrams. -/
  socketDrops : Option Nat := none

/-! ## Times -/

/-- The nanoseconds of a number of milliseconds. -/
def millis (n : Nat) : Nat := n * 1000000

def resumeCheckpointInterval : Nat := millis 1000

def elapsed (since now : Instant) : Nat := (now - since).toNat

/-- Drop the frontiers that were succeeded before a time. -/
def dropSucceeded (cutoff : Instant) : List (Instant × Nat) → List (Instant × Nat)
  | first :: second :: history =>
    if second.1 ≤ cutoff then dropSucceeded cutoff (second :: history) else first :: second :: history
  | history => history

/-- Record the current frontier: the history, and the frontier that has been current for a grace. -/
def matureFrontier (history : List (Instant × Nat)) (now : Instant) (current grace retention : Nat) :
    List (Instant × Nat) × Nat :=
  let history :=
    if history.getLast?.all fun entry => entry.2 ≠ current then history ++ [(now, current)]
    else history
  let history := dropSucceeded (now - retention) history
  (history, (history.reverse.find? fun entry => entry.1 ≤ now - grace).elim 0 (·.2))

/-- The highest chunk of a bitmap. -/
def highestReceived (bitmap : Bitmap) : Option Nat :=
  (bitmap.zipIdx.reverse.find? fun entry => entry.1 ≠ 0#64).map fun entry =>
    entry.2 * 64 + (63 - entry.1.clz.toNat)

/-! ## The start -/

/-- The messages that tell the sender which chunks are there. -/
def resumePayloads (bitmap : Bitmap) : List Str :=
  (bitmap.zipIdx.filter fun entry => entry.1 ≠ 0#64).map fun entry =>
    ascii "H " ++ decimal entry.2 ++ space :: hex (toBeBytes entry.1.toNat)

def readyPayload (hello : Hello) : Str :=
  ascii "READY " ++ decimal hello.payloadBytes ++ space :: decimal hello.reportInterval

def reusedPayload (reused : Reused) : Str :=
  ascii "REUSED " ++ decimal reused.bytes ++ space :: decimal reused.chunks

/-- The messages up to the start of the loop. -/
def acceptancePayloads (hello : Hello) (reused : Reused) : List Str :=
  readyPayload hello :: reusedPayload reused :: resumePayloads reused.resume.bitmap ++ [ascii "GO"]

/-- The variables of the loop at its start. -/
def Receiving.start (state : ResumeState) : Receiving where
  resume := state
  telemetry := { receivedChunks := state.receivedCount }
  highest := none
  reorderingObserved := false
  checkpointDirty := false
  hashFrontier := 0
  hashed := []

/-- Set the variables that depend on the clock when the loop starts. -/
def Receiving.enterLoop (s : Receiving) (clock : Instant) : Receiving :=
  let highest := highestReceived s.resume.bitmap
  { s with
    highest
    frontierHistory := [(clock, highest.elim 0 (· + 1))]
    lastReport := clock
    lastCheckpoint := clock }

/-- The resume state, with the content that is reused. -/
def openReusing [Sha256] (r : UdpReceiver) : FsProg (Loc × Reused) := do
  let (file, state) ← ResumeState.openState r.pid r.destination r.identity
  match r.reuse with
  | some (manifest, candidate) =>
    let reused ← applyReusableContent r.pid file state manifest candidate r.hello.chunkLayout
    return (file, reused)
  | none => return (file, { resume := state })

/-- Everything up to the start of the loop. -/
def startReceiving [Sha256] (r : UdpReceiver) (clock : Instant) : SiteProg (Loc × Receiving) := do
  let (file, reused) ← onFiles (openReusing r)
  let s ← onFiles (advanceHashFrontier file r.hello.chunkLayout (.start reused.resume))
  sendPayloads (acceptancePayloads r.hello reused)
  return (file, s.enterLoop clock)

/-! ## A turn -/

/-- Flush receipts that are not on disk yet. -/
def flushReceipts (pid : Nat) (file : Loc) (s : Receiving) : FsProg Unit :=
  if s.checkpointDirty then s.resume.checkpoint pid file else return ()

def takeSocket [Sha256] (r : UdpReceiver) (file : Loc) (s : Receiving) :
    Except Errno (Option (List UInt8)) → FsProg Receiving
  | .ok (some datagram) => receiveDatagram r.key r.hello.chunkLayout file s datagram
  | .ok none => return s
  | .error e => do
    flushReceipts r.pid file s
    Prog.fail (.io e)

/-- Note the end of the first pass. -/
def Receiving.end (s : Receiving) (clock : Instant) : Receiving :=
  { s with ended := true, endedAt := s.endedAt.or (some clock) }

def takeEvents (pid : Nat) (file : Loc) (clock : Instant) :
    Receiving → List ControlEvent → SiteProg Receiving
  | s, [] => return s
  | s, .ended :: events => takeEvents pid file clock (s.end clock) events
  | s, .ping :: events => do
    sendControl (ascii "PONG")
    takeEvents pid file clock s events
  | _, .completeAck :: _ => stopWith "received completion acknowledgement before completion"
  | s, .cancel _ :: _ => do
    onFiles (flushReceipts pid file s)
    stopWith "sender cancelled transfer"
  | s, .error text :: _ => do
    onFiles (flushReceipts pid file s)
    stopWith text

/-- Bring the counters up to date. -/
def Receiving.update (s : Receiving) (socketDrops : Option Nat) : Receiving :=
  { s with telemetry := { s.telemetry with
      receivedChunks := s.resume.receivedCount
      frontierChunks := s.highest.elim 0 (· + 1)
      socketDrops
      reports := saturatingAdd s.telemetry.reports 1 } }

/-- The end of a transfer of which all chunks are there. -/
def completeReceiving [Sha256] (r : UdpReceiver) (file : Loc) (s : Receiving)
    (socketDrops : Option Nat) : SiteProg Receiving := do
  let s ← onFiles (advanceHashFrontier file r.hello.chunkLayout s)
  if s.hashFrontier ≠ r.hello.chunks then
    stopWith "complete receipt map has a hash-frontier gap"
  else
    onFiles (ask (.sync file))
    if hex (Sha256.digest s.hashed).bytes ≠ r.hello.hash then
      sendControl (ascii "CANCEL hash-mismatch")
      onFiles s.resume.discard
      stopWith "received UDP file hash did not match"
    else
      onFiles (s.resume.install r.destination)
      let s := s.update socketDrops
      sendControl (formatFeedbackReport s.telemetry [])
      sendControl (ascii "COMPLETE")
      return s

def checkpointIfDue (pid : Nat) (file : Loc) (s : Receiving) (turn : Turn) : FsProg Receiving :=
  if s.checkpointDirty ∧ resumeCheckpointInterval ≤ elapsed s.lastCheckpoint turn.checkpointClock then do
    s.resume.checkpoint pid file
    return { s with checkpointDirty := false, lastCheckpoint := turn.checkpointedClock }
  else return s

/-- The grace that is granted to chunks that may have been overtaken. -/
def Receiving.activeGrace (hello : Hello) (s : Receiving) : Nat :=
  if s.reorderingObserved then millis hello.repairGrace else 0

/-- The end of the chunks that a report speaks about, with the history of the frontier. -/
def Receiving.reportEnd (hello : Hello) (s : Receiving) (now : Instant) : List (Instant × Nat) × Nat :=
  let grace := s.activeGrace hello
  let (history, matureEnd) := matureFrontier s.frontierHistory now (s.highest.elim 0 (· + 1)) grace
    (millis hello.repairGrace)
  (history,
    if s.ended && s.endedAt.any fun since => decide (grace ≤ elapsed since now) then hello.chunks
    else matureEnd)

/-- The state after a report and the missing chunks that it names. -/
def Receiving.report (hello : Hello) (s : Receiving) (turn : Turn) : Receiving × List (Nat × Nat) :=
  let (frontierHistory, reportEnd) := s.reportEnd hello turn.now
  let ranges := missingRanges s.resume.bitmap reportEnd maxRangesPerReport
  let s := { s with frontierHistory }
  let s := s.update turn.socketDrops
  ({ s with lastReport := turn.reportedClock }, ranges)

def reportIfDue (hello : Hello) (s : Receiving) (turn : Turn) : SiteProg Receiving :=
  if millis hello.reportInterval ≤ elapsed s.lastReport turn.reportClock then do
    let (s, ranges) := s.report hello turn
    sendControl (formatFeedbackReport s.telemetry ranges)
    return s
  else return s

/-- How a turn ends. -/
inductive Turned where
  /-- The loop goes on. -/
  | running (s : Receiving)
  /-- The object is installed and the sender has been told. -/
  | completed (s : Receiving)
  deriving DecidableEq

/-- The first part of a turn: what has arrived is taken. -/
def beginTurn [Sha256] (r : UdpReceiver) (file : Loc) (s : Receiving) (turn : Turn) :
    SiteProg Receiving := do
  let s ← onFiles (takeSocket r file s turn.socket)
  takeEvents r.pid file turn.endedClock s turn.events

/-- A turn of the loop. -/
def receiveTurn [Sha256] (r : UdpReceiver) (file : Loc) (s : Receiving) (turn : Turn) :
    SiteProg Turned := do
  let s ← beginTurn r file s turn
  if s.ended ∧ s.resume.receivedCount = r.hello.chunks then
    let s ← completeReceiving r file s turn.socketDrops
    return .completed s
  else
    let s ← onFiles (checkpointIfDue r.pid file s turn)
    let s ← reportIfDue r.hello s turn
    return .running s

/-- Turns of the loop, until the transfer is complete. -/
def receiveTurns [Sha256] (r : UdpReceiver) (file : Loc) : Receiving → List Turn → SiteProg Turned
  | s, [] => return .running s
  | s, turn :: turns => do
    match ← receiveTurn r file s turn with
    | .running s => receiveTurns r file s turns
    | .completed s => return .completed s

/-! ## The acknowledgement -/

/-- What the receiver hears while it waits for the acknowledgement. -/
inductive Awaited where
  | event (e : ControlEvent)
  | timeout
  | disconnected

def awaitAcknowledgement : List Awaited → SiteProg Unit
  | [] => stopWith "timed out waiting for completion acknowledgement"
  | .event .completeAck :: _ => return ()
  | .event .ping :: rest => do
    sendControl (ascii "PONG")
    awaitAcknowledgement rest
  | .event .ended :: rest => awaitAcknowledgement rest
  | .event (.cancel _) :: _ => stopWith "sender cancelled transfer"
  | .event (.error text) :: _ => stopWith text
  | .timeout :: _ => stopWith "timed out waiting for completion acknowledgement"
  | .disconnected :: _ => stopWith "control reader stopped before completion acknowledgement"

/-! ## The whole -/

/-- Whether the destination holds the object already. -/
def holdsObject [Sha256] (destination : Path) (hello : Hello) : FsProg Bool := do
  match ← tryStat destination with
  | .error _ => return false
  | .ok metadata =>
    if metadata.len = hello.size then
      let file ← ask (.openFile destination {})
      let content ← ask (.readToEnd file)
      return hex (Sha256.digest content).bytes = hello.hash
    else return false

/-- The counters of a receiver that holds the object already. -/
def completeTelemetry (hello : Hello) (socketDrops : Option Nat) : ReceiverTelemetry where
  receivedChunks := hello.chunks
  frontierChunks := hello.chunks
  socketDrops := socketDrops
  reports := 1

/-- What the surroundings do in a whole transfer. -/
structure UdpScript where
  socketDrops : Option Nat := none
  /-- The line that answers `COMPLETE`, if the object is there already. -/
  answer : Except AnyError Str := .error (.io .other)
  clock : Instant := 0
  turns : List Turn := []
  awaited : List Awaited := []

/-- Tell the sender that the object is there already. -/
def reportComplete (hello : Hello) (socketDrops : Option Nat) (answer : Except AnyError Str) :
    SiteProg ReceiverTelemetry := do
  let telemetry := completeTelemetry hello socketDrops
  sendControl (formatFeedbackReport telemetry [])
  sendControl (ascii "COMPLETE")
  let acknowledgement ← Prog.lift answer
  if acknowledgement ≠ ascii "COMPLETE_ACK" then stopWith "expected completion acknowledgement"
  else return telemetry

/-- Receive an object by datagrams; a receiver that is still in its loop after the turns of the script
has no result. -/
def receiveUdp [Sha256] (r : UdpReceiver) (script : UdpScript) :
    SiteProg (Option ReceiverTelemetry) := do
  if ← onFiles (holdsObject r.destination r.hello) then
    let telemetry ← reportComplete r.hello script.socketDrops script.answer
    return some telemetry
  else
    let (file, s) ← startReceiving r script.clock
    match ← receiveTurns r file s script.turns with
    | .running _ => return none
    | .completed s =>
      awaitAcknowledgement script.awaited
      return some s.telemetry

end PacketTide
