import PacketTide.Acceptance
import PacketTide.Handshake
import PacketTide.ReceiveTcp

/-!
# Sending an object over TCP

The sender writes the object to the control connection as it reads it from the file, up to the end of the
file, and then waits for the receiver to confirm it. The receiver takes as many bytes as the greeting has
announced, and reads frames of the control channel from there on.
-/

namespace PacketTide

open Effects FileSystem Prog Text

/-- The writing end of a connection: the bytes that have been written to it, and after how many more it
breaks, if it does. -/
structure BulkStream where
  written : List UInt8 := []
  breaks : Option (Nat × Errno) := none

/-- `write_all`; a write that fails may have written a part of the bytes. -/
def BulkStream.writeAll (out : BulkStream) (bytes : List UInt8) : Except AnyError Unit × BulkStream :=
  match out.breaks with
  | none => (.ok (), { out with written := out.written ++ bytes })
  | some (left, e) =>
    if bytes.length ≤ left then
      (.ok (), { written := out.written ++ bytes, breaks := some (left - bytes.length, e) })
    else (.error (.io e), { written := out.written ++ bytes.take left, breaks := some (0, e) })

/-- Write a file that is read from its start on; every read but the last one returns a byte or fails, so there
is one read more than there are bytes at most. -/
def sendTcp : Nat → DataStream → BulkStream → Except AnyError Unit × BulkStream
  | 0, _, out => (.ok (), out)
  | n + 1, file, out =>
    match file.read bulkBufferLen with
    | (.error e, _) => (.error (.io e), out)
    | (.ok [], _) => (.ok (), out)
    | (.ok (b :: bytes), file) =>
      match out.writeAll (b :: bytes) with
      | (.error e, out) => (.error e, out)
      | (.ok (), out) => sendTcp n file out

/-! ## The sender -/

/-- A sender over TCP that has greeted the receiver. -/
structure TcpSend where
  greeting : SendGreeting
  auth : Auth.SessionAuth
  /-- The payloads that come from the receiver. -/
  lines : List Str
  /-- The file, as it is read for sending. -/
  file : DataStream
  /-- After how many bytes of the object the connection breaks. -/
  breaks : Option (Nat × Errno) := none
  /-- Whether the coming writes of frames fail. -/
  failures : List (Option Errno) := []

/-- What a sender has come to: the plain bytes and, after them, the frames that it has written. -/
structure TcpSent where
  result : Except Stop Unit
  raw : List UInt8 := []
  control : Wire := {}

namespace TcpSend

variable [Sha256]

/-- Write the acknowledgement, which is the first frame of the sender. -/
def acknowledge (s : TcpSend) (raw : List UInt8) : TcpSent :=
  let (result, control) := ((Auth.ControlWriter.mk s.auth .clientToServer 0).send (ascii "COMPLETE_ACK")).run
    wireMachine { failures := s.failures }
  { result := result.map fun _ => (), raw, control }

def expectCompletion (s : TcpSend) (raw : List UInt8) (lines : List Str) : TcpSent :=
  match nextLine lines with
  | .error text => { result := .error (.error (.message text)), raw }
  | .ok (completion, _) =>
    if completion ≠ ascii "COMPLETE" then
      { result := .error (.error (.message ("transfer did not complete: " ++ asciiText completion))), raw }
    else s.acknowledge raw

/-- `send`, from the answer of the receiver on. -/
def run (s : TcpSend) : TcpSent :=
  match readAcceptance .tcp s.greeting.chunks s.greeting.payloadBytes s.greeting.reportInterval s.lines with
  | .error text => { result := .error (.error (.message text)) }
  | .ok (acceptance, lines) =>
    if acceptance.alreadyComplete then s.acknowledge []
    else
      match sendTcp (s.file.input.length + 1) s.file { breaks := s.breaks } with
      | (.error e, out) => { result := .error (.error e), raw := out.written }
      | (.ok (), out) => s.expectCompletion out.written lines

/-- Nothing stops the sender: the file can be read to its end and written, the receiver accepts and confirms
the transfer, and the acknowledgement can be written. -/
structure Completes (s : TcpSend) (content : List UInt8) : Prop where
  read : s.file.input = content.map .ok
  written : ∀ left e, s.breaks = some (left, e) → content.length ≤ left
  confirmed : ∃ rest, s.lines = (ascii "READY " ++ decimal s.greeting.payloadBytes ++
    space :: decimal s.greeting.reportInterval) :: ascii "COMPLETE" :: rest
  acknowledged : ∀ e, s.failures.head? ≠ some (some e)

end TcpSend

/-! ## Both ends -/

/-- `receive_on` for a transfer over TCP, from its answer on. -/
def receiveOnTcp [Sha256] (temporary destination : Path) (hello : Hello) (stream : DataStream)
    (answer : Except AnyError Str) : SiteProg Unit := do
  sendControl (readyPayload hello)
  receiveTcp temporary destination hello stream answer

/-- A sender and a receiver at the two ends of a connection. -/
structure TcpRun where
  sender : TcpSend
  hello : Hello
  temporary : Path
  destination : Path
  /-- How many bytes beyond the first the reads of the receiver may return. -/
  sizes : List Nat := []
  site : Site
  /-- Which calls of the receiver fail. -/
  plan : List (Option Errno) := []

namespace TcpRun

variable [Sha256]

/-- The bytes of a sender after its greeting. -/
def stream (r : TcpRun) : List UInt8 :=
  r.sender.run.raw ++ r.sender.run.control.output.flatMap (· ++ [newline])

/-- The bytes that are left for the frames of the control channel. -/
def afterObject (r : TcpRun) : List UInt8 := r.stream.drop r.hello.size

/-- The receiver reads a frame after the object. -/
def reading (r : TcpRun) : Except Stop (Str × Auth.ControlReader) × Wire :=
  (Auth.ControlReader.mk r.sender.auth .clientToServer 0).recv.run wireMachine
    { input := r.afterObject.map .ok }

/-- The acknowledgement, as the receiver reads it; a panic ends the receiver as an error does. -/
def answer (r : TcpRun) : Except AnyError Str :=
  match r.reading.1 with
  | .ok (payload, _) => .ok payload
  | .error (.error e) => .error e
  | .error .panic => .error (.message "panicked")

/-- The result of the receiver, and the files and payloads that it leaves. -/
def receiver (r : TcpRun) : Except AnyError Unit × Site × List (Option Errno) :=
  (receiveOnTcp r.temporary r.destination r.hello { input := r.stream.map .ok, sizes := r.sizes } r.answer).runPlan
    siteMachine siteRefuse r.plan r.site

/-- Each end reads what the other one writes, and nobody else can write a frame of the session. -/
structure Connected (r : TcpRun) : Prop where
  size_eq : r.hello.size = r.sender.greeting.size
  payloadBytes_eq : r.hello.payloadBytes = r.sender.greeting.payloadBytes
  reportInterval_eq : r.hello.reportInterval = r.sender.greeting.reportInterval
  fresh : r.site.control.sent = []
  lines : r.sender.lines = r.receiver.2.1.control.sent
  authentic : ∀ m ∈ r.reading.2.accepted, m ∈ r.sender.run.control.vouched

/-- The sender writes as many plain bytes as it has announced, or fails; then the receiver comes to the frames
of the sender after the object, and both ends agree on whether the transfer has succeeded. -/
structure InStep (r : TcpRun) : Prop where
  announced : (∃ e, r.sender.run.result = .error e) ∨ r.sender.run.raw.length = r.sender.greeting.size
  framed : r.sender.run.result = .ok () →
    r.afterObject = r.sender.run.control.output.flatMap (· ++ [newline])
  agree : r.sender.run.result = .ok () ↔ r.receiver.1 = .ok ()

end TcpRun

end PacketTide
