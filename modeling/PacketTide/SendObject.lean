import PacketTide.ReceiveOn
import PacketTide.Tcp4
import PacketTide.UdpTransfer

/-!
# The whole sender

A sender that has greeted a receiver sends the manifest for content reuse, reads the answer, sends the object over
the transport of its greeting, and waits to be told that the object is there.
-/

namespace PacketTide

open Effects FileSystem Prog Text

/-! ## What happens to a sender -/

/-- What happens while an object is sent by datagrams. -/
inductive SendMove where
  /-- The next line of the receiver is read. -/
  | hear
  | disconnect (error : String)
  | act (orders : Nat → FirstKey) (delays : Nat → ℚ≥0)
  /-- The next action of the sending thread fails. -/
  | fail
  | wait (time : ℚ≥0)

/-- The inputs of both threads; no line is read before it has come. -/
def SendMove.inputs : List SendMove → List Str → List SendInput
  | [], _ => []
  | .hear :: moves, [] => inputs moves []
  | .hear :: moves, line :: lines => .hear line :: inputs moves lines
  | .disconnect error :: moves, lines => .disconnect error :: inputs moves lines
  | .act orders delays :: moves, lines => .act orders delays :: inputs moves lines
  | .fail :: moves, lines => .fail :: inputs moves lines
  | .wait time :: moves, lines => .wait time :: inputs moves lines

/-- A sender that has greeted a receiver, and what its surroundings do. -/
structure ObjectSend where
  greeting : SendGreeting
  auth : Auth.SessionAuth
  /-- The manifest that it has announced for content reuse. -/
  reuse : Option Cdc.Manifest := none
  repairCooldown : ℚ := 0
  idleTimeout : ℚ := 0
  /-- The payloads that come from the receiver. -/
  lines : List Str := []
  /-- Whether the coming writes of payloads succeed. -/
  fates : List Bool := []
  /-- The file, as it is read for a single connection. -/
  file : DataStream := { input := [] }
  /-- After how many bytes of the object that connection breaks. -/
  breaks : Option (Nat × Errno) := none
  /-- The file, as it is read for four connections, and what becomes of these. -/
  lanes : Tcp4Send := { source := [] }
  /-- When the sending of datagrams starts, and what happens then. -/
  started : ℚ := 0
  moves : List SendMove := []

/-- How a sender ends; its errors are left out. -/
inductive SendEnd where
  | ok
  | error
  /-- It is still at work. -/
  | working
  deriving DecidableEq

/-- What a sender has come to, and the payloads that it has written. -/
structure ObjectSent where
  result : SendEnd
  said : List Str

/-! ## The control channel -/

/-- Write payloads one after the other, up to the first that fails. -/
def ControlWriter.writeAll : ControlWriter → List Str → Except AnyError Unit × ControlWriter
  | writer, [] => (.ok (), writer)
  | writer, payload :: payloads =>
    match writer.attempt payload with
    | (.ok (), writer) => writer.writeAll payloads
    | (.error e, writer) => (.error e, writer)

/-- `send_tcp4`: greet on each connection, and then write each lane to its own. -/
def Tcp4Send.run [Sha256] (s : Tcp4Send) (auth : Auth.SessionAuth) : Except AnyError Unit := do
  (List.range Auth.tcp4Lanes).forM fun lane => (s.greet auth lane).1
  (List.range Auth.tcp4Lanes).forM fun lane =>
    let range := tcp4LaneRange s.source.length lane
    (sendTcpRange s.source (range.2 - range.1) range.1 range.2 (s.reads lane) (s.greet auth lane).2).1

namespace ObjectSend

def acknowledge (writer : ControlWriter) : ObjectSent :=
  match writer.attempt (ascii "COMPLETE_ACK") with
  | (.ok (), writer) => ⟨.ok, writer.sent⟩
  | (.error _, writer) => ⟨.error, writer.sent⟩

def expectCompletion (writer : ControlWriter) (lines : List Str) : ObjectSent :=
  match nextLine lines with
  | .error _ => ⟨.error, writer.sent⟩
  | .ok (completion, _) => if completion ≠ ascii "COMPLETE" then ⟨.error, writer.sent⟩ else acknowledge writer

/-- The parameters of the datagram sender. -/
def udpSender (s : ObjectSend) (acceptance : Acceptance) : UdpSender where
  size := s.greeting.size
  chunks := s.greeting.chunks
  payloadBytes := s.greeting.payloadBytes
  durableChunks := acceptance.durableChunks
  repairCooldown := s.repairCooldown
  idleTimeout := s.idleTimeout

/-- `send_udp`. -/
def sendUdp (s : ObjectSend) (writer : ControlWriter) (acceptance : Acceptance) (lines : List Str) : ObjectSent :=
  let c := s.udpSender acceptance
  let sending := (Sending.start c s.started).run c (SendMove.inputs s.moves lines)
  ⟨match sending.phase with
    | .acknowledged => .ok
    | .failed => .error
    | _ => .working,
    writer.sent ++ saidOf sending.log⟩

/-- The transfer of an object that has been accepted. -/
def transfer [Sha256] (s : ObjectSend) (writer : ControlWriter) (acceptance : Acceptance) (lines : List Str) :
    ObjectSent :=
  if acceptance.alreadyComplete then acknowledge writer
  else
    match s.greeting.transport with
    | .tcp =>
      match (sendTcp (s.file.input.length + 1) s.file { breaks := s.breaks }).1 with
      | .error _ => ⟨.error, writer.sent⟩
      | .ok () => expectCompletion writer lines
    | .tcp4 =>
      match s.lanes.run s.auth with
      | .error _ => ⟨.error, writer.sent⟩
      | .ok () => expectCompletion writer lines
    | .udp => s.sendUdp writer acceptance lines

/-- `send`, from its greeting on. -/
def run [Sha256] (s : ObjectSend) : ObjectSent :=
  match ControlWriter.writeAll { fates := s.fates } (s.reuse.elim [] Cdc.manifestPayloads) with
  | (.error _, writer) => ⟨.error, writer.sent⟩
  | (.ok (), writer) =>
    match readAcceptance s.greeting.transport s.greeting.chunks s.greeting.payloadBytes s.greeting.reportInterval
        s.lines with
    | .error _ => ⟨.error, writer.sent⟩
    | .ok (acceptance, lines) => s.transfer writer acceptance lines

end ObjectSend

/-! ## Both ends -/

/-- A sender and a receiver of one session: the greeting is that of the sender, and only the sender can acknowledge
the completion. -/
structure Paired [Sha256] (sender : ObjectSend) (script : ObjectScript) : Prop where
  greeting : ∀ key body auth, script.handshake key = .ok (body, auth) → body = sender.greeting.hello
  acknowledged : script.Acknowledges sender.greeting.transport → ascii "COMPLETE_ACK" ∈ sender.run.said

/-- What has come from a receiver is the beginning of what it has said so far. -/
def ReadsFrom (lines : List Str) (site t : Site) : Prop :=
  ∃ said, t.control.sent = site.control.sent ++ said ∧ lines <+: said

/-- A path leads to a file with a hash. -/
def LeadsToHash [Sha256] (hash : Hash) (path : Path) (fs : FS) : Prop :=
  ∃ p content, fs.resolve true path = .ok p ∧ fs.view p = some (.file content) ∧ Sha256.digest content = hash

end PacketTide
