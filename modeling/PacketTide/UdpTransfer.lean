import PacketTide.Acceptance
import PacketTide.ReceiveRuns
import PacketTide.SendUdp

/-!
# Transfers by datagrams

Both parties of a transfer between the acceptance and its end. The lines of the control channel arrive
in order; what becomes of the datagrams is up to the network.
-/

namespace PacketTide

open Effects FileSystem Prog Text

/-- The parties of a transfer, the object that is sent and the partial file that is received. -/
structure UdpTransfer where
  sender : UdpSender
  receiver : UdpReceiver
  source : List UInt8
  file : Loc

/-- The receiver has been invoked for the object that the sender sends. -/
structure UdpTransfer.Agreed [Sha256] (p : UdpTransfer) : Prop where
  invoked : p.receiver.Invoked
  size : p.sender.size = p.receiver.hello.size
  chunks : p.sender.chunks = p.receiver.hello.chunks
  payloadBytes : p.sender.payloadBytes = p.receiver.hello.payloadBytes
  source : p.source.length = p.sender.size

/-- A transfer under way. -/
structure Transferring where
  sender : Sending
  receiver : LoopState
  /-- How many of the datagrams that have been sent have arrived or have been lost. -/
  arrived : Nat := 0
  /-- How many lines of the receiver have been read. -/
  heard : Nat := 0
  /-- How many lines of the sender have been read. -/
  told : Nat := 0

/-! ## What has been sent -/

/-- The chunks of the datagrams, and whether they were sent again. -/
def packetsOf (log : List (ℚ × SendEvent)) : List (Nat × Bool) :=
  log.filterMap fun
    | (_, .packet sequence repair) => some (sequence, repair)
    | _ => none

/-- The payloads on the control channel. -/
def saidOf (log : List (ℚ × SendEvent)) : List Str :=
  log.filterMap fun
    | (_, .control payload) => some payload
    | _ => none

def UdpTransfer.datagram [Sha256] (p : UdpTransfer) (packet : Nat × Bool) :
    Except AnyError (List UInt8) :=
  buildPacket p.source p.sender.size p.receiver.key packet.1 packet.2 p.sender.payloadBytes

def UdpTransfer.datagrams [Sha256] (p : UdpTransfer) (s : Sending) :
    List (Except AnyError (List UInt8)) := (packetsOf s.log).map p.datagram

/-! ## What arrives -/

/-- Which datagrams may arrive next, given what has been sent and how much of this is past, and how much
is past then. -/
abbrev Network : Type := List (Except AnyError (List UInt8)) → Nat → List UInt8 → Nat → Prop

/-- The network loses nothing. -/
def Network.clean : Network := fun sent arrived datagram arrived' =>
  sent[arrived]? = some (.ok datagram) ∧ arrived' = arrived + 1

/-- The network may lose datagrams, but keeps their order. -/
def Network.lossy : Network := fun sent arrived datagram arrived' =>
  ∃ k, arrived ≤ k ∧ sent[k]? = some (.ok datagram) ∧ arrived' = k + 1

/-- What the control thread makes of a line of the sender. -/
def readControl (line : Str) : ControlEvent :=
  if line = ascii "END" then .ended
  else if line = ascii "PING" then .ping
  else if line = ascii "COMPLETE_ACK" then .completeAck
  else
    match stripPrefix (ascii "CANCEL ") line with
    | some reason => .cancel reason
    | none => .error "unexpected control message"

/-- What the socket may hand over in a turn. -/
inductive Arrives [Sha256] (p : UdpTransfer) (network : Network) (t : Transferring) :
    Except Errno (Option (List UInt8)) → Nat → Prop where
  | nothing : Arrives p network t (.ok none) t.arrived
  | datagram {datagram : List UInt8} {arrived : Nat}
      (h : network (p.datagrams t.sender) t.arrived datagram arrived) :
      Arrives p network t (.ok (some datagram)) arrived
  | failure (e : Errno) : Arrives p network t (.error e) t.arrived

/-- The events that the control thread may hand over in a turn: some of the lines that have not been read,
and perhaps the end of the connection. -/
def Tells (t : Transferring) (events : List ControlEvent) (told : Nat) : Prop :=
  ∃ lines, lines <+: (saidOf t.sender.log).drop t.told ∧ told = t.told + lines.length ∧
    (events = lines.map readControl ∨ ∃ text, events = lines.map readControl ++ [.error text])

/-! ## Runs -/

/-- A step of a transfer: one of the sender or a turn of the receiver. -/
inductive TransferInput where
  | send (input : SendInput)
  | turn (turn : Turn)

/-- A step of a transfer in which the loop of the receiver goes on. -/
inductive TransferStep [Sha256] (p : UdpTransfer) (network : Network) (t : Transferring) :
    TransferInput → Transferring → Prop where
  | hear {line : Str} (h : t.receiver.site.control.sent[t.heard]? = some line) :
      TransferStep p network t (.send (.hear line))
        { t with sender := t.sender.hear p.sender line, heard := t.heard + 1 }
  | send {input : SendInput} (hinput : ∀ line, input ≠ .hear line)
      (hbuilt : ∀ built ∈ p.datagrams (t.sender.step p.sender input), built.isOk = true) :
      TransferStep p network t (.send input) { t with sender := t.sender.step p.sender input }
  | turn {turn : Turn} {receiver : LoopState} {arrived told : Nat}
      (harrives : Arrives p network t turn.socket arrived) (htells : Tells t turn.events told)
      (hrun : Succeeds siteMachine siteRefuse (receiveTurn p.receiver p.file t.receiver.receiving turn)
        t.receiver.site (.running receiver.receiving) receiver.site) :
      TransferStep p network t (.turn turn) { t with receiver, arrived, told }

/-- A transfer starts: the receiver has answered the greeting, and the sender has read the answer. -/
structure UdpTransfer.Starts [Sha256] (p : UdpTransfer) (t : Transferring) : Prop where
  receiver : ∃ site clock lines acceptance, Sited p.receiver.pid site.fs.home site.fs.view
      p.receiver.destination ∧
    Succeeds siteMachine siteRefuse (startReceiving p.receiver clock) site
      (p.file, t.receiver.receiving) t.receiver.site ∧
    t.receiver.site.control.sent = site.control.sent ++ lines ∧
    readAcceptance .udp p.sender.chunks p.sender.payloadBytes p.receiver.hello.reportInterval lines =
      .ok (acceptance, []) ∧
    p.sender.durableChunks = acceptance.durableChunks
  sender : ∃ now, t.sender = .start p.sender now
  arrived : t.arrived = 0
  heard : t.heard = t.receiver.site.control.sent.length
  told : t.told = 0

/-- One state leads to another by steps that are all as they should be. -/
def Leads [Sha256] (p : UdpTransfer) (network : Network) (P : Transferring → TransferInput → Prop) :
    Transferring → Transferring → Prop :=
  Relation.ReflTransGen fun t t' => ∃ input, P t input ∧ TransferStep p network t input t'

/-! ## Holes -/

/-- The number of the chunks up to the highest one of a bitmap. -/
def bitmapFrontier (bitmap : Bitmap) : Nat := (highestReceived bitmap).elim 0 (· + 1)

/-- A datagram that is sent for the first time brings a chunk that is missing below a frontier. -/
def FillsHole [Sha256] (p : UdpTransfer) (frontier : Nat) (t : Transferring) : TransferInput → Prop
  | .turn turn => ∃ datagram packet, turn.socket = .ok (some datagram) ∧
      checkPacket p.receiver.key p.receiver.hello.chunkLayout
        (received p.receiver.hello.chunkLayout datagram) = some packet ∧
      packet.repair = false ∧ bitmapContains t.receiver.receiving.resume.bitmap packet.sequence = false ∧
      packet.sequence < frontier
  | .send _ => False

/-- A datagram with a chunk is handed over in a turn. -/
def Brings [Sha256] (p : UdpTransfer) (turn : Turn) (sequence : Nat) : Prop :=
  ∃ datagram packet, turn.socket = .ok (some datagram) ∧
    checkPacket p.receiver.key p.receiver.hello.chunkLayout
      (received p.receiver.hello.chunkLayout datagram) = some packet ∧ packet.sequence = sequence

/-- The grace is active, and no frontier has been current for so long. -/
def Graced [Sha256] (p : UdpTransfer) (frontier : Nat) (t : Transferring) (turn : Turn) : Prop :=
  (t.receiver.receiving.reorderingObserved = true ∨ FillsHole p frontier t (.turn turn)) ∧
    ∀ e ∈ t.receiver.receiving.frontierHistory,
      turn.now - (millis p.receiver.hello.repairGrace : Int) < e.1

/-- A report that comes before the end of the first pass comes when nothing is missing below a frontier,
or within the grace. -/
def ReportsWhole [Sha256] (p : UdpTransfer) (frontier : Nat) (t : Transferring) : TransferInput → Prop
  | .turn turn => t.receiver.receiving.ended = false → .ended ∉ turn.events →
      millis p.receiver.hello.reportInterval ≤
        elapsed t.receiver.receiving.lastReport turn.reportClock →
      (∀ x < frontier, bitmapContains t.receiver.receiving.resume.bitmap x = true ∨ Brings p turn x) ∨
        Graced p frontier t turn
  | .send _ => True

end PacketTide
