import PacketTide.Handshake
import PacketTide.Hello

/-!
# Parties on a hostile network

Any number of parties run the handshake and then use their control channels. The network decides
what each of them reads, so it can record, drop, inject and replay lines of any session at will; all
it cannot do is make the tag of a message that no party vouched for. What all parties have read up to
some moment determines what they have done by then: a party that waits is one whose input has come to
its end.
-/

namespace PacketTide.Auth

open Effects FileSystem Text

/-! ## Channels -/

/-- A use of the control channel by the rest of the program. -/
inductive ControlOp where
  | send (payload : Str)
  | recv

/-- One end of the control channel of a session. -/
structure Channel where
  writer : ControlWriter
  /-- The reading side, until it stops with its first error. -/
  reader : Option ControlReader
  /-- The payloads that were sent. -/
  sent : List Str := []
  /-- The payloads that were received. -/
  received : List Str := []

namespace Channel

/-- The channel at the beginning of a session. -/
def start (auth : SessionAuth) (out back : Direction) : Channel where
  writer := { auth, direction := out }
  reader := some { auth, direction := back }

def step [Sha256] (channel : Channel) : ControlOp → WireProg Channel
  | .send payload => do
    match ← (channel.writer.send payload).attempt with
    | .ok writer => return { channel with writer, sent := channel.sent ++ [payload] }
    | .error _ => return channel
  | .recv =>
    match channel.reader with
    | none => return channel
    | some reader => do
      match ← reader.recv.attempt with
      | .ok (payload, reader) =>
        return { channel with reader := some reader, received := channel.received ++ [payload] }
      | .error _ => return { channel with reader := none }

def converse [Sha256] : Channel → List ControlOp → WireProg Channel
  | channel, [] => return channel
  | channel, op :: ops => do
    let channel ← channel.step op
    channel.converse ops

end Channel

/-- One end of a session: the keys, the directions in which it writes and reads, its uses of the
channel and what the network hands over. -/
structure End where
  auth : SessionAuth
  out : Direction
  back : Direction
  ops : List ControlOp
  input : List (Except Errno UInt8)
  failures : List (Option Errno) := []

namespace End

def program [Sha256] (e : End) : WireProg Channel := (Channel.start e.auth e.out e.back).converse e.ops

def wire (e : End) : Wire := { input := e.input, failures := e.failures }

def outcome [Sha256] (e : End) : Except Stop Channel := (e.program.run wireMachine e.wire).1

def final [Sha256] (e : End) : Wire := (e.program.run wireMachine e.wire).2

end End

/-- One end sends some strings, all of them with success, and another end of the session reads as many
payloads from what the first one has written. -/
structure Delivery [Sha256] (e f : End) (payloads : List Str) : Prop where
  strings : ∀ payload ∈ payloads, validUtf8 payload = true
  sends : e.ops = payloads.map .send
  sent : ∃ sending, e.outcome = .ok sending ∧ sending.sent = payloads
  auth_eq : f.auth = e.auth
  back_eq : f.back = e.out
  receives : f.ops = List.replicate payloads.length .recv
  input : ∃ rest, f.input = (e.final.output.flatMap (· ++ [newline])).map .ok ++ rest

/-- What an end receives before its first error. -/
def End.Receives [Sha256] (f : End) (payloads : List Str) : Prop :=
  ∃ reading, f.outcome = .ok reading ∧ reading.received = payloads

/-! ## Parties -/

inductive Role where
  | client (hello : Str)
  | server
  deriving DecidableEq

/-- The direction in which a party writes. -/
def Role.out : Role → Direction
  | .client _ => .clientToServer
  | .server => .serverToClient

/-- The direction in which a party reads. -/
def Role.back : Role → Direction
  | .client _ => .serverToClient
  | .server => .clientToServer

/-- A party with its key, its part in the handshake, the uses of its channel after that, and its end
of the connection. -/
structure Party where
  key : Hash
  role : Role
  ops : List ControlOp := []
  input : List (Except Errno UInt8)
  failures : List (Option Errno) := []
  draws : List Hash := []

namespace Party

def handshake [Sha256] (p : Party) : WireProg (Str × SessionAuth) :=
  match p.role with
  | .client hello => do
    let auth ← clientHandshake p.key hello
    return (hello, auth)
  | .server => serverHandshake p.key

def program [Sha256] (p : Party) : WireProg ((Str × SessionAuth) × Channel) := do
  let session ← p.handshake
  let channel ← (Channel.start session.2 p.role.out p.role.back).converse p.ops
  return (session, channel)

def wire (p : Party) : Wire := { input := p.input, failures := p.failures, draws := p.draws }

/-- What a party has come to. -/
def outcome [Sha256] (p : Party) : Except Stop ((Str × SessionAuth) × Channel) :=
  (p.program.run wireMachine p.wire).1

/-- The end of the connection as a party has left it. -/
def final [Sha256] (p : Party) : Wire := (p.program.run wireMachine p.wire).2

/-- The handshake of a party has returned. -/
def Established [Sha256] (p : Party) (hello : Str) (auth : SessionAuth) : Prop :=
  ∃ channel, p.outcome = .ok ((hello, auth), channel)

end Party

/-- The transcripts that a party has signed or accepted a response for. -/
def Party.Transcript [Sha256] (p : Party) (transcript : List UInt8) : Prop :=
  (p.key, serverHelloInput transcript) ∈ p.final.accepted ∨
    (p.key, serverHelloInput transcript) ∈ p.final.vouched

/-! ## What the network cannot do -/

/-- Nobody accepts a message that no party vouched for. -/
def Unforgeable {ι : Type} (wires : ι → Wire) : Prop :=
  ∀ i, ∀ m ∈ (wires i).accepted, ∃ j, m ∈ (wires j).vouched

/-- No value is drawn twice. -/
def FreshDraws {ι : Type} (parties : ι → Party) : Prop :=
  ∀ (i j : ι) (m n : Nat) (value : Hash), (parties i).draws[m]? = some value →
    (parties j).draws[n]? = some value → i = j ∧ m = n

/-! ## Agreement -/

/-- How a client session was started. -/
inductive Start where
  | send (greeting : SendGreeting)
  | sendDir (hash : Hash) (entries : Nat)

def Start.hello : Start → Str
  | .send greeting => greeting.hello
  | .sendDir hash entries => directoryHello hash entries

section Freshness

variable {ι : Type}

/-- The clients were started by `send` or `send_dir`. -/
def Started (starts : ι → Start) (parties : ι → Party) : Prop :=
  ∀ i hello, (parties i).role = .client hello → hello = (starts i).hello

/-- No two clients offer the same session id. -/
def FreshOffers (starts : ι → Start) (parties : ι → Party) : Prop :=
  ∀ i j hello hello' g g', (parties i).role = .client hello → (parties j).role = .client hello' →
    starts i = .send g → starts j = .send g' → g.offeredSession = g'.offeredSession → i = j

/-- No two clients with one key send the same directory. -/
def FreshDirectories (starts : ι → Start) (parties : ι → Party) : Prop :=
  ∀ i j hello hello' hash entries, (parties i).role = .client hello →
    (parties j).role = .client hello' → (parties i).key = (parties j).key →
    starts i = .sendDir hash entries → starts j = .sendDir hash entries → i = j

/-- The keys and messages by which the receiver's control key of a transcript is derived. -/
inductive KeyQuery [Sha256] (parties : ι → Party) : List UInt8 → List UInt8 → Prop where
  | root {i : ι} {transcript : List UInt8} (h : (parties i).Transcript transcript) :
      KeyQuery parties (parties i).key.bytes (sessionRootInput transcript)
  | control {i : ι} {transcript : List UInt8} (h : (parties i).Transcript transcript) :
      KeyQuery parties (hmacSha256 (parties i).key.bytes (sessionRootInput transcript)).bytes
        (ascii "server to client control")

/-- Different keys or messages have different tags, among those that are derived. -/
def InjectiveKeys [Sha256] (parties : ι → Party) : Prop :=
  ∀ k m k' m', KeyQuery parties k m → KeyQuery parties k' m' →
    hmacSha256 k m = hmacSha256 k' m' → k = k' ∧ m = m'

/-- The cryptography is ideal: tags cannot be forged, derived keys do not collide, and random values
do not repeat. -/
structure Ideal [Sha256] (starts : ι → Start) (parties : ι → Party) : Prop where
  started : Started starts parties
  unforgeable : Unforgeable fun i => (parties i).final
  freshDraws : FreshDraws parties
  freshOffers : FreshOffers starts parties
  injectiveKeys : InjectiveKeys parties

/-- A client that returns has a server that responded to its greeting, and no two clients accept
anything from the same server. -/
structure FreshClients [Sha256] (parties : ι → Party) : Prop where
  responded : ∀ i hello auth, (parties i).role = .client hello →
    (parties i).Established hello auth →
    ∃ k challenge nonce rest, (parties k).role = .server ∧ (parties k).key = (parties i).key ∧
      (parties k).draws = challenge :: nonce :: rest ∧
      ((parties i).key, serverHelloInput (transcriptOf challenge.bytes hello nonce.bytes)) ∈
        (parties k).final.vouched ∧
      ((parties i).key, serverHelloInput (transcriptOf challenge.bytes hello nonce.bytes)) ∈
        (parties i).final.accepted ∧
      auth = deriveSession (parties i).key (transcriptOf challenge.bytes hello nonce.bytes)
  unshared : ∀ i i' k hello hello', (parties i).role = .client hello →
    (parties i').role = .client hello' → (parties k).role = .server →
    ∀ m ∈ (parties k).final.vouched, ∀ m' ∈ (parties k).final.vouched,
      m ∈ (parties i).final.accepted → m' ∈ (parties i').final.accepted → i = i'

end Freshness

end PacketTide.Auth
