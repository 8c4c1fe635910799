import PacketTide.Installed
import PacketTide.KeyFile
import PacketTide.Mirror
import PacketTide.ReceiveRuns
import PacketTide.ReceiveTcp

/-!
# The whole receiver

A receiver loads its key, greets the sender that connects to it, and receives an object over the transport that
the sender has chosen. A receiver of a tree does so for each file of the manifest, with the sender that connects
for it, and installs the tree in the end.
-/

namespace PacketTide

open Effects FileSystem Prog Text

/-! ## One object -/

/-- The arguments of a receiver that concern its files. -/
structure ReceiveArgs where
  out : Path
  keyFile : Path
  reuseFrom : Option Path := none

/-- What the surroundings do while a receiver receives an object. -/
structure ObjectScript where
  /-- How the handshake ends that is made with a key. -/
  handshake : Hash → Except Stop (Str × Auth.SessionAuth)
  /-- The payloads that come before the object. -/
  lines : List Str := []
  /-- The bytes on the connection that follow them. -/
  stream : DataStream := { input := [] }
  lanes : Tcp4Events := { accepted := [], schedule := [] }
  udp : UdpScript := {}
  /-- The payload that answers the completion of an object that has come over TCP. -/
  answer : Except AnyError Str := .error (.io .other)

/-- Go on with the outcome of a function that may panic; a panic leaves no result. -/
def ofStop {α : Type} : Except Stop α → SiteProg (Option α)
  | .ok a => return some a
  | .error .panic => return none
  | .error (.error e) => Prog.fail e

/-- The manifest of an object for content reuse, if the greeting has announced one. -/
def readReuse [Sha256] (hello : Hello) (lines : List Str) : Check (Option Cdc.Manifest) :=
  match hello.reuseManifest with
  | none => .ok none
  | some (expectedCount, expectedHash) =>
    (Cdc.readReuseManifest hello.size expectedCount expectedHash lines).map some

/-- Remove the temporary file if the transfer into it fails. -/
def removing {α : Type} (temporary : Path) (transfer : SiteProg α) : SiteProg α := do
  match ← transfer.attempt with
  | .ok a => return a
  | .error e =>
    let _ ← onFiles (tryRemove temporary)
    Prog.fail e

/-- Receive an object of which the greeting is known; only transfers by datagrams have telemetry. -/
def receiveGreeted [Sha256] (pid : Nat) (args : ReceiveArgs) (script : ObjectScript) (auth : Auth.SessionAuth)
    (hello : Hello) : SiteProg (Option (Option ReceiverTelemetry)) := do
  let reuseManifest ← onFiles (checked (readReuse hello script.lines))
  onFiles (createParents args.out)
  let temporary := temporaryPath pid args.out
  match hello.transport with
  | .tcp => do
    sendControl (readyPayload hello)
    removing temporary (receiveTcp temporary args.out hello script.stream script.answer)
    return some none
  | .tcp4 => do
    sendControl (readyPayload hello)
    let received ← removing temporary (receiveTcp4 auth temporary args.out hello script.lanes script.answer)
    return received.map fun _ => none
  | .udp =>
    match hello.identity with
    | none => stopWith "invalid hexadecimal field length"
    | some identity => do
      let telemetry ← receiveUdp
        { pid, destination := args.out, hello, identity, key := auth.udp,
          reuse := reuseManifest.bind fun manifest => args.reuseFrom.map fun candidate => (manifest, candidate) }
        script.udp
      return telemetry.map some

/-- Receive an object from the sender that connects; a receiver that panics or is still at work has no result. -/
def receiveOn [Sha256] (pid : Nat) (args : ReceiveArgs) (script : ObjectScript) :
    SiteProg (Option (Option ReceiverTelemetry)) := do
  let key ← onFiles (SecretKey.load args.keyFile)
  match ← ofStop (script.handshake key) with
  | none => return none
  | some (helloBody, auth) =>
    match ← ofStop (parseHello helloBody) with
    | none => return none
    | some hello => receiveGreeted pid args script auth { hello with session := auth.session }

/-! ## A tree -/

/-- The suffixes of the files beside its destination that a receiver works on. -/
def objectSuffixes (pid : Nat) : List (List UInt8) :=
  [ascii ".part", ascii ".part.map", ascii ".part.map" ++ (ascii ".tmp." ++ decimal pid), ascii ".part." ++ decimal pid]

/-- The destination is named below the working directory, the directories above it are real or missing, and the
files beside it are regular files or missing. -/
structure Placeable (pid : Nat) (dest : Path) (fs : FS) : Prop where
  names_ne : dest.names ≠ []
  home : fs.view fs.home = some .dir
  above : ∀ k < dest.names.length,
    fs.view (fs.home ++ dest.names.take k) = none ∨ fs.view (fs.home ++ dest.names.take k) = some .dir
  beside : ∀ s ∈ objectSuffixes pid, Leaf (fs.view (fs.home ++ (dest.appended s).names))

/-- A sender has connected, and this is its greeting. -/
def ObjectScript.Greets (script : ObjectScript) (hello : Hello) : Prop :=
  ∃ key body auth parsed, script.handshake key = .ok (body, auth) ∧ parseHello body = .ok parsed ∧
    hello = { parsed with session := auth.session }

/-- The sender has acknowledged the completion of the object. -/
def ObjectScript.Acknowledges (script : ObjectScript) : Transport → Prop
  | .udp => script.udp.answer = .ok (ascii "COMPLETE_ACK") ∨ .event .completeAck ∈ script.udp.awaited
  | _ => script.answer = .ok (ascii "COMPLETE_ACK")

/-- A path leads to a file with the object of a greeting. -/
def LeadsToObject [Sha256] (hello : Hello) (path : Path) (fs : FS) : Prop :=
  ∃ p, fs.resolve true path = .ok p ∧ HoldsObject hello (fs.view p)

/-- Nothing has changed but the files beside the destination and missing directories above it, and the destination is
as it was or holds the object. -/
structure ObjectProgress [Sha256] (pid : Nat) (script : ObjectScript) (dest : Path) (fs t : FS) : Prop where
  outside : ∀ q, t.view q = fs.view q ∨ q = fs.home ++ dest.names ∨
    (∃ s ∈ objectSuffixes pid, q = fs.home ++ (dest.appended s).names) ∨
    (∃ k < dest.names.length, q = fs.home ++ dest.names.take k) ∧ fs.view q = none ∧ t.view q = some .dir
  destination : t.view (fs.home ++ dest.names) = fs.view (fs.home ++ dest.names) ∨
    ∃ hello, script.Greets hello ∧ HoldsObject hello (t.view (fs.home ++ dest.names))

/-- The sender has been told that the object is there, after some payloads. -/
def Told (sent : List Str) (t : Site) : Prop := ∃ said, t.control.sent = sent ++ said ∧ ascii "COMPLETE" ∈ said

/-- The object is there, and the sender has been told and has acknowledged it. -/
structure ObjectReceived [Sha256] (script : ObjectScript) (dest : Path) (site t : Site) : Prop where
  object : ∃ hello, script.Greets hello ∧ LeadsToObject hello dest t.fs ∧ script.Acknowledges hello.transport
  told : Told site.control.sent t

/-! ## What a receiver of a tree may have done -/

end PacketTide
