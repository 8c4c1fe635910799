import PacketTide.Acceptance
import PacketTide.CdcMachine
import PacketTide.Intervals.Basic
import PacketTide.ReceiveRuns

/-!
# Runs with content reuse

What content reuse is to credit, and when it is in the way of a transfer.
-/

namespace PacketTide

open Effects FileSystem Prog Text

/-! ## What is credited -/

/-- Where a chunk begins in an object, -/
def ChunkLayout.start (layout : ChunkLayout) (sequence : Nat) : Nat := sequence * layout.payloadBytes

/-- and where it ends. -/
def ChunkLayout.stop (layout : ChunkLayout) (sequence : Nat) : Nat :=
  min (layout.start sequence + layout.payloadBytes) layout.size

/-- Two files hold the same bytes in a chunk. -/
def ChunkLayout.Agree (layout : ChunkLayout) (sequence : Nat) (content content' : List UInt8) : Prop :=
  ∀ x, layout.start sequence ≤ x → x < layout.stop sequence → content[x]? = content'[x]?

/-- A path leads to a regular file. -/
def LeadsToFile (fs : FS) (path : Path) (place : Loc) (content : List UInt8) : Prop :=
  fs.resolve false path = .ok place ∧ fs.view place = some (.file content)

/-- What content reuse finds. -/
structure ReuseScene where
  pid : Nat
  destination : Path
  hello : Hello
  state : ResumeState
  /-- The object and its manifest. -/
  object : List UInt8
  target : Cdc.Manifest
  /-- The partial file and what it holds. -/
  file : Loc
  before : List UInt8
  /-- The candidate, what it holds and what a scan of it returns. -/
  path : Path
  source : Loc
  content : List UInt8
  candidate : Cdc.Manifest

/-- The manifest is one of the object, the partial file and its bitmap are in order, and the candidate is a
regular file; no two of the content chunks are different and have the same hash. -/
structure ReuseScene.Holds [Sha256] (c : ReuseScene) (fs : FS) : Prop where
  greeting : ∃ line, parseHello line = .ok c.hello
  manifest : ∃ count hash payloads,
    Cdc.readReuseManifest c.hello.size count hash payloads = .ok c.target
  hashes : ∀ chunk ∈ c.target.chunks, chunk.hash = Sha256.digest (chunk.bytes c.object)
  object_length : c.object.length = c.hello.size
  bitmap : BitmapFor c.hello.chunks c.state.bitmap
  count : c.state.receivedCount = bitmapCount c.state.bitmap
  mapPath : c.state.mapPath = mapOf c.destination
  sited : Sited c.pid fs.home fs.view c.destination
  place : c.file = fs.home ++ (partOf c.destination).names
  part : fs.view c.file = some (.file c.before)
  before_length : c.before.length = c.hello.size
  found : LeadsToFile fs c.path c.source c.content
  scanned : Cdc.scan c.content.length c.content = .ok c.candidate
  injective : ∀ chunk ∈ c.target.chunks, ∀ other ∈ c.candidate.chunks,
    Sha256.digest (other.bytes c.content) = Sha256.digest (chunk.bytes c.object) →
      other.bytes c.content = chunk.bytes c.object

/-! ## Starting with reuse -/

/-- What a receiver finds where its candidate should be: nothing, or a regular file. -/
def Candidate (fs : FS) (path : Path) : Option (List UInt8) → Prop
  | none => (FS.exec (.stat path) fs).1 = .error .notFound
  | some content => ∃ place, LeadsToFile fs path place content

/-- The transfer of an object without content reuse comes to its loop. -/
structure PlainStart [Sha256] (g : SendGreeting) (r : UdpReceiver) (object : List UInt8) (clock : Instant)
    (site : Site) : Prop where
  udp : g.transport = .udp
  plain : g.reuse = none ∧ r.reuse = none
  length : object.length = g.size
  parsed : parseHello g.hello = .ok r.hello
  identity : r.hello.identity = some r.identity
  started : ∃ out t, (startReceiving r clock).run siteMachine site = (.ok out, t)

/-- The greeting of the same transfer with the manifest of its object. -/
def SendGreeting.reusing (g : SendGreeting) (target : Cdc.Manifest) : SendGreeting :=
  { g with reuse := some (target.chunks.length, target.hash) }

/-- The receiver of the same transfer with the manifest and a candidate. -/
def UdpReceiver.reusing (r : UdpReceiver) (hello : Hello) (target : Cdc.Manifest) (path : Path) :
    UdpReceiver :=
  { r with hello, reuse := some (target, path) }

/-- With content reuse it comes there, too: the sender scans the object, the receiver reads the greeting
and the manifest and opens its state, and the sender reads the answer up to its end. -/
def ReusingStart [Sha256] (g : SendGreeting) (r : UdpReceiver) (object : List UInt8) (path : Path)
    (clock : Instant) (site : Site) : Prop :=
  ∃ target hello out t acceptance,
    Cdc.scan object.length object = .ok target ∧
    (∀ p ∈ Cdc.manifestPayloads target, controlPayload p) ∧
    parseHello (g.reusing target).hello = .ok hello ∧
    hello.reuseManifest = some (target.chunks.length, target.hash) ∧
    Cdc.readReuseManifest hello.size target.chunks.length target.hash (Cdc.manifestPayloads target) =
      .ok target ∧
    (startReceiving (r.reusing hello target path) clock).run siteMachine site = (.ok out, t) ∧
    readAcceptance .udp g.chunks g.payloadBytes g.reportInterval
      (t.control.sent.drop site.control.sent.length) = .ok (acceptance, [])

/-- An object of not too many pieces of which the manifest, with the line that ends it, is not too long. -/
def Cdc.Announceable (object : List UInt8) : Prop :=
  (pieceLengths object).length ≤ maxChunks ∧ bodyLength object + 71 ≤ maxEncodedBytes

end PacketTide
