import PacketTide.ReuseRuns

/-!
# Objects that arrive

Runs of the datagram loop in which whatever is not a datagram of the session has no valid tag.
-/

namespace PacketTide

open Effects FileSystem Prog Text

/-! ## What the socket hands over -/

/-- A datagram of a session, built for a chunk of its object. -/
def SessionDatagram [Sha256] (r : UdpReceiver) (source datagram : List UInt8) : Prop :=
  ∃ sequence repair,
    buildPacket source r.hello.size r.key sequence repair r.hello.payloadBytes = .ok datagram

/-- Bytes that carry no tag which is valid under a key. -/
def Untagged [Sha256] (key : Hash) (datagram : List UInt8) : Prop :=
  verifyUdpTagParts key (datagram.take 12) (datagram.drop headerSize) ((datagram.drop 12).take 16) = false

/-- Whatever the socket hands over in a turn is a datagram of the session or has no valid tag. -/
def Unforged [Sha256] (r : UdpReceiver) (source : List UInt8) (turn : Turn) : Prop :=
  ∀ datagram, turn.socket = .ok (some datagram) →
    SessionDatagram r source datagram ∨ Untagged r.key datagram

/-- A turn of that kind, after which the loop goes on. -/
def UnforgedStep [Sha256] (r : UdpReceiver) (source : List UInt8) (file : Loc) (a b : LoopState) : Prop :=
  ∃ turn, Unforged r source turn ∧
    Succeeds siteMachine siteRefuse (receiveTurn r file a.receiving turn) a.site (.running b.receiving) b.site

/-! ## What is to hold -/

/-- The partial file has the size of the object, and its bytes in every chunk that is marked as received. -/
def Truthful (r : UdpReceiver) (source : List UInt8) (file : Loc) (a : LoopState) : Prop :=
  ∃ content, a.site.fs.view file = some (.file content) ∧ content.length = r.hello.size ∧
    ∀ i, bitmapContains a.receiving.resume.bitmap i = true → r.hello.chunkLayout.Agree i content source

/-- A call that writes nothing in the chunks of a bitmap, and resizes nothing. -/
def SiteCall.Spares (layout : ChunkLayout) (bitmap : Bitmap) : SiteCall → Prop :=
  SiteCall.Writes fun offset bytes => ∀ i, bitmapContains bitmap i = true →
    offset + bytes.length ≤ layout.start i ∨ layout.stop i ≤ offset

/-- A datagram is accepted: it is valid and its chunk is new. -/
def Accepts [Sha256] (r : UdpReceiver) (s : Receiving) (datagram : List UInt8) : Prop :=
  ∃ packet, checkPacket r.key r.hello.chunkLayout (received r.hello.chunkLayout datagram) = some packet ∧
    bitmapContains s.resume.bitmap packet.sequence = false

end PacketTide
