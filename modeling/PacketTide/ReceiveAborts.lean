import PacketTide.ReceiveRuns

/-!
# Turns that end a transfer

How a turn that ends with an error treats the receipts that are not on disk yet.
-/

namespace PacketTide

open Effects FileSystem Prog Text

/-- The new chunk that the socket hands over. -/
def acceptedChunk [Sha256] (r : UdpReceiver) (s : Receiving) :
    Except Errno (Option (List UInt8)) → Option Nat
  | .ok (some datagram) =>
    (checkPacket r.key r.hello.chunkLayout (received r.hello.chunkLayout datagram)).bind fun packet =>
      if bitmapContains s.resume.bitmap packet.sequence = false then some packet.sequence else none
  | _ => none

/-- The chunks that are there when the events of a turn are taken. -/
def bitmapAtEvents [Sha256] (r : UdpReceiver) (s : Receiving)
    (socket : Except Errno (Option (List UInt8))) : Bitmap :=
  (acceptedChunk r s socket).elim s.resume.bitmap (bitmapInsert s.resume.bitmap)

/-- Whether there are receipts then that are not on disk. -/
def dirtyAtEvents [Sha256] (r : UdpReceiver) (s : Receiving)
    (socket : Except Errno (Option (List UInt8))) : Bool :=
  s.checkpointDirty || (acceptedChunk r s socket).isSome

/-- How the events of a turn leave the loop. -/
inductive EventsEnd where
  | goOn
  /-- The loop stops after it has flushed its receipts. -/
  | stopFlushed
  /-- The loop stops as it is. -/
  | stopUnflushed
  deriving DecidableEq

/-- How events end, given whether each of the coming writes to the control channel succeeds. -/
def eventsEnd : List Bool → List ControlEvent → EventsEnd
  | _, [] => .goOn
  | fates, .ended :: events => eventsEnd fates events
  | fates, .ping :: events =>
    if fates.head? = some false then .stopUnflushed else eventsEnd fates.tail events
  | _, .completeAck :: _ => .stopUnflushed
  | _, .cancel _ :: _ => .stopFlushed
  | _, .error _ :: _ => .stopFlushed

/-- A turn that does not reach the end of the transfer. -/
def BeforeCompletion [Sha256] (r : UdpReceiver) (file : Loc) (a : LoopState) (turn : Turn) : Prop :=
  ∀ s t, (beginTurn r file a.receiving turn).run siteMachine a.site = (.ok s, t) →
    ¬(s.ended ∧ s.resume.receivedCount = r.hello.chunks)

/-- The receipts on disk cover some chunks. -/
def ReceiptsKept (r : UdpReceiver) (bitmap : Bitmap) (fs : FS) : Prop :=
  ∃ saved, receiptsOnDisk r fs = some saved ∧
    ∀ i, bitmapContains bitmap i → bitmapContains saved i

/-- An error before the end of the transfer keeps the receipts of all chunks that have been accepted. -/
def AbortKeepsReceipts [Sha256] (r : UdpReceiver) (file : Loc) (a : LoopState) (turn : Turn) : Prop :=
  ∀ e t, (receiveTurn r file a.receiving turn).run siteMachine a.site = (.error e, t) →
    BeforeCompletion r file a turn →
      ReceiptsKept r (bitmapAtEvents r a.receiving turn.socket) t.fs

/-- With receipts that are not on disk, the loop is stopped by an early acknowledgement, by a `PONG`
that cannot be written, or by a report that cannot be written in a turn without a checkpoint. -/
def StopsUnflushed [Sha256] (r : UdpReceiver) (a : LoopState) (turn : Turn) : Prop :=
  dirtyAtEvents r a.receiving turn.socket ∧ (∀ e, turn.socket ≠ .error e) ∧
    (eventsEnd a.site.control.fates turn.events = .stopUnflushed ∨
      eventsEnd a.site.control.fates turn.events = .goOn ∧
        elapsed a.receiving.lastCheckpoint turn.checkpointClock < resumeCheckpointInterval)

/-- Whatever process opens the object next, it starts without receipts. -/
def StartsAfresh (dest : Path) (id : Identity) (fs : FS) : Prop :=
  ∀ pid file state t, (ResumeState.openState pid dest id).run machine fs = (.ok (file, state), t) →
    ∀ i, bitmapContains state.bitmap i = false

/-- The first part of a turn takes the last chunk or the end of the first pass, and the partial file
does not have the hash of the greeting. -/
structure Mismatches [Sha256] (r : UdpReceiver) (file : Loc) (a : LoopState) (turn : Turn)
    (s : Receiving) (site : Site) : Prop where
  begun : (beginTurn r file a.receiving turn).run siteMachine a.site = (.ok s, site)
  complete : s.ended ∧ s.resume.receivedCount = r.hello.chunks
  hash_ne : ∀ content, site.fs.view file = some (.file content) →
    hex (Sha256.digest content).bytes ≠ r.hello.hash

end PacketTide
