import PacketTide.Packet

/-!
# The datagram loop

What the receiver does with each datagram: it counts it, stores its chunk if that is new, and hashes
the object as far as it is complete.
-/

namespace PacketTide

open Effects FileSystem

/-- The counters that the receiver reports; they are numbers of 64 bits that stop at the largest. -/
structure ReceiverTelemetry where
  receivedChunks : Nat := 0
  frontierChunks : Nat := 0
  acceptedDatagrams : Nat := 0
  validDatagrams : Nat := 0
  duplicateDatagrams : Nat := 0
  invalidDatagrams : Nat := 0
  repairDatagrams : Nat := 0
  socketDrops : Option Nat := none
  reports : Nat := 0
  deriving DecidableEq

def saturatingAdd (a b : Nat) : Nat := min (a + b) (2 ^ 64 - 1)

/-- A time on the monotonic clock, in nanoseconds. -/
abbrev Instant : Type := Int

/-- The variables of the datagram loop. -/
structure Receiving where
  resume : ResumeState
  telemetry : ReceiverTelemetry
  /-- The highest chunk seen. -/
  highest : Option Nat
  reorderingObserved : Bool
  checkpointDirty : Bool
  /-- The number of chunks that have been hashed. -/
  hashFrontier : Nat
  /-- The bytes that have been hashed. -/
  hashed : List UInt8
  /-- Whether the sender has ended its first pass, and since when. -/
  ended : Bool := false
  endedAt : Option Instant := none
  /-- The frontiers that were current, each with the time from which on, the oldest first. -/
  frontierHistory : List (Instant × Nat) := []
  lastReport : Instant := 0
  lastCheckpoint : Instant := 0
  deriving DecidableEq

/-! ## The hash frontier -/

/-- The size of the buffer for hashing. -/
def hashBufferLen : Nat := 1024 * 1024

/-- The first chunk from one on that has not been received, searched among a number of chunks. -/
def frontierFrom (bitmap : Bitmap) : Nat → Nat → Nat
  | 0, start => start
  | n + 1, start => if bitmapContains bitmap start then frontierFrom bitmap n (start + 1) else start

/-- Hash the bytes of the file from an offset on. A read returns at least one byte, so there are at
most as many reads as bytes. -/
def hashRange (file : Loc) (byteEnd : Nat) : Nat → Nat → List UInt8 → FsProg (List UInt8)
  | 0, _, hashed => return hashed
  | n + 1, offset, hashed =>
    if offset < byteEnd then do
      let bytes ← ask (.readAt file offset (min (byteEnd - offset) hashBufferLen))
      if bytes = [] then failWith "short read while advancing object hash"
      else hashRange file byteEnd n (offset + bytes.length) (hashed ++ bytes)
    else return hashed

def advanceHashFrontier (file : Loc) (layout : ChunkLayout) (s : Receiving) : FsProg Receiving :=
  let start := s.hashFrontier
  let stop := frontierFrom s.resume.bitmap (layout.chunks - start) start
  if 2 ^ 64 ≤ start * layout.payloadBytes ∨ 2 ^ 64 ≤ stop * layout.payloadBytes then
    failWith "hash frontier offset overflow"
  else do
    let offset := start * layout.payloadBytes
    let byteEnd := min (stop * layout.payloadBytes) layout.size
    let hashed ← hashRange file byteEnd (byteEnd - offset) offset s.hashed
    return { s with hashFrontier := stop, hashed := hashed }

/-! ## Datagrams -/

namespace Receiving

/-- Count a datagram that is not valid. -/
def countInvalid (s : Receiving) : Receiving :=
  { s with telemetry := { s.telemetry with
      invalidDatagrams := saturatingAdd s.telemetry.invalidDatagrams 1 } }

/-- Count a valid datagram. -/
def countValid (s : Receiving) (repair : Bool) : Receiving :=
  { s with telemetry := { s.telemetry with
      validDatagrams := saturatingAdd s.telemetry.validDatagrams 1
      repairDatagrams :=
        if repair then saturatingAdd s.telemetry.repairDatagrams 1
        else s.telemetry.repairDatagrams } }

/-- Count a datagram whose chunk has been received before. -/
def countDuplicate (s : Receiving) : Receiving :=
  { s with telemetry := { s.telemetry with
      duplicateDatagrams := saturatingAdd s.telemetry.duplicateDatagrams 1 } }

/-- Count a datagram whose chunk is new; an original below the highest chunk has been overtaken. -/
def countAccepted (s : Receiving) (packet : Packet) : Receiving :=
  { s with
    telemetry := { s.telemetry with
      acceptedDatagrams := saturatingAdd s.telemetry.acceptedDatagrams 1 }
    reorderingObserved := s.reorderingObserved
      || !packet.repair && s.highest.any fun frontier => packet.sequence < frontier }

/-- Record a chunk that has been written. -/
def markReceived (s : Receiving) (sequence : Nat) : Receiving :=
  { s with resume := s.resume.markReceived sequence, checkpointDirty := true }

/-- Raise the highest chunk seen. -/
def raiseHighest (s : Receiving) (sequence : Nat) : Receiving :=
  { s with highest := some (s.highest.elim sequence fun old => max old sequence) }

end Receiving

/-- Store the chunk of a valid datagram if it is new. -/
def acceptPacket (file : Loc) (layout : ChunkLayout) (s : Receiving) (packet : Packet) :
    FsProg Receiving :=
  if bitmapContains s.resume.bitmap packet.sequence = false then do
    let s := s.countAccepted packet
    ask (.writeAt file (packet.sequence * layout.payloadBytes) packet.payload)
    let s := s.markReceived packet.sequence
    if s.resume.receivedCount % 64 = 0 ∨ packet.repair ∧ packet.sequence = s.hashFrontier then
      advanceHashFrontier file layout s
    else return s
  else return s.countDuplicate

/-- One turn of the datagram loop in which the socket hands over a datagram. -/
def receiveDatagram [Sha256] (key : Hash) (layout : ChunkLayout) (file : Loc) (s : Receiving)
    (datagram : List UInt8) : FsProg Receiving :=
  match checkPacket key layout (received layout datagram) with
  | none => return s.countInvalid
  | some packet => do
    let s ← acceptPacket file layout (s.countValid packet.repair) packet
    return s.raiseHighest packet.sequence

/-- The turns of the loop for a sequence of datagrams. -/
def receiveDatagrams [Sha256] (key : Hash) (layout : ChunkLayout) (file : Loc) :
    Receiving → List (List UInt8) → FsProg Receiving
  | s, [] => return s
  | s, datagram :: datagrams => do
    let s ← receiveDatagram key layout file s datagram
    receiveDatagrams key layout file s datagrams

end PacketTide
