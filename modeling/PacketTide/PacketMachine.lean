import PacketTide.Hello
import PacketTide.ReceiveUdp

/-!
# Datagrams on a machine

The lengths and offsets of chunks in numbers of 64 and of 16 bits, and the datagrams of an object.
-/

namespace PacketTide

open FileSystem Text

/-- The length of a chunk. -/
def ChunkLayout.chunkLength (layout : ChunkLayout) (sequence : Nat) : Nat :=
  min (layout.size - sequence * layout.payloadBytes) layout.payloadBytes

/-- The numbers of a layout fit: the offsets of all chunks and of their ends into 64 bits, the lengths of
chunks into 16, and counting the chunks never overflows. -/
structure ChunkLayout.InRange (layout : ChunkLayout) : Prop where
  size_lt : layout.size < 2 ^ 64
  chunks_lt : layout.chunks + 1 < 2 ^ 64
  offset_lt : ∀ i ≤ layout.chunks, i * layout.payloadBytes < 2 ^ 64
  end_le : ∀ i < layout.chunks, i * layout.payloadBytes + layout.chunkLength i ≤ layout.size
  length_lt : layout.payloadBytes + headerSize < 2 ^ 16

/-- Multiply numbers of 64 bits; an overflow is a panic. -/
def mul64 (a b : Nat) : Except Stop Nat := if 2 ^ 64 ≤ a * b then .error .panic else .ok (a * b)

/-- The checks of the datagram loop, with the multiplication that they make. -/
def checkPacket64 [Sha256] (key : Hash) (layout : ChunkLayout) (packet : List UInt8) :
    Except Stop (Option Packet) :=
  if packet.length < headerSize then .ok none
  else if packet.head? ≠ some packetVersion then .ok none
  else
    let sequence := fromBeBytes ((packet.drop 1).take 8)
    match (packet[9]?).bind packetKind with
    | none => .ok none
    | some repair =>
      let payloadLen := fromBeBytes ((packet.drop 10).take 2)
      if layout.chunks ≤ sequence ∨ layout.payloadBytes < payloadLen
          ∨ packet.length ≠ headerSize + payloadLen then .ok none
      else if verifyUdpTagParts key (packet.take 12) (packet.drop headerSize)
          ((packet.drop 12).take 16) = false then .ok none
      else do
        let offset ← mul64 sequence layout.payloadBytes
        if payloadLen ≠ min (layout.size - offset) layout.payloadBytes then return none
        else return some ⟨sequence, repair, packet.drop headerSize⟩

/-- A datagram was built for a chunk of an object, with the kind and the bytes that it carries. -/
structure BuiltFor [Sha256] (key : Hash) (layout : ChunkLayout) (packet : Packet)
    (datagram : List UInt8) : Prop where
  sequence_lt : packet.sequence < layout.chunks
  length_eq : packet.payload.length = layout.chunkLength packet.sequence
  built : ∃ source : List UInt8, source.length = layout.size ∧
    (source.drop (packet.sequence * layout.payloadBytes)).take (layout.chunkLength packet.sequence) =
      packet.payload ∧
    buildPacket source layout.size key packet.sequence packet.repair layout.payloadBytes = .ok datagram

end PacketTide
