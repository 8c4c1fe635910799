import PacketTide.Hmac
import PacketTide.Resume

/-!
# Datagrams

A datagram carries one chunk of an object: a header with the version, the number of the chunk, its
kind and its length, a tag, and the bytes of the chunk.
-/

namespace PacketTide

open Text

def headerSize : Nat := 28

/-- The version of the datagram format. -/
def packetVersion : UInt8 := 4

/-- How an object is cut into chunks. -/
structure ChunkLayout where
  size : Nat
  chunks : Nat
  payloadBytes : Nat
  deriving DecidableEq

def Identity.chunkLayout (id : Identity) : ChunkLayout := ⟨id.size, id.chunks, id.payloadBytes⟩

/-- A number of 16 bits as two bytes, the higher first. -/
def toBeBytes16 (n : Nat) : List UInt8 := [UInt8.ofNat (n >>> 8), UInt8.ofNat n]

/-- The part of the header that comes before the tag. -/
def packetHeader (sequence : Nat) (repair : Bool) (payloadLen : Nat) : List UInt8 :=
  packetVersion :: (toBeBytes sequence ++ ((if repair then 1 else 0) :: toBeBytes16 payloadLen))

/-- The datagram of a chunk of a source file. -/
def buildPacket [Sha256] (source : List UInt8) (size : Nat) (key : Hash) (sequence : Nat)
    (repair : Bool) (payloadBytes : Nat) : Except AnyError (List UInt8) :=
  let offset := sequence * payloadBytes
  if 2 ^ 64 ≤ offset then .error (.message "packet offset overflow")
  else if size ≤ offset ∧ size ≠ 0 then
    .error (.message s!"sequence {sequence} is outside the file")
  else
    let payloadLen := min (size - offset) payloadBytes
    let payload := (source.drop offset).take payloadLen
    if payload.length < payloadLen then
      .error (.message "unexpected EOF while building UDP packet")
    else
      let header := packetHeader sequence repair payloadLen
      .ok (header ++ (udpTagParts key header payload ++ payload))

/-- The contents of a valid datagram. -/
structure Packet where
  sequence : Nat
  repair : Bool
  payload : List UInt8
  deriving DecidableEq

/-- The kind of a datagram, by its byte in the header. -/
def packetKind : UInt8 → Option Bool
  | 0 => some false
  | 1 => some true
  | _ => none

/-- What the datagram loop makes of the bytes that it reads from the socket: the contents of the
datagram, or nothing if one of the checks on it fails. -/
def checkPacket [Sha256] (key : Hash) (layout : ChunkLayout) (packet : List UInt8) :
    Option Packet :=
  if packet.length < headerSize then none
  else if packet.head? ≠ some packetVersion then none
  else
    let sequence := fromBeBytes ((packet.drop 1).take 8)
    match (packet[9]?).bind packetKind with
    | none => none
    | some repair =>
      let payloadLen := fromBeBytes ((packet.drop 10).take 2)
      if layout.chunks ≤ sequence ∨ layout.payloadBytes < payloadLen
          ∨ packet.length ≠ headerSize + payloadLen then none
      else if verifyUdpTagParts key (packet.take 12) (packet.drop headerSize)
          ((packet.drop 12).take 16) = false then none
      else if payloadLen ≠ min (layout.size - sequence * layout.payloadBytes) layout.payloadBytes then
        none
      else some ⟨sequence, repair, packet.drop headerSize⟩

/-- The bytes that the socket hands over for a datagram: one more than the longest valid datagram
has, so that an oversized one can be told. -/
def received (layout : ChunkLayout) (datagram : List UInt8) : List UInt8 :=
  datagram.take (headerSize + layout.payloadBytes + 1)

end PacketTide
