import PacketTide.Digest

/-!
# Message authentication

HMAC over SHA-256, and the tags of datagrams.
-/

namespace PacketTide

open Text

/-- Parts joined behind a prefix. -/
def joined (label : List UInt8) (parts : List (List UInt8)) : List UInt8 := label ++ parts.flatten

/-- The length of a block of the hash function. -/
def hmacBlock : Nat := 64

/-- A key brought to the length of a block. -/
def normalizeKey [Sha256] (key : List UInt8) : List UInt8 :=
  if key.length > hmacBlock then (Sha256.digest key).bytes ++ List.replicate 32 0
  else key ++ List.replicate (hmacBlock - key.length) 0

def hmacSha256Parts [Sha256] (key : List UInt8) (messages : List (List UInt8)) : Hash :=
  let normalized := normalizeKey key
  let inner := Sha256.digest (normalized.map (0x36 ^^^ ·) ++ messages.flatten)
  Sha256.digest (normalized.map (0x5c ^^^ ·) ++ inner.bytes)

def hmacSha256 [Sha256] (key message : List UInt8) : Hash := hmacSha256Parts key [message]

/-- Compare byte strings without an early exit. -/
def constantTimeEq (left right : List UInt8) : Bool :=
  left.length == right.length &&
    (List.zipWith (· ^^^ ·) left right).foldl (· ||| ·) 0 == 0

/-- The length of the tag of a datagram. -/
def udpTagLen : Nat := 16

def udpTagParts [Sha256] (key : Hash) (header payload : List UInt8) : List UInt8 :=
  (hmacSha256Parts key.bytes [ascii "tsu4 udp" ++ [0], header, payload]).bytes.take udpTagLen

def verifyUdpTagParts [Sha256] (key : Hash) (header payload tag : List UInt8) : Bool :=
  constantTimeEq (udpTagParts key header payload) tag

end PacketTide
