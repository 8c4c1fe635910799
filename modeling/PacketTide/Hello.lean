import PacketTide.Cdc
import PacketTide.Packet
import PacketTide.Wire

/-!
# Greetings

What a sender says about its transfer in the handshake, and how a receiver reads it.
-/

namespace PacketTide

open FileSystem Text

inductive Transport where
  | tcp
  | tcp4
  | udp
  deriving DecidableEq

def Transport.wireName : Transport → Str
  | .tcp => ascii "TCP"
  | .tcp4 => ascii "TCP4"
  | .udp => ascii "UDP"

/-- What a sender of a file proposes; the times are in milliseconds. -/
structure SendGreeting where
  transport : Transport
  size : Nat
  expectedHash : Hash
  offeredSession : Vector UInt8 16
  chunks : Nat
  payloadBytes : Nat
  reportInterval : Nat
  repairGrace : Nat
  /-- The number of chunks and the hash of a content-defined manifest. -/
  reuse : Option (Nat × Hash)

/-- The fields for content reuse. -/
def reuseGreeting : Option (Nat × Hash) → List Str
  | none => [ascii "R0"]
  | some (count, hash) => [ascii "R1", decimal count, hex hash.bytes]

def SendGreeting.fields (g : SendGreeting) : List Str :=
  [g.transport.wireName, decimal g.size, hex g.expectedHash.bytes, hex g.offeredSession.toList,
    decimal g.chunks, decimal g.payloadBytes, decimal g.reportInterval, decimal g.repairGrace] ++
    reuseGreeting g.reuse

/-- The greeting of `send`. -/
def SendGreeting.hello (g : SendGreeting) : Str := [space].intercalate g.fields

/-- The greeting of `send_dir`, from the hash and the number of entries of its manifest. -/
def directoryHello (hash : Hash) (entries : Nat) : Str :=
  [space].intercalate [ascii "DIR", hex hash.bytes, decimal entries]

/-! ## Reading greetings -/

/-- What a receiver knows of a transfer; the times are in milliseconds. -/
structure Hello where
  transport : Transport
  size : Nat
  /-- The expected hash, as it was spelled. -/
  hash : Str
  session : List UInt8
  chunks : Nat
  payloadBytes : Nat
  reportInterval : Nat
  repairGrace : Nat
  reuseManifest : Option (Nat × Hash)

def Hello.chunkLayout (hello : Hello) : ChunkLayout :=
  ⟨hello.size, hello.chunks, hello.payloadBytes⟩

def minUdpPayloadBytes : Nat := 256

def maxUdpPayloadBytes : Nat := 1424

def maxChunks : Nat := 536870912

def minReportInterval : Nat := 10

def maxReportInterval : Nat := 10000

def maxRepairGrace : Nat := 60000

/-- A number in decimal without leading zeros; the message leaves out the text that is refused. -/
def parseCanonicalU64 (value : Str) : Check Nat :=
  canonicalUnsigned "non-canonical unsigned integer" value

/-- The outcome of a check in a function that may also panic. -/
def ofCheck {α : Type} (r : Check α) : Except Stop α :=
  r.mapError fun text => .error (.message text)

def parseTransport (name : Str) : Check Transport :=
  if name = ascii "TCP" then .ok .tcp
  else if name = ascii "TCP4" then .ok .tcp4
  else if name = ascii "UDP" then .ok .udp
  else .error "invalid transport in greeting"

/-- The last fields of a greeting: the number of chunks and the hash of a manifest, if any. -/
def parseReuse : List Str → Except Stop (Option (Nat × Hash))
  | [tag] => if tag = ascii "R0" then .ok none else ofCheck (.error "invalid content-reuse greeting")
  | [tag, count, hash] =>
    if tag ≠ ascii "R1" then ofCheck (.error "invalid content-reuse greeting")
    else do
      let count ← ofCheck (parseCanonicalU64 count)
      ofCheck (refuseIf (count > Cdc.maxChunks) "content-defined chunk limit exceeded")
      let bytes ← Auth.decodeArray 32 hash
      if h : bytes.toArray.size = 32 then return some (count, ⟨bytes.toArray, h⟩)
      else ofCheck (.error "invalid hexadecimal field length")
  | _ => ofCheck (.error "invalid content-reuse greeting")

/-- The checks on the numbers of a greeting. -/
def checkHello (hello : Hello) : Check Unit := do
  refuseIf (hello.payloadBytes < minUdpPayloadBytes ∨ maxUdpPayloadBytes < hello.payloadBytes)
    "UDP payload size is outside the supported bounds"
  refuseIf (hello.reportInterval < minReportInterval ∨ maxReportInterval < hello.reportInterval)
    "feedback interval is outside the supported bounds"
  refuseIf (hello.chunks ≠ (hello.size + hello.payloadBytes - 1) / hello.payloadBytes)
    "chunk count does not match file size"
  refuseIf (maxChunks < hello.chunks) "file exceeds the bounded receipt-map limit"
  refuseIf (hello.repairGrace < hello.reportInterval ∨ maxRepairGrace < hello.repairGrace)
    "repair grace must cover at least one feedback interval and at most 60 seconds"
  refuseIf (hello.reuseManifest.isSome ∧ hello.transport ≠ .udp)
    "content reuse is supported only by UDP"

def parseHello (line : Str) : Except Stop Hello :=
  match splitWhitespace line with
  | transport :: size :: hash :: session :: chunks :: payloadBytes :: reportInterval
      :: repairGrace :: reuse => do
    if reuse = [] then ofCheck (.error "invalid authenticated TSU4 greeting body")
    else
      let transport ← ofCheck (parseTransport transport)
      let reuseManifest ← parseReuse reuse
      let size ← ofCheck (parseCanonicalU64 size)
      let session ← Auth.decodeArray 16 session
      let chunks ← ofCheck (parseCanonicalU64 chunks)
      let payloadBytes ← ofCheck (parseCanonicalU64 payloadBytes)
      let reportInterval ← ofCheck (parseCanonicalU64 reportInterval)
      let repairGrace ← ofCheck (parseCanonicalU64 repairGrace)
      let hello : Hello := {
        transport, size, hash, session, chunks, payloadBytes, reportInterval, repairGrace
        reuseManifest }
      let _ ← Auth.decodeArray 32 hash
      ofCheck (checkHello hello)
      return hello
  | _ => ofCheck (.error "invalid authenticated TSU4 greeting body")

end PacketTide
