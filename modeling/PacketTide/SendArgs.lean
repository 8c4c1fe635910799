import PacketTide.Hello
import PacketTide.ReceiveLoop
import PacketTide.SendTimes

/-!
# The arguments of `send`

How the options of a sender are read, and what the sender then proposes to a receiver. All durations are
in nanoseconds.
-/

namespace PacketTide

open Text

/-- What the options are read with: the addresses that texts stand for, and rates, which are floating-point
numbers. -/
class Surroundings where
  Socket : Type
  /-- The addresses that a text resolves to. -/
  toSocketAddrs : Str → Check (List Socket)
  Rate : Type
  parseRate : Str → Check Rate
  isFinite : Rate → Bool
  /-- Whether a rate is at most zero. -/
  nonPositive : Rate → Bool
  less : Rate → Rate → Bool

/-! ## Options -/

def defaultUdpPayloadBytes : Nat := 1172

def defaultReportInterval : Nat := 50

def defaultAutoMinRate : Nat := 10

def defaultAutoMaxRate : Nat := 10000

/-- The argument after the first one that is the name of an option. -/
def optionalOption (args : List Str) (name : String) : Option Str :=
  args[args.idxOf (ascii name) + 1]?

def option (args : List Str) (name : String) : Check Str :=
  if ascii name ∉ args then .error s!"missing required option {name}"
  else
    match optionalOption args name with
    | none => .error s!"missing value for {name}"
    | some value => .ok value

/-- Every option is known and is given once; the messages leave out the option that is refused. -/
def validatePairs (allowed : List String) (seen : List Str) : List Str → Check Unit
  | name :: _ :: args => do
    refuseIf (name ∉ allowed.map ascii) "unknown option"
    refuseIf (name ∈ seen) "duplicate option"
    validatePairs allowed (name :: seen) args
  | _ => .ok ()

def validateOptions (args : List Str) (allowed : List String) : Check Unit := do
  refuseIf (args.length % 2 ≠ 0) "every option must have a value"
  validatePairs allowed [] args

/-- A number of 64 bits, by `str::parse`. -/
def parseU64Option (value : Str) : Check Nat :=
  match parseUnsigned 64 10 value with
  | none => .error (Auth.parseError value)
  | some n => .ok n

def parseBoolOption (args : List Str) (name : String) : Check Bool :=
  match optionalOption args name with
  | none => .ok false
  | some value =>
    if value = ascii "false" then .ok false
    else if value = ascii "true" then .ok true
    else .error s!"{name} must be true or false"

def parseUdpPayloadBytes (args : List Str) : Check Nat := do
  let value ← parseU64Option
    ((optionalOption args "--udp-payload-bytes").getD (decimal defaultUdpPayloadBytes))
  refuseIf (value < minUdpPayloadBytes ∨ maxUdpPayloadBytes < value)
    "--udp-payload-bytes must be between 256 and 1424"
  return value

def parseReportInterval (args : List Str) : Check Nat := do
  let value ← parseU64Option
    ((optionalOption args "--feedback-interval-ms").getD (decimal defaultReportInterval))
  refuseIf (value < minReportInterval ∨ maxReportInterval < value)
    "--feedback-interval-ms must be between 10 and 10000"
  return millis value

/-- How long a repair is left alone before it is sent again. -/
def parseRepairCooldown (args : List Str) : Check Nat := do
  let value ← parseU64Option ((optionalOption args "--repair-cooldown-ms").getD (ascii "250"))
  return millis value

/-- A transport by its name; the message leaves out the text that is refused. -/
def Transport.parse (value : Str) : Check Transport :=
  if value = ascii "tcp" then .ok .tcp
  else if value = ascii "tcp4" then .ok .tcp4
  else if value = ascii "udp" then .ok .udp
  else .error "unknown transport; expected tcp, tcp4, or udp"

/-! ## Arguments -/

variable [Surroundings]

open Surroundings

structure SendArgs where
  connect : Socket
  udpTarget : Socket
  file : Str
  transport : Transport
  rateMbps : Option Rate
  minRateMbps : Rate
  maxRateMbps : Rate
  repairCooldown : Nat
  udpPayloadBytes : Nat
  reportInterval : Nat
  idleTimeout : Nat
  keyFile : Str
  reuseChunks : Bool

/-- The first address; the message leaves out the text that is refused. -/
def resolveSocket (value : Str) : Check Socket := do
  match (← toSocketAddrs value) with
  | [] => .error "address did not resolve"
  | address :: _ => return address

def optionalRate (args : List Str) : Check (Option Rate) :=
  match optionalOption args "--rate-mbps" with
  | none => .ok none
  | some value => (parseRate value).map some

/-- The rates are positive numbers, and a fixed rate comes without bounds. -/
def checkRates (args : List Str) (parsed : SendArgs) : Check Unit := do
  refuseIf (parsed.rateMbps.any fun rate => !isFinite rate || nonPositive rate)
    "--rate-mbps must be positive and finite"
  refuseIf (isFinite parsed.minRateMbps = false ∨ isFinite parsed.maxRateMbps = false
      ∨ nonPositive parsed.minRateMbps ∨ less parsed.maxRateMbps parsed.minRateMbps)
    "automatic rate bounds must be positive, finite, and ordered"
  refuseIf (parsed.rateMbps.isSome ∧ ((optionalOption args "--min-rate-mbps").isSome
      ∨ (optionalOption args "--max-rate-mbps").isSome))
    "--rate-mbps is a fixed-rate override and cannot be combined with automatic rate bounds"

/-- The options of `send`. -/
def sendOptions : List String :=
  ["--connect", "--udp-target", "--file", "--transport", "--rate-mbps", "--min-rate-mbps",
    "--max-rate-mbps", "--repair-cooldown-ms", "--udp-payload-bytes", "--feedback-interval-ms",
    "--idle-timeout-ms", "--key-file", "--reuse-chunks"]

/-- The arguments before they are checked together. -/
def readSend (args : List Str) : Check SendArgs := do
  let connect ← resolveSocket (← option args "--connect")
  let udpTarget ← resolveSocket (← option args "--udp-target")
  let file ← option args "--file"
  let transport ← Transport.parse (← option args "--transport")
  let rateMbps ← optionalRate args
  let minRateMbps ←
    parseRate ((optionalOption args "--min-rate-mbps").getD (decimal defaultAutoMinRate))
  let maxRateMbps ←
    parseRate ((optionalOption args "--max-rate-mbps").getD (decimal defaultAutoMaxRate))
  let repairCooldown ← parseRepairCooldown args
  let udpPayloadBytes ← parseUdpPayloadBytes args
  let reportInterval ← parseReportInterval args
  let idleTimeout ← parseIdleTimeout (optionalOption args "--idle-timeout-ms")
  let keyFile ← option args "--key-file"
  let reuseChunks ← parseBoolOption args "--reuse-chunks"
  return { connect, udpTarget, file, transport, rateMbps, minRateMbps, maxRateMbps, repairCooldown
           udpPayloadBytes, reportInterval, idleTimeout := millis idleTimeout, keyFile, reuseChunks }

def parseSend (args : List Str) : Check SendArgs := do
  validateOptions args sendOptions
  let parsed ← readSend args
  refuseIf (parsed.idleTimeout ≤ parsed.reportInterval)
    "--feedback-interval-ms must be shorter than --idle-timeout-ms"
  refuseIf (parsed.reuseChunks ∧ parsed.transport ≠ .udp) "--reuse-chunks is supported only by UDP"
  checkRates args parsed
  return parsed

/-! ## The proposal -/

/-- The number of whole milliseconds. -/
def asMillis (duration : Nat) : Nat := duration / millis 1

namespace SendArgs

variable [Sha256] (args : SendArgs)

/-- The content-defined manifest that `send` announces, from the length of the file when it is opened and
the bytes that are read from it. -/
def reuseManifest (metadataLen : Nat) (content : List UInt8) : Check (Option Cdc.Manifest) :=
  if args.reuseChunks then (Cdc.scan metadataLen content).map some else .ok none

/-- What `send` puts into its greeting, from the size and the hash of the file and its scan. -/
def greeting (size : Nat) (expectedHash : Hash) (metadataLen : Nat) (content : List UInt8)
    (offeredSession : Vector UInt8 16) : Check SendGreeting := do
  let reuse ← args.reuseManifest metadataLen content
  let chunks := (size + args.udpPayloadBytes - 1) / args.udpPayloadBytes
  refuseIf (maxChunks < chunks)
    s!"file requires {chunks} chunks; maximum is {maxChunks} to keep receipt memory bounded"
  return {
    transport := args.transport, size, expectedHash, offeredSession, chunks
    payloadBytes := args.udpPayloadBytes
    reportInterval := asMillis args.reportInterval
    repairGrace := asMillis (max (args.repairCooldown / 2) args.reportInterval)
    reuse := reuse.map fun manifest => (manifest.chunks.length, manifest.hash) }

end SendArgs

end PacketTide
