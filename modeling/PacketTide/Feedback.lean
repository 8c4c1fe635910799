import PacketTide.Hello
import PacketTide.ReceiveUdp

/-!
# Feedback reports

The receiver reports its counters and the chunks that it misses in a line of the control channel. The
sender checks what it reads.
-/

namespace PacketTide

open FileSystem Text

def maxRangesPerReport : Nat := 512

def maxFeedbackReportSize : Nat := 24 * 1024

def hyphen : UInt8 := 45

def comma : UInt8 := 44

/-! ## What is missing -/

/-- The last chunk of a run of missing chunks that lies below an end, looked for among a number of
chunks. -/
def lastMissing (bitmap : Bitmap) (stop : Nat) : Nat → Nat → Nat
  | 0, sequence => sequence
  | n + 1, sequence =>
    if sequence + 1 < stop ∧ bitmapContains bitmap (sequence + 1) = false then
      lastMissing bitmap stop n (sequence + 1)
    else sequence

/-- The runs of missing chunks from one on and below an end, at most so many. Each turn of the loop
leaves at least one chunk behind. -/
def missingFrom (bitmap : Bitmap) (stop : Nat) : Nat → Nat → Nat → List (Nat × Nat)
  | 0, _, _ => []
  | _ + 1, 0, _ => []
  | n + 1, maxRanges + 1, sequence =>
    if sequence < stop then
      if bitmapContains bitmap sequence then missingFrom bitmap stop n (maxRanges + 1) (sequence + 1)
      else
        let last := lastMissing bitmap stop n sequence
        (sequence, last) :: missingFrom bitmap stop n maxRanges (last + 1)
    else []

def missingRanges (bitmap : Bitmap) (stop maxRanges : Nat) : List (Nat × Nat) :=
  missingFrom bitmap stop stop maxRanges 0

/-! ## The text of a report -/

def formatRange (range : Nat × Nat) : Str :=
  if range.1 = range.2 then decimal range.1
  else decimal range.1 ++ hyphen :: decimal range.2

def formatRanges (ranges : List (Nat × Nat)) : Str :=
  if ranges = [] then [hyphen] else [comma].intercalate (ranges.map formatRange)

def formatSocketDrops : Option Nat → Str
  | none => [hyphen]
  | some drops => decimal drops

def formatFeedbackReport (t : ReceiverTelemetry) (ranges : List (Nat × Nat)) : Str :=
  [space].intercalate [ascii "M", decimal t.receivedChunks, decimal t.frontierChunks,
    decimal t.acceptedDatagrams, decimal t.validDatagrams, decimal t.duplicateDatagrams,
    decimal t.invalidDatagrams, decimal t.repairDatagrams, formatSocketDrops t.socketDrops,
    formatRanges ranges]

def parseSocketDrops (value : Str) : Check (Option Nat) :=
  if value = [hyphen] then .ok none
  else do
    let drops ← parseCanonicalU64 value
    return some drops

/-- Counters that do not belong together. -/
def ReceiverTelemetry.inconsistent (t : ReceiverTelemetry) (chunks : Nat) : Prop :=
  chunks < t.receivedChunks ∨ chunks < t.frontierChunks
    ∨ t.receivedChunks < t.acceptedDatagrams ∨ t.validDatagrams < t.acceptedDatagrams
    ∨ t.validDatagrams < t.duplicateDatagrams ∨ t.validDatagrams < t.repairDatagrams
    ∨ 2 ^ 64 ≤ t.acceptedDatagrams + t.duplicateDatagrams
    ∨ t.acceptedDatagrams + t.duplicateDatagrams ≠ t.validDatagrams

instance (t : ReceiverTelemetry) (chunks : Nat) : Decidable (t.inconsistent chunks) :=
  inferInstanceAs (Decidable (_ ∨ _))

/-- The counters of a report, and the text of its ranges. -/
def parseFeedbackReport (line : Str) (chunks : Nat) : Check (ReceiverTelemetry × Str) :=
  match splitWhitespace line with
  | [tag, received, frontier, accepted, valid, duplicate, invalid, repair, drops, ranges] => do
    refuseIf (tag ≠ ascii "M") "invalid receiver feedback report"
    let socketDrops ← parseSocketDrops drops
    let receivedChunks ← parseCanonicalU64 received
    let frontierChunks ← parseCanonicalU64 frontier
    let acceptedDatagrams ← parseCanonicalU64 accepted
    let validDatagrams ← parseCanonicalU64 valid
    let duplicateDatagrams ← parseCanonicalU64 duplicate
    let invalidDatagrams ← parseCanonicalU64 invalid
    let repairDatagrams ← parseCanonicalU64 repair
    let telemetry : ReceiverTelemetry := {
      receivedChunks, frontierChunks, acceptedDatagrams, validDatagrams, duplicateDatagrams
      invalidDatagrams, repairDatagrams, socketDrops, reports := 0 }
    refuseIf (telemetry.inconsistent chunks) "inconsistent receiver feedback counters"
    return (telemetry, if ranges = [hyphen] then [] else ranges)
  | _ => .error "invalid receiver feedback report"

end PacketTide
