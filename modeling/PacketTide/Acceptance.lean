import PacketTide.Repairs

/-!
# Accepting a transfer

What the sender learns from the receiver before a transfer starts: that the object is there already, or
which of its chunks are.
-/

namespace PacketTide

open Text

structure Acceptance where
  /-- The chunks that the receiver holds. -/
  durableChunks : Bitmap := []
  alreadyComplete : Bool := false
  telemetry : ReceiverTelemetry := {}
  reusedBytes : Nat := 0
  reusedChunks : Nat := 0
  deriving DecidableEq

/-- The next line and the lines after it. -/
def nextLine : List Str → Check (Str × List Str)
  | [] => .error "connection closed during authenticated message"
  | line :: lines => .ok (line, lines)

/-! ## The resume response -/

/-- A word of a bitmap, in hexadecimal. -/
def parseResumeWord (value : Str) : Check (BitVec 64) :=
  match parseUnsigned 64 16 value with
  | some n => .ok (BitVec.ofNat 64 n)
  | none =>
    if value = [] then .error "cannot parse integer from empty string"
    else if (digitsValue 16 ((stripPrefix [43] value).getD value)).isSome ∧ value ≠ [43] then
      .error "number too large to fit in target type"
    else .error "invalid digit found in string"

/-- Put a word where it belongs. -/
def readResumeWord (bitmap : Bitmap) (line : Str) : Check Bitmap :=
  match splitWhitespace line with
  | [tag, index, word] => do
    refuseIf (tag ≠ ascii "H") ("invalid resume response: " ++ asciiText line)
    let index ← parseChunkNumber index
    let word ← parseResumeWord word
    refuseIf (bitmap.length ≤ index ∨ bitmap[index]? ≠ some 0#64 ∨ word = 0#64)
      "invalid or duplicate resume bitmap word"
    return bitmap.set index word
  | _ => .error ("invalid resume response: " ++ asciiText line)

def readResumeWords : Bitmap → List Str → Check (Bitmap × List Str)
  | _, [] => .error "connection closed during authenticated message"
  | bitmap, line :: lines =>
    if line = ascii "GO" then .ok (bitmap, lines)
    else do
      let bitmap ← readResumeWord bitmap line
      readResumeWords bitmap lines

/-- Whether the last word of a bitmap has bits for chunks that there are not. -/
def beyondFile (chunks : Nat) (bitmap : Bitmap) : Bool :=
  chunks % 64 ≠ 0 ∧ bitmap.getLast?.any fun word =>
    word &&& ~~~BitVec.ofNat 64 (2 ^ (chunks % 64) - 1) ≠ 0#64

/-- How much the receiver reuses, and what it holds. -/
def readResume (chunks payloadBytes : Nat) (lines : List Str) : Check (Acceptance × List Str) := do
  let (line, lines) ← nextLine lines
  match line.splitOn space with
  | [tag, bytes, count] => do
    refuseIf (tag ≠ ascii "REUSED") "receiver omitted authenticated reuse inventory"
    let reusedBytes ← parseCanonicalU64 bytes
    let reusedChunks ← parseCanonicalU64 count
    refuseIf (min (chunks * payloadBytes) (2 ^ 64 - 1) < reusedBytes ∨ chunks < reusedChunks)
      "receiver reuse inventory exceeds the object"
    let (bitmap, lines) ← readResumeWords (List.replicate (bitmapWords chunks) 0#64) lines
    refuseIf (beyondFile chunks bitmap) "resume bitmap contains chunks beyond the file"
    refuseIf (bitmapCount bitmap < reusedChunks) "receiver reuse inventory exceeds durable chunks"
    return ({ durableChunks := bitmap, reusedBytes, reusedChunks }, lines)
  | _ => .error "receiver omitted authenticated reuse inventory"

/-! ## The answer of the receiver -/

/-- The counters of a receiver that holds the object already. -/
def readCompleted (transport : Transport) (chunks : Nat) (line : Str) : Check ReceiverTelemetry := do
  refuseIf (transport ≠ .udp) "non-UDP receiver sent datagram telemetry"
  let (snapshot, ranges) ← parseFeedbackReport line chunks
  refuseIf (ranges ≠ []) "completed receiver reported missing chunks"
  return { snapshot with reports := 1 }

/-- The report interval is in milliseconds. -/
def readAcceptance (transport : Transport) (chunks payloadBytes reportInterval : Nat)
    (lines : List Str) : Check (Acceptance × List Str) := do
  let (line, lines) ← nextLine lines
  let (telemetry, line, lines) ←
    if (stripPrefix (ascii "M ") line).isSome then do
      let telemetry ← readCompleted transport chunks line
      let (line, lines) ← nextLine lines
      pure (telemetry, line, lines)
    else pure ({}, line, lines)
  if line = ascii "COMPLETE" then return ({ alreadyComplete := true, telemetry }, lines)
  else if line ≠ ascii "READY " ++ decimal payloadBytes ++ space :: decimal reportInterval then
    .error ("receiver rejected transfer: " ++ asciiText line)
  else if transport ≠ .udp then return ({ telemetry }, lines)
  else do
    let (acceptance, lines) ← readResume chunks payloadBytes lines
    return ({ acceptance with telemetry }, lines)

end PacketTide
