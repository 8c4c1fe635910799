import PacketTide.Cdc
import PacketTide.Hello
import PacketTide.ReceiveUdp

/-!
# Content reuse

Before a transfer the receiver may copy parts of the object that a local file holds already. It
credits the chunks that the copied ranges cover.
-/

namespace PacketTide

open Effects FileSystem Prog Text

/-- The outcome of a check in a program over files. -/
def checked {α : Type} (r : Check α) : FsProg α := Prog.lift (r.mapError AnyError.message)

/-- `cdc::scan` on a path. -/
def scanPath [Sha256] (path : Path) : FsProg Cdc.Manifest := do
  let file ← ask (.openFile path { nofollow := true })
  let metadata ← ask (.fstat file)
  if metadata.fileType ≠ .file then failWith "content-defined source is not a regular file"
  else
    let content ← ask (.readToEnd file)
    checked (Cdc.scan metadata.len content)

/-- The place of the first chunk of a file with a length and a hash. -/
def available (candidate : Cdc.Manifest) (length : Nat) (hash : Hash) : Option Nat :=
  (candidate.chunks.find? fun chunk => chunk.length = length ∧ chunk.hash = hash).map (·.offset)

/-- Read exactly so many bytes at an offset. A read returns at least one byte, so there are at most as
many reads as bytes. -/
def readExactAt (file : Loc) : Nat → Nat → Nat → List UInt8 → FsProg (List UInt8)
  | 0, _, _, bytes => return bytes
  | n + 1, count, offset, bytes =>
    if count = 0 then return bytes
    else do
      let read ← ask (.readAt file offset count)
      if read = [] then failWith "reuse candidate changed while it was read"
      else if 2 ^ 64 ≤ offset + read.length then failWith "reuse candidate offset overflow"
      else readExactAt file n (count - read.length) (offset + read.length) (bytes ++ read)

/-- Copy the chunks of an object that a candidate has: the ranges that were copied. -/
def copyChunks [Sha256] (destination source : Loc) (candidate : Cdc.Manifest) :
    List Cdc.Chunk → FsProg (List (Nat × Nat))
  | [] => return []
  | chunk :: chunks =>
    match available candidate chunk.length chunk.hash with
    | none => copyChunks destination source candidate chunks
    | some sourceOffset => do
      let bytes ← readExactAt source chunk.length chunk.length sourceOffset []
      if Sha256.digest bytes ≠ chunk.hash then copyChunks destination source candidate chunks
      else
        ask (.writeAt destination chunk.offset bytes)
        let copied ← copyChunks destination source candidate chunks
        return (chunk.offset, chunk.offset + chunk.length) :: copied

/-- Join ranges that touch or overlap, the last one that was joined at the front. -/
def mergeRanges : List (Nat × Nat) → List (Nat × Nat) → List (Nat × Nat)
  | merged, [] => merged.reverse
  | [], range :: ranges => mergeRanges [range] ranges
  | last :: merged, range :: ranges =>
    if range.1 ≤ last.2 then mergeRanges ((last.1, max last.2 range.2) :: merged) ranges
    else mergeRanges (range :: last :: merged) ranges

/-- What content reuse has credited. -/
structure Reused where
  resume : ResumeState
  bytes : Nat := 0
  chunks : Nat := 0
  deriving DecidableEq

/-- Credit a number of chunks from one on, with the ranges that are not passed yet. -/
def creditChunks (layout : ChunkLayout) :
    Nat → Nat → List (Nat × Nat) → Reused → Check Reused
  | 0, _, _, reused => .ok reused
  | n + 1, sequence, ranges, reused =>
    if bitmapContains reused.resume.bitmap sequence then
      creditChunks layout n (sequence + 1) ranges reused
    else do
      let start := sequence * layout.payloadBytes
      refuseIf (2 ^ 64 ≤ start) "reuse packet offset overflow"
      refuseIf (2 ^ 64 ≤ start + layout.payloadBytes) "reuse packet offset overflow"
      let stop := min (start + layout.payloadBytes) layout.size
      let ranges := ranges.dropWhile fun range => range.2 ≤ start
      if ranges.head?.any fun range => range.1 ≤ start && stop ≤ range.2 then
        creditChunks layout n (sequence + 1) ranges {
          resume := { reused.resume with
            bitmap := bitmapInsert reused.resume.bitmap sequence
            receivedCount := saturatingAdd reused.resume.receivedCount 1 }
          bytes := saturatingAdd reused.bytes (stop - start)
          chunks := saturatingAdd reused.chunks 1 }
      else creditChunks layout n (sequence + 1) ranges reused

/-- Copy and credit, given the open candidate and its manifest. -/
def reuseFrom [Sha256] (pid : Nat) (destination source : Loc) (state : ResumeState)
    (target candidate : Cdc.Manifest) (layout : ChunkLayout) : FsProg Reused := do
  let copied ← copyChunks destination source candidate target.chunks
  if copied = [] then return { resume := state }
  else
    let reused ← checked (creditChunks layout layout.chunks 0 (mergeRanges [] copied)
      { resume := state })
    if 0 < reused.chunks then reused.resume.checkpoint pid destination
    return reused

/-- Whether a path names nothing; a path of which that is not known may name something. -/
def isMissing (path : Path) : FsProg Bool := do
  match ← tryStat path with
  | .error .notFound => return true
  | _ => return false

def applyReusableContent [Sha256] (pid : Nat) (destination : Loc) (state : ResumeState)
    (target : Cdc.Manifest) (candidatePath : Path) (layout : ChunkLayout) : FsProg Reused := do
  match ← (scanPath candidatePath).attempt with
  | .error error =>
    if ← isMissing candidatePath then return { resume := state }
    else Prog.fail error
  | .ok candidate =>
    let source ← ask (.openFile candidatePath { nofollow := true })
    reuseFrom pid destination source state target candidate layout

end PacketTide
