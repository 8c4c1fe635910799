import PacketTide.Control
import PacketTide.Manifest

/-!
# Content-defined chunks

A file is cut where a rolling hash of its bytes is zero in its low bits, so that equal content is
cut alike wherever it stands. The manifest of the chunks has a text form that carries its own hash.
-/

namespace PacketTide.Cdc

open Text

def minChunkBytes : Nat := 16 * 1024

def averageChunkBytes : Nat := 64 * 1024

def maxChunkBytes : Nat := 256 * 1024

def maxChunks : Nat := 1000000

def maxEncodedBytes : Nat := 64 * 1024 * 1024

structure Chunk where
  offset : Nat
  length : Nat
  hash : Hash
  deriving DecidableEq

structure Manifest where
  size : Nat
  chunks : List Chunk
  hash : Hash
  deriving DecidableEq

/-! ## Scanning -/

/-- The number that a byte adds to the rolling hash. -/
def gear (byte : UInt8) : UInt64 :=
  let value := byte.toUInt64 + 0x9e3779b97f4a7c15
  let value := (value ^^^ (value >>> 30)) * 0xbf58476d1ce4e5b9
  let value := (value ^^^ (value >>> 27)) * 0x94d049bb133111eb
  value ^^^ (value >>> 31)

def pushChunk [Sha256] (chunks : List Chunk) (offset : Nat) (bytes : List UInt8) :
    Check (List Chunk) :=
  if maxChunks ≤ chunks.length then .error "content-defined chunk limit exceeded"
  else if 2 ^ 32 ≤ bytes.length then .error "out of range integral type conversion attempted"
  else .ok (chunks ++ [⟨offset, bytes.length, Sha256.digest bytes⟩])

/-- The variables of a scan: the chunks so far and the chunk that is being read. -/
structure Scan where
  chunks : List Chunk := []
  offset : Nat := 0
  chunk : List UInt8 := []
  rolling : UInt64 := 0

/-- Whether a chunk ends here. -/
def endsChunk (length : Nat) (rolling : UInt64) : Bool :=
  minChunkBytes ≤ length &&
    (rolling &&& (UInt64.ofNat averageChunkBytes - 1) == 0 || maxChunkBytes ≤ length)

/-- End the chunk that is being read. -/
def Scan.endChunk [Sha256] (s : Scan) : Check Scan := do
  let chunks ← pushChunk s.chunks s.offset s.chunk
  refuseIf (2 ^ 64 ≤ s.offset + s.chunk.length) "content-defined offset overflow"
  return { chunks, offset := s.offset + s.chunk.length, chunk := [], rolling := 0 }

/-- Read a byte. -/
def Scan.push (s : Scan) (byte : UInt8) : Scan :=
  { s with chunk := s.chunk ++ [byte], rolling := (s.rolling <<< 1) + gear byte }

def scanBytes [Sha256] : Scan → List UInt8 → Check Scan
  | s, [] => return s
  | s, byte :: bytes =>
    let s := s.push byte
    if endsChunk s.chunk.length s.rolling then do
      let s ← s.endChunk
      scanBytes s bytes
    else scanBytes s bytes

/-- End the last chunk, if there is one. -/
def Scan.finish [Sha256] (s : Scan) : Check Scan := if s.chunk = [] then .ok s else s.endChunk

/-- The text that the hash of a manifest is taken of. -/
def canonicalBody (size : Nat) (chunks : List Chunk) : Str :=
  ascii "CDC1 " ++ decimal size ++ space :: decimal chunks.length ++ [newline] ++
    chunks.flatMap fun chunk =>
      ascii "C " ++ decimal chunk.offset ++ space :: decimal chunk.length ++
        space :: hex chunk.hash.bytes ++ [newline]

/-- Scan a regular file, from its length when it was opened and the bytes that were read from it. -/
def scan [Sha256] (metadataLen : Nat) (content : List UInt8) : Check Manifest := do
  let s ← scanBytes {} content
  let s ← s.finish
  refuseIf (s.offset ≠ metadataLen) "content-defined source changed while it was scanned"
  let body := canonicalBody s.offset s.chunks
  refuseIf (body.length + 70 > maxEncodedBytes) "content-defined manifest byte limit exceeded"
  return ⟨s.offset, s.chunks, Sha256.digest body⟩

def encode (manifest : Manifest) : Str :=
  canonicalBody manifest.size manifest.chunks ++ ascii "CHASH " ++ hex manifest.hash.bytes
    ++ [newline]

/-! ## Parsing -/

def parseU64 (value : Str) : Check Nat :=
  canonicalUnsigned "noncanonical content-defined integer" value

def decodeHash (value : Str) : Check Hash :=
  if value.length ≠ 64 ∨ value.all isLowerHexDigit = false then
    .error "noncanonical content-defined hash"
  else if h : (hexPairs value).toArray.size = 32 then .ok ⟨(hexPairs value).toArray, h⟩
  else .error "noncanonical content-defined hash"

/-- Read the chunks off the lines, from an offset on: the chunks, the offset behind them and the
lines that are left. -/
def parseChunks (size : Nat) : Nat → Nat → List Str → Check (List Chunk × Nat × List Str)
  | 0, expectedOffset, lines => return ([], expectedOffset, lines)
  | _ + 1, _, [] => .error "content-defined manifest ended early"
  | n + 1, expectedOffset, line :: lines =>
    match line.splitOn space with
    | [tag, offset, length, hash] => do
      refuseIf (tag ≠ ascii "C") "invalid content-defined chunk"
      let offset ← parseU64 offset
      let length ← parseU64 length
      refuseIf (2 ^ 32 ≤ length) "out of range integral type conversion attempted"
      refuseIf (offset ≠ expectedOffset ∨ length = 0 ∨ length > maxChunkBytes
        ∨ length < minChunkBytes ∧ offset + length ≠ size) "invalid content-defined chunk layout"
      refuseIf (2 ^ 64 ≤ offset + length) "content-defined offset overflow"
      let hash ← decodeHash hash
      let (chunks, expectedOffset, rest) ← parseChunks size n (offset + length) lines
      return (⟨offset, length, hash⟩ :: chunks, expectedOffset, rest)
    | _ => .error "invalid content-defined chunk"

/-- The fields of the first line: the size and the number of chunks. -/
def parseHeader (header : Str) : Check (Nat × Nat) :=
  match header.splitOn space with
  | [tag, size, count] => do
    refuseIf (tag ≠ ascii "CDC1") "invalid content-defined header"
    let size ← parseU64 size
    let count ← parseU64 count
    return (size, count)
  | _ => .error "invalid content-defined header"

/-- The hash in the last line, which nothing may follow. -/
def parseFooter : List Str → Check Hash
  | [] => .error "missing content-defined manifest hash"
  | [footer] =>
    match stripPrefix (ascii "CHASH ") footer with
    | none => .error "invalid content-defined hash footer"
    | some supplied => decodeHash supplied
  | _ => .error "trailing content-defined manifest data"

def parse [Sha256] (encoded : Str) : Check Manifest := do
  refuseIf (encoded.length > maxEncodedBytes ∨ encoded.getLast? ≠ some newline
    ∨ carriageReturn ∈ encoded) "content-defined manifest is not canonically terminated"
  match lines encoded with
  | [] => .error "missing content-defined header"
  | header :: rest =>
    let (size, count) ← parseHeader header
    refuseIf (count > maxChunks) "content-defined chunk limit exceeded"
    let (chunks, expectedOffset, last) ← parseChunks size count 0 rest
    refuseIf (expectedOffset ≠ size ∨ ¬(size = 0 ↔ chunks = []))
      "content-defined chunks do not cover the object"
    let hash ← parseFooter last
    let body := (header :: rest.take count).flatMap (· ++ [newline])
    refuseIf (hash ≠ Sha256.digest body ∨ canonicalBody size chunks ≠ body)
      "content-defined manifest hash or encoding mismatch"
    return ⟨size, chunks, hash⟩

/-! ## The control channel -/

/-- The payloads that a sender of a manifest writes. -/
def manifestPayloads (manifest : Manifest) : List Str :=
  lines (encode manifest) ++ [ascii "CHUNKS_END"]

/-- Receive a manifest of which the size, the number of chunks and the hash have been announced. -/
def readReuseManifest [Sha256] (size expectedCount : Nat) (expectedHash : Hash)
    (payloads : List Str) : Check Manifest := do
  let (encoded, payloads) ←
    collectLines maxEncodedBytes "content-defined manifest byte limit exceeded"
      (expectedCount + 2) [] payloads
  let _ ← expectLine (ascii "CHUNKS_END") "content-defined manifest did not terminate correctly"
    payloads
  let manifest ← parse encoded
  refuseIf (manifest.size ≠ size ∨ manifest.chunks.length ≠ expectedCount
    ∨ manifest.hash ≠ expectedHash)
    "content-defined manifest differs from authenticated greeting"
  return manifest

/-! ## Pieces -/

/-- The lengths of the pieces that content is cut into, from the length and the rolling hash of the
piece that is being read. -/
def pieceLengthsFrom : Nat → UInt64 → List UInt8 → List Nat
  | length, _, [] => if length = 0 then [] else [length]
  | length, rolling, byte :: bytes =>
    let rolling := (rolling <<< 1) + gear byte
    if endsChunk (length + 1) rolling then (length + 1) :: pieceLengthsFrom 0 0 bytes
    else pieceLengthsFrom (length + 1) rolling bytes

def pieceLengths (content : List UInt8) : List Nat := pieceLengthsFrom 0 0 content

/-- The length of the lines of pieces, from an offset on. -/
def linesLength : Nat → List Nat → Nat
  | _, [] => 0
  | offset, length :: lengths =>
    2 + (decimal offset).length + 1 + (decimal length).length + 1 + 64 + 1 +
      linesLength (offset + length) lengths

/-- The length of the canonical body of a file. -/
def bodyLength (content : List UInt8) : Nat :=
  5 + (decimal content.length).length + 1 + (decimal (pieceLengths content).length).length + 1 +
    linesLength 0 (pieceLengths content)

end PacketTide.Cdc
