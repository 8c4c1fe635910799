import PacketTide.Cutting.Basic
import PacketTide.Hello

/-!
# Content-defined chunks on a machine

A file is read in buffers of the length that each read happens to return, and an addition of 64 bits
that overflows is a panic.
-/

namespace PacketTide.Cdc

open Text

/-- The loop of `scan` over the buffers that were read. -/
def scanBuffers [Sha256] : Scan → List (List UInt8) → Check Scan
  | s, [] => return s
  | s, buffer :: buffers => do
    let s ← scanBytes s buffer
    scanBuffers s buffers

/-- `scan` on a regular file, from its length when it was opened and the buffers that were read from it. -/
def scanReads [Sha256] (metadataLen : Nat) (buffers : List (List UInt8)) : Check Manifest := do
  let s ← scanBuffers {} buffers
  let s ← s.finish
  refuseIf (s.offset ≠ metadataLen) "content-defined source changed while it was scanned"
  let body := canonicalBody s.offset s.chunks
  refuseIf (body.length + 70 > maxEncodedBytes) "content-defined manifest byte limit exceeded"
  return ⟨s.offset, s.chunks, Sha256.digest body⟩

/-! ## The chunks of a content -/

/-- The cutter of `scan`: its state is the length of the chunk that is being read and the rolling hash. -/
def cutter : Cutting.Cutter UInt8 (Nat × UInt64) where
  start := (0, 0)
  step s byte := (s.1 + 1, (s.2 <<< 1) + gear byte)
  ends s := endsChunk s.1 s.2

/-- The bytes of a content chunk. -/
def Chunk.bytes (chunk : Chunk) (content : List UInt8) : List UInt8 :=
  (content.drop chunk.offset).take chunk.length

/-- The chunks of a manifest are the parts of a content, in order and with their hashes. -/
structure Partitions [Sha256] (content : List UInt8) (m : Manifest) : Prop where
  size : m.size = content.length
  parts : (m.chunks.map fun chunk => chunk.bytes content).flatten = content
  offset : ∀ before chunk after, m.chunks = before ++ chunk :: after →
    chunk.offset = (before.map Chunk.length).sum
  length : ∀ chunk ∈ m.chunks, (chunk.bytes content).length = chunk.length ∧ 0 < chunk.length ∧
    chunk.length ≤ maxChunkBytes
  full : ∀ before chunk after, m.chunks = before ++ chunk :: after → after ≠ [] →
    minChunkBytes ≤ chunk.length
  hash : ∀ chunk ∈ m.chunks, chunk.hash = Sha256.digest (chunk.bytes content)

/-- A place at which a chunk ends that is not the last one, or the beginning. -/
def Boundary (m : Manifest) (position : Nat) : Prop :=
  position = 0 ∨ ∃ before chunk after, m.chunks = before ++ chunk :: after ∧ after ≠ [] ∧
    chunk.offset + chunk.length = position

/-- The lengths and hashes of the chunks from a place on. -/
def signaturesFrom (m : Manifest) (position : Nat) : List (Nat × Hash) :=
  (m.chunks.filter fun chunk => position ≤ chunk.offset).map fun chunk => (chunk.length, chunk.hash)

/-! ## Additions -/

/-- Add numbers of 64 bits. -/
def add64 (a b : Nat) : Except Stop Nat := if 2 ^ 64 ≤ a + b then .error .panic else .ok (a + b)

/-- The loop of `parse` over the lines of the chunks; a short chunk is compared with the size by an
addition that is not checked. -/
def parseChunks64 (size : Nat) : Nat → Nat → List Str → Except Stop (List Chunk × Nat × List Str)
  | 0, expectedOffset, lines => return ([], expectedOffset, lines)
  | _ + 1, _, [] => ofCheck (.error "content-defined manifest ended early")
  | n + 1, expectedOffset, line :: lines =>
    match line.splitOn space with
    | [tag, offset, length, hash] => do
      ofCheck (refuseIf (tag ≠ ascii "C") "invalid content-defined chunk")
      let offset ← ofCheck (parseU64 offset)
      let length ← ofCheck (parseU64 length)
      ofCheck (refuseIf (2 ^ 32 ≤ length) "out of range integral type conversion attempted")
      ofCheck (refuseIf (offset ≠ expectedOffset ∨ length = 0 ∨ length > maxChunkBytes)
        "invalid content-defined chunk layout")
      if length < minChunkBytes then
        let stop ← add64 offset length
        ofCheck (refuseIf (stop ≠ size) "invalid content-defined chunk layout")
      ofCheck (refuseIf (2 ^ 64 ≤ offset + length) "content-defined offset overflow")
      let hash ← ofCheck (decodeHash hash)
      let (chunks, expectedOffset, rest) ← parseChunks64 size n (offset + length) lines
      return (⟨offset, length, hash⟩ :: chunks, expectedOffset, rest)
    | _ => ofCheck (.error "invalid content-defined chunk")

/-- `parse` on numbers of 64 bits. -/
def parse64 [Sha256] (encoded : Str) : Except Stop Manifest := do
  ofCheck (refuseIf (encoded.length > maxEncodedBytes ∨ encoded.getLast? ≠ some newline
    ∨ carriageReturn ∈ encoded) "content-defined manifest is not canonically terminated")
  match lines encoded with
  | [] => ofCheck (.error "missing content-defined header")
  | header :: rest =>
    let (size, count) ← ofCheck (parseHeader header)
    ofCheck (refuseIf (count > maxChunks) "content-defined chunk limit exceeded")
    let (chunks, expectedOffset, last) ← parseChunks64 size count 0 rest
    ofCheck (refuseIf (expectedOffset ≠ size ∨ ¬(size = 0 ↔ chunks = []))
      "content-defined chunks do not cover the object")
    let hash ← ofCheck (parseFooter last)
    let body := (header :: rest.take count).flatMap (· ++ [newline])
    ofCheck (refuseIf (hash ≠ Sha256.digest body ∨ canonicalBody size chunks ≠ body)
      "content-defined manifest hash or encoding mismatch")
    return ⟨size, chunks, hash⟩

end PacketTide.Cdc
