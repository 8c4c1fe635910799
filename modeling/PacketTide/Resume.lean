import PacketTide.Bitmap
import PacketTide.Digest

/-!
# The resume state of a receiver

Beside the destination the receiver keeps the partial file `<destination>.part` and the receipt
map `<destination>.part.map`. The map is replaced through a temporary file, after the data it
speaks about has been synced.
-/

namespace PacketTide

open Effects FileSystem Text

/-- What identifies an object to the resume state. -/
structure Identity where
  size : Nat
  chunks : Nat
  payloadBytes : Nat
  hash : Hash
  size_lt : size < 2 ^ 64
  chunks_lt : chunks < 2 ^ 64
  payloadBytes_lt : payloadBytes < 2 ^ 64
  deriving DecidableEq

namespace Identity

theorem one_lt : 1 < 2 ^ 64 := by decide

/-- The least payload size. -/
theorem leastPayload_lt : 256 < 2 ^ 64 := by decide

/-- The length of a chunk: the payload size, less in the last chunk, none beyond the object. -/
def chunkLen (id : Identity) (sequence : Nat) : Nat :=
  min (id.size - sequence * id.payloadBytes) id.payloadBytes

/-- The bytes of a chunk in a file. -/
def chunkOf (id : Identity) (sequence : Nat) (file : List UInt8) : List UInt8 :=
  (file.drop (sequence * id.payloadBytes)).take (id.chunkLen sequence)

end Identity

/-- The magic number of a receipt map. -/
def mapMagic : List UInt8 := ascii "TSUMAP4" ++ [0]

def headerLen : Nat := 8 + 8 + 8 + 8 + 32

/-- The words of 64 bits that bytes hold, highest byte first. -/
def decodeWords : Nat → List UInt8 → Bitmap
  | 0, _ => []
  | n + 1, bytes => BitVec.ofNat 64 (fromBeBytes (bytes.take 8)) :: decodeWords n (bytes.drop 8)

/-- The header and the words of a map, in the pieces in which they are written. -/
def mapPieces (id : Identity) (bitmap : Bitmap) : List (List UInt8) :=
  [mapMagic, toBeBytes id.size, toBeBytes id.chunks, toBeBytes id.payloadBytes, id.hash.bytes]
    ++ bitmap.map fun word => toBeBytes word.toNat

/-- The content of a map. -/
def mapBytes (id : Identity) (bitmap : Bitmap) : List UInt8 := (mapPieces id bitmap).flatten

/-- Whether a bitmap has a bit beyond the last chunk in its last word. -/
def hasStrayBits (chunks : Nat) (bitmap : Bitmap) : Bool :=
  chunks &&& 63 != 0 &&
    match bitmap.getLast? with
    | some word => word &&& ~~~((1#64 <<< (chunks % 64)) - 1#64) != 0#64
    | none => false

/-- The part of `load_map` after the length check: the header must name the object. -/
def decodeMap (id : Identity) (words : Nat) (content : List UInt8) : Option Bitmap :=
  let header := content.take headerLen
  if header.take 8 ≠ mapMagic
      ∨ fromBeBytes ((header.drop 8).take 8) ≠ id.size
      ∨ fromBeBytes ((header.drop 16).take 8) ≠ id.chunks
      ∨ fromBeBytes ((header.drop 24).take 8) ≠ id.payloadBytes
      ∨ (header.drop 32).take 32 ≠ id.hash.bytes then none
  else
    let bitmap := decodeWords words (content.drop headerLen)
    if hasStrayBits id.chunks bitmap then none else some bitmap

/-- Read the receipt map of an object; a map that is absent or not about it is no map. -/
def loadMap (path : Path) (id : Identity) (words : Nat) : FsProg (Option Bitmap) := do
  match ← tryOpen path {} with
  | .error .notFound => return none
  | .error e => .done (.error (.io e))
  | .ok stream =>
    let expectedLen := headerLen + words * 8
    if expectedLen ≥ 2 ^ 64 then failWith "resume map is too large"
    else
      let metadata ← ask (.fstat stream)
      if metadata.len ≠ expectedLen then return none
      else
        let content ← ask (.readToEnd stream)
        return decodeMap id words content

/-- The partial file of a destination. -/
def partOf (destination : Path) : Path := destination.appended (ascii ".part")

/-- The receipt map of a destination. -/
def mapOf (destination : Path) : Path := destination.appended (ascii ".part.map")

/-- The file that a process prepares a map in. -/
def temporaryOf (pid : Nat) (map : Path) : Path := map.appended (ascii ".tmp." ++ decimal pid)

structure ResumeState where
  bitmap : Bitmap
  receivedCount : Nat
  partPath : Path
  mapPath : Path
  identity : Identity
  deriving DecidableEq

/-- Make a sequence of writes to an open file. -/
def writeAll (h : Loc) : List (List UInt8) → FsProg Unit
  | [] => pure ()
  | piece :: pieces => do
    ask (.write h piece)
    writeAll h pieces

namespace ResumeState

/-- Sync the data, then replace the map. -/
def checkpoint (pid : Nat) (state : ResumeState) (file : Loc) : FsProg Unit := do
  ask (.sync file)
  let temporary := temporaryOf pid state.mapPath
  let stream ← ask (.openFile temporary { write := true, create := true, truncate := true })
  writeAll stream (mapPieces state.identity state.bitmap)
  ask (.sync stream)
  ask (.rename temporary state.mapPath)

/-- The state for a destination, with a bitmap. -/
def forObject (destination : Path) (id : Identity) (bitmap : Bitmap) : ResumeState where
  bitmap := bitmap
  receivedCount := bitmapCount bitmap
  partPath := partOf destination
  mapPath := mapOf destination
  identity := id

/-- The bitmap to resume from: there is a map of the object and the partial file has its size. -/
def resumable (destination : Path) (id : Identity) : FsProg (Option Bitmap) := do
  match ← loadMap (mapOf destination) id (bitmapWords id.chunks) with
  | none => return none
  | some bitmap =>
    match ← tryStat (partOf destination) with
    | .ok metadata => if metadata.len = id.size then return some bitmap else return none
    | .error _ => return none

/-- The state of an object without receipts. -/
def fresh (destination : Path) (id : Identity) : ResumeState :=
  forObject destination id (List.replicate (bitmapWords id.chunks) 0#64)

/-- Empty the partial file and extend it to the size of the object. -/
def emptyPart (destination : Path) (id : Identity) : FsProg Loc := do
  let file ← ask (.openFile (partOf destination)
    { write := true, create := true, truncate := true })
  ask (.setLen file id.size)
  return file

/-- Start an object afresh: an empty partial file of its size, then a map without receipts. -/
def openFresh (pid : Nat) (destination : Path) (id : Identity) : FsProg (Loc × ResumeState) := do
  let file ← emptyPart destination id
  checkpoint pid (fresh destination id) file
  return (file, fresh destination id)

/-- `ResumeState::open`. -/
def openState (pid : Nat) (destination : Path) (id : Identity) : FsProg (Loc × ResumeState) := do
  match ← resumable destination id with
  | some bitmap =>
    let state := forObject destination id bitmap
    let file ← ask (.openFile state.partPath { write := true })
    return (file, state)
  | none => openFresh pid destination id

/-- Move the finished file into place and drop the map. -/
def install (state : ResumeState) (destination : Path) : FsProg Unit := do
  ask (.rename state.partPath destination)
  match ← tryRemove state.mapPath with
  | .ok () => return ()
  | .error .notFound => return ()
  | .error e => .done (.error (.io e))

/-- Drop the partial file and the map; failures are ignored. -/
def discard (state : ResumeState) : FsProg Unit := do
  let _ ← tryRemove state.partPath
  let _ ← tryRemove state.mapPath
  return ()

/-- Whether the datagram loop accepts bytes for a chunk: the chunk exists, the bytes have its
length, and it has not been received yet. -/
def accepts (state : ResumeState) (sequence : Nat) (bytes : List UInt8) : Prop :=
  sequence < state.identity.chunks ∧ bytes.length = state.identity.chunkLen sequence ∧
    bitmapContains state.bitmap sequence = false

instance (state : ResumeState) (sequence : Nat) (bytes : List UInt8) :
    Decidable (state.accepts sequence bytes) :=
  inferInstanceAs (Decidable (_ ∧ _ ∧ _))

/-- Mark a chunk as received. -/
def markReceived (state : ResumeState) (sequence : Nat) : ResumeState :=
  { state with
    bitmap := bitmapInsert state.bitmap sequence
    receivedCount := state.receivedCount + 1 }

/-- Store an accepted chunk: first its bytes, then its bit. -/
def storeChunk (state : ResumeState) (file : Loc) (sequence : Nat) (bytes : List UInt8) :
    FsProg ResumeState := do
  if state.accepts sequence bytes then
    ask (.writeAt file (sequence * state.identity.payloadBytes) bytes)
    return state.markReceived sequence
  else return state

end ResumeState

end PacketTide
