import PacketTide.Resume
import PacketTide.Staging

/-!
# Receiving objects and trees

An object is assembled chunk by chunk beside its destination and moved there when its hash is
right. A tree is received as one object for each of its files and then installed as a whole.
-/

namespace PacketTide

open Effects FileSystem Prog

/-! ## One object -/

/-- Whether the destination already holds the object. -/
def alreadyComplete [Sha256] (destination : Path) (id : Identity) : FsProg Bool := do
  match ← tryStat destination with
  | .error _ => return false
  | .ok metadata =>
    if metadata.len = id.size then
      let file ← ask (.openFile destination {})
      let content ← ask (.readToEnd file)
      return Sha256.digest content = id.hash
    else return false

/-- What happens to the resume state of a running receiver. -/
inductive ReceiveEvent where
  /-- A datagram brings a chunk. -/
  | chunk (sequence : Nat) (bytes : List UInt8)
  | checkpoint
  /-- Content reuse copies a range from a candidate file. -/
  | copied (offset : Nat) (bytes : List UInt8)
  /-- Content reuse credits a chunk that the copied ranges cover. -/
  | credited (sequence : Nat)

def receiveEvent (pid : Nat) (file : Loc) (state : ResumeState) :
    ReceiveEvent → FsProg ResumeState
  | .chunk sequence bytes => state.storeChunk file sequence bytes
  | .checkpoint => do
    state.checkpoint pid file
    return state
  | .copied offset bytes => do
    ask (.writeAt file offset bytes)
    return state
  | .credited sequence =>
    if sequence < state.identity.chunks ∧ bitmapContains state.bitmap sequence = false then
      return state.markReceived sequence
    else return state

/-- All that happens between the opening of an object and its completion. -/
def receiveEvents (pid : Nat) (file : Loc) :
    ResumeState → List ReceiveEvent → FsProg ResumeState
  | state, [] => return state
  | state, event :: events => do
    let state ← receiveEvent pid file state event
    receiveEvents pid file state events

/-- The part of an object that its chunks below a number cover. -/
def Identity.covered (id : Identity) (chunks : Nat) (content : List UInt8) : List UInt8 :=
  content.take (min (chunks * id.payloadBytes) id.size)

/-- The end of the datagram loop: with all chunks there and the right hash the file is installed. -/
def completeObject [Sha256] (destination : Path) (file : Loc) (state : ResumeState) :
    FsProg Unit := do
  if state.receivedCount ≠ state.identity.chunks then failWith "sender cancelled transfer"
  else if ¬ ∀ i < state.identity.chunks, bitmapContains state.bitmap i then
    failWith "complete receipt map has a hash-frontier gap"
  else
    let content ← ask (.readToEnd file)
    ask (.sync file)
    if Sha256.digest (state.identity.covered state.identity.chunks content) = state.identity.hash
    then state.install destination
    else
      state.discard
      failWith "received UDP file hash did not match"

/-- How an object came to be at its destination. -/
inductive Receipt where
  | alreadyComplete
  | assembled
  deriving DecidableEq

/-- Receive an object in a session in which the given events happen. -/
def receiveObject [Sha256] (pid : Nat) (id : Identity) (events : List ReceiveEvent)
    (destination : Path) : FsProg Receipt := do
  if ← alreadyComplete destination id then return .alreadyComplete
  else
    let (file, state) ← ResumeState.openState pid destination id
    let state ← receiveEvents pid file state events
    completeObject destination file state
    return .assembled

/-! ## A tree -/

/-- Receive the files of the manifest in order, the entries from an index on. -/
def receiveFiles {ρ : Type} (receive : ManifestEntry → Path → FsProg ρ) (manifest : Manifest)
    (staging : Path) : Nat → List ManifestEntry → FsProg (List (ManifestEntry × ρ))
  | _, [] => return []
  | index, entry :: entries =>
    if entry.kind = .file then do
      let out ← fileDestination manifest staging index
      let result ← receive entry out
      let results ← receiveFiles receive manifest staging (index + 1) entries
      return (entry, result) :: results
    else receiveFiles receive manifest staging (index + 1) entries

/-- Receive a tree, with a given way to receive each of its files. -/
def receiveDir [Sha256] {ρ : Type} (receive : ManifestEntry → Path → FsProg ρ)
    (manifest : Manifest) (destination : Path) : FsProg Unit := do
  let staging ← prepareStaging manifest destination
  let _ ← receiveFiles receive manifest staging 0 manifest.entries
  installTree manifest staging destination

end PacketTide
