import PacketTide.ReceiveTcp

/-!
# Checks on hashes as bytes

What the checks of a receiver are meant to be: the hash of what has been received is compared with the
bytes that the greeting announces. The receiver compares texts instead.
-/

namespace PacketTide

open Effects FileSystem Prog Text

namespace ByBytes

variable [Sha256] (bytes : List UInt8)

/-- Whether the destination holds an object with a hash already. -/
def holdsObject (destination : Path) (size : Nat) : FsProg Bool := do
  match ← tryStat destination with
  | .error _ => return false
  | .ok metadata =>
    if metadata.len = size then
      let file ← ask (.openFile destination {})
      let content ← ask (.readToEnd file)
      return (Sha256.digest content).bytes = bytes
    else return false

def completeTcp (temporary destination : Path) (file : Loc) (hashed : List UInt8)
    (answer : Except AnyError Str) : SiteProg Unit := do
  onFiles (ask (.sync file))
  if (Sha256.digest hashed).bytes = bytes then
    onFiles (installFile temporary destination)
    sendCompletionAndWait answer
  else
    sendControl (ascii "ERROR hash-mismatch")
    stopWith "received TCP file hash did not match"

def completeTcp4 (temporary destination : Path) (file : Loc) (answer : Except AnyError Str) :
    SiteProg Unit := do
  onFiles (ask (.sync file))
  let actualHash ← onFiles (hashFile temporary)
  if actualHash.bytes = bytes then
    onFiles (installFile temporary destination)
    sendCompletionAndWait answer
  else
    sendControl (ascii "ERROR hash-mismatch")
    stopWith "received TCP4 file hash did not match"

def completeReceiving (r : UdpReceiver) (file : Loc) (s : Receiving) (socketDrops : Option Nat) :
    SiteProg Receiving := do
  let s ← onFiles (advanceHashFrontier file r.hello.chunkLayout s)
  if s.hashFrontier ≠ r.hello.chunks then
    stopWith "complete receipt map has a hash-frontier gap"
  else
    onFiles (ask (.sync file))
    if (Sha256.digest s.hashed).bytes = bytes then
      onFiles (s.resume.install r.destination)
      let s := s.update socketDrops
      sendControl (formatFeedbackReport s.telemetry [])
      sendControl (ascii "COMPLETE")
      return s
    else
      sendControl (ascii "CANCEL hash-mismatch")
      onFiles s.resume.discard
      stopWith "received UDP file hash did not match"

end ByBytes

/-- The hash of a greeting is attainable: its text is that of the bytes it stands for, so that every check
for completion passes exactly if what was received has these bytes as its hash, like the identity that the
receipts are bound to. -/
structure Attainable [Sha256] (hello : Hello) (bytes : List UInt8) : Prop where
  text : hello.hash = hex bytes
  identity : ∃ id, hello.identity = some id ∧ id.hash.bytes = bytes
  alreadyThere : ∀ destination,
    holdsObject destination hello = ByBytes.holdsObject bytes destination hello.size
  tcp : ∀ temporary destination file hashed answer,
    completeTcp temporary destination hello file hashed answer =
      ByBytes.completeTcp bytes temporary destination file hashed answer
  tcp4 : ∀ temporary destination file answer,
    completeTcp4 temporary destination hello file answer =
      ByBytes.completeTcp4 bytes temporary destination file answer
  udp : ∀ (r : UdpReceiver) file s socketDrops, r.hello = hello →
    completeReceiving r file s socketDrops = ByBytes.completeReceiving bytes r file s socketDrops

end PacketTide
