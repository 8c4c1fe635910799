import PacketTide.Control
import PacketTide.Manifest

/-!
# Manifests over the control channel

A sender builds a manifest from the entries it has scanned and sends its text line by line; a
receiver puts the lines together again and parses them.
-/

namespace PacketTide

open Text

/-- The numbers of an entry fit into their types. -/
structure ManifestEntry.Typed (entry : ManifestEntry) : Prop where
  size_lt : entry.size < 2 ^ 64
  seconds_ge : -2 ^ 63 ≤ entry.modifiedSeconds
  seconds_lt : entry.modifiedSeconds < 2 ^ 63

/-- A manifest that can be sent: its entries are valid, its numbers fit into their types, its hash is
that of its text, and the text is not too long. -/
structure Encodable [Sha256] (m : Manifest) : Prop where
  valid : validateEntries m.entries = .ok ()
  typed : ∀ e ∈ m.entries, e.Typed
  rootMode : m.rootMode ≤ 0o777
  rootSeconds_ge : -2 ^ 63 ≤ m.rootModifiedSeconds
  rootSeconds_lt : m.rootModifiedSeconds < 2 ^ 63
  rootNanoseconds_ge : 0 ≤ m.rootModifiedNanoseconds
  rootNanoseconds_lt : m.rootModifiedNanoseconds < 1000000000
  hash_eq : m.hash = Sha256.digest
    (canonicalBody m.entries m.rootMode m.rootModifiedSeconds m.rootModifiedNanoseconds)
  length_le : (encode m).length ≤ maxManifestBytes

/-- The end of `build`: from the scanned entries and the metadata of the root to the manifest. -/
def buildManifest [Sha256] (scanned : List ManifestEntry) (rootMode : Nat)
    (rootModifiedSeconds rootModifiedNanoseconds : Int) : Check Manifest := do
  let entries := scanned.mergeSort fun left right => decide (left.path ≤ right.path)
  validateEntries entries
  let body := canonicalBody entries rootMode rootModifiedSeconds rootModifiedNanoseconds
  refuseIf (body.length + (5 + 64 + 1) > maxManifestBytes) "manifest byte limit exceeded"
  return {
    entries, rootMode, rootModifiedSeconds, rootModifiedNanoseconds, hash := Sha256.digest body }

/-- The payloads that a sender of a manifest writes. -/
def manifestPayloads (manifest : Manifest) : List Str :=
  lines (encode manifest) ++ [ascii "MANIFEST_END"]

/-- Receive a manifest of which the number of entries and the hash have been announced. -/
def receiveManifest [Sha256] (expectedHash : Hash) (expectedEntries : Nat) (payloads : List Str) :
    Check Manifest := do
  refuseIf (expectedEntries > maxManifestEntries) "directory manifest entry limit exceeded"
  let (encoded, payloads) ←
    collectLines maxManifestBytes "directory manifest byte limit exceeded" (expectedEntries + 2) []
      payloads
  let _ ← expectLine (ascii "MANIFEST_END") "directory manifest did not terminate correctly" payloads
  let manifest ← parse encoded
  refuseIf (manifest.hash ≠ expectedHash ∨ manifest.entries.length ≠ expectedEntries)
    "directory manifest differs from authenticated greeting"
  return manifest

end PacketTide
