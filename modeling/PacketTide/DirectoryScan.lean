import PacketTide.FileSystem.Listing
import PacketTide.ManifestExchange
import PacketTide.Repairs
import PacketTide.Reuse
import PacketTide.Staging

/-!
# Scanning a directory tree

The sender walks through a tree in the order of names and records every directory and every file, each
file with the size and the hash of what it has read. Anything else makes the scan fail, and so does a file
that changes while it is read.
-/

namespace PacketTide

open Effects FileSystem Text

namespace Directory

/-- The mode and the modification time that come with the metadata of a file or directory. -/
def attrOf (metadata : Metadata) : Attr := metadata.attr.getD ⟨0, ⟨0, 0⟩⟩

def entry (path : List UInt8) (kind : EntryKind) (metadata : Metadata) (size : Nat) (hash : Option Hash) :
    ManifestEntry where
  path
  kind
  mode := (attrOf metadata).mode &&& 0o777
  modifiedSeconds := (attrOf metadata).modified.seconds
  modifiedNanoseconds := (attrOf metadata).modified.nanoseconds
  size
  hash

/-- Hash an open file from its start on. -/
def hashFile [Sha256] (file : Loc) : FsProg (Nat × Hash) := do
  let content ← ask (.readToEnd file)
  if content.length < 2 ^ 64 then return (content.length, Sha256.digest content)
  else failWith "file size overflow"

/-! ## Scanning -/

/-- The entry of a file, with its metadata read before and after its bytes. -/
def scanFile [Sha256] (path : Path) (pathBytes : List UInt8) : FsProg ManifestEntry := do
  let file ← ask (.openFile path { nofollow := true })
  let openedMetadata ← ask (.fstat file)
  if openedMetadata.fileType ≠ .file then failWith "manifest source changed while it was scanned"
  else
    let (size, hash) ← hashFile file
    let finalMetadata ← ask (.fstat file)
    if finalMetadata.len ≠ size ∨ (attrOf finalMetadata).modified ≠ (attrOf openedMetadata).modified then
      failWith "manifest source changed while it was hashed"
    else return entry pathBytes .file finalMetadata size (some hash)

/-- Record one child of a directory; `visit` scans what is below a directory. -/
def scanChild [Sha256] (root : Path)
    (visit : List Name → List ManifestEntry → FsProg (List ManifestEntry)) (relative : List Name)
    (entries : List ManifestEntry) : FsProg (List ManifestEntry) := do
  if entries.length ≥ maxManifestEntries then failWith "manifest entry limit exceeded"
  else
    let metadata ← ask (.lstat (root.join relative))
    let pathBytes := Path.joined relative
    checked (validateRelativePath pathBytes)
    match metadata.fileType with
    | .symlink => failWith ("symlinks are not supported: " ++ asciiText pathBytes)
    | .dir => visit relative (entries ++ [entry pathBytes .directory metadata 0 none])
    | .file => do
      let scanned ← scanFile (root.join relative) pathBytes
      return entries ++ [scanned]
    | .special => failWith ("unsupported filesystem entry: " ++ asciiText pathBytes)

def scanChildren [Sha256] (root : Path)
    (visit : List Name → List ManifestEntry → FsProg (List ManifestEntry)) (relative : List Name) :
    List Name → List ManifestEntry → FsProg (List ManifestEntry)
  | [], entries => return entries
  | child :: children, entries => do
    let entries ← scanChild root visit (relative ++ [child]) entries
    scanChildren root visit relative children entries

/-- Scan what is below a directory. The nesting is bounded by `depth`, which is never reached because
paths are bounded. -/
def scan [Sha256] (root : Path) : Nat → List Name → List ManifestEntry → FsProg (List ManifestEntry)
  | 0, _, _ => failWith "manifest tree is too deep"
  | depth + 1, relative, entries => do
    let children ← ask (.readDir (root.join relative))
    scanChildren root (scan root depth) relative (sortNames children) entries

/-- The manifest of the tree below a root. -/
def build [Sha256] (root : Path) : FsProg Manifest := do
  let metadata ← ask (.lstat root)
  if metadata.fileType ≠ .dir then failWith "directory manifest root must be a real directory"
  else
    let entries ← scan root (maxRelativePathBytes + 1) [] []
    checked (buildManifest entries ((attrOf metadata).mode &&& 0o777) (attrOf metadata).modified.seconds
      (attrOf metadata).modified.nanoseconds)

/-- The text that the manifest of a tree is printed as, after it has been parsed once. -/
def print [Sha256] (root : Path) : FsProg Str := do
  let manifest ← build root
  let _ ← checked (parse (encode manifest))
  return encode manifest

/-! ## What a scan is to record -/

/-- The entry for what lies below a place; there is one for directories and files only. -/
def entryAt [Sha256] (fs : FS) (p : Loc) (names : List Name) : Option ManifestEntry :=
  match fs.root.get (p ++ names) with
  | some (.dir attr children) =>
    some (entry (Path.joined names) .directory (FS.metadataOf (.dir attr children)) 0 none)
  | some (.file attr content) =>
    some (entry (Path.joined names) .file (FS.metadataOf (.file attr content)) content.length
      (some (Sha256.digest content)))
  | _ => none

/-- What lies there can be recorded. -/
def Recordable [Sha256] (fs : FS) (p : Loc) (names : List Name) : Prop :=
  validateRelativePath (Path.joined names) = .ok () ∧ ∃ e, entryAt fs p names = some e ∧ e.size < 2 ^ 64

/-- The manifest has an entry for everything below a place and no other entries, and it records the
metadata of the place itself. -/
structure Describes [Sha256] (fs : FS) (p : Loc) (m : Manifest) : Prop where
  entries : ∀ e, e ∈ m.entries ↔ ∃ names, names ≠ [] ∧ entryAt fs p names = some e
  plain : ∀ names, names ≠ [] → fs.view (p ++ names) ≠ none → ∃ e, entryAt fs p names = some e
  root : ∃ attr, fs.attrAt p = some attr ∧ m.rootMode = attr.mode &&& 0o777 ∧
    m.rootModifiedSeconds = attr.modified.seconds ∧ m.rootModifiedNanoseconds = attr.modified.nanoseconds

/-- The manifest is sorted and not too large, and its hash is that of its text. -/
structure Within [Sha256] (m : Manifest) : Prop where
  sorted : m.entries.Pairwise fun a b => a.path < b.path
  count : m.entries.length ≤ maxManifestEntries
  paths : ∀ e ∈ m.entries, e.path.length ≤ maxRelativePathBytes ∧ 0 ∉ e.path
  nanoseconds : ∀ e ∈ m.entries, e.modifiedNanoseconds < 1000000000
  sizes : ∀ e ∈ m.entries, e.size < 2 ^ 64
  length : (encode m).length ≤ maxManifestBytes
  hash : m.hash = Sha256.digest
    (canonicalBody m.entries m.rootMode m.rootModifiedSeconds m.rootModifiedNanoseconds)

/-- The manifest is the one of the tree below a root. -/
structure Records [Sha256] (fs : FS) (root : Path) (m : Manifest) : Prop where
  described : ∃ p, fs.Names root p ∧ Describes fs p m
  within : Within m

end Directory

end PacketTide
