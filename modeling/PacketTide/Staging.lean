import PacketTide.Manifest

/-!
# Staging and installing a directory tree

The receiver assembles a tree in a staging directory beside the destination. The directory carries
the manifest as a marker, is checked against it, and is renamed into place when it is complete.
-/

namespace PacketTide

open Effects FileSystem Text

/-! ## Checks on paths -/

def requireAbsent (path : Path) (message : String) : FsProg Unit := do
  match ← tryLstat path with
  | .ok _ => failWith message
  | .error .notFound => return ()
  | .error e => .done (.error (.io e))

def requireRealDirectory (path : Path) : FsProg Unit := do
  let metadata ← ask (.lstat path)
  if metadata.fileType = .dir then return ()
  else failWith "path component is not a real directory"

def openDirectory (path : Path) : FsProg Loc :=
  ask (.openFile path { nofollow := true, directory := true })

/-- Read a file of at most the size of a manifest. -/
def readNofollow (path : Path) : FsProg (List UInt8) := do
  let file ← ask (.openFile path { nofollow := true })
  let result ← ask (.readToEnd file)
  if result.length > maxManifestBytes then failWith "manifest byte limit exceeded"
  else return result

/-! ## Names -/

/-- The file in the staging directory that holds the manifest. -/
def markerName : Name := ⟨ascii ".packet-tide-manifest", by decide⟩

/-- The name of the staging directory: it depends on the manifest and on the destination. -/
def stagingName [Sha256] (manifest : Manifest) (destination : Path) : Name :=
  (⟨ascii ".packet-tide-", by decide⟩ : Name).append
    (hex manifest.hash.bytes ++ ascii "-" ++ hex (Sha256.digest destination.bytes).bytes
      ++ ascii ".part")

/-- The directory that holds the destination. -/
def parentOf (destination : Path) : Path :=
  match destination.parent with
  | some parent => if parent = Path.empty then Path.dot else parent
  | none => Path.dot

def stagingPath [Sha256] (manifest : Manifest) (destination : Path) : Path :=
  (parentOf destination).join [stagingName manifest destination]

def markerPath (staging : Path) : Path := staging.join [markerName]

/-- The place of an entry below a directory. -/
def entryPath (root : Path) (entry : ManifestEntry) : Path := root.join (pathFromBytes entry.path)

namespace Manifest

def directories (manifest : Manifest) : List (List UInt8) :=
  (manifest.entries.filter fun entry => entry.kind = .directory).map ManifestEntry.path

def files (manifest : Manifest) : List (List UInt8) :=
  (manifest.entries.filter fun entry => entry.kind = .file).map ManifestEntry.path

/-- The artifacts that a file transfer may have left. -/
def partialFiles (manifest : Manifest) : List (List UInt8) :=
  manifest.files.flatMap fun file => [file ++ ascii ".part", file ++ ascii ".part.map"]

end Manifest

/-! ## The check of the staging tree -/

/-- The relative paths under which the staging tree may hold directories and files. -/
structure Allowed where
  directories : List (List UInt8)
  files : List (List UInt8)
  partialFiles : List (List UInt8)

/-- Check one child of a directory of the staging tree; `visit` checks what is below a directory. -/
def validateChild (root : Path) (allowed : Allowed) (visit : List Name → FsProg Unit)
    (relative : List Name) : FsProg Unit := do
  let metadata ← ask (.lstat (root.join relative))
  match metadata.fileType with
  | .symlink => failWith "staging tree contains a symlink"
  | .dir =>
    if Path.joined relative ∈ allowed.directories then visit relative
    else failWith "staging tree contains an unexpected directory"
  | .file =>
    if Path.joined relative ∈ allowed.files ∨ Path.joined relative = ascii ".packet-tide-manifest"
        ∨ Path.joined relative ∈ allowed.partialFiles then return ()
    else failWith "staging tree contains an unexpected file"
  | .special => failWith "staging tree contains an unsupported object"

def validateChildren (root : Path) (allowed : Allowed) (visit : List Name → FsProg Unit)
    (relative : List Name) : List Name → FsProg Unit
  | [] => return ()
  | child :: children => do
    validateChild root allowed visit (relative ++ [child])
    validateChildren root allowed visit relative children

/-- Check what is below a directory of the staging tree. The nesting is bounded by `depth`, which
a manifest never reaches because its paths are bounded. -/
def validateStagingDirectory (root : Path) (allowed : Allowed) : Nat → List Name → FsProg Unit
  | 0, _ => failWith "staging tree is too deep"
  | depth + 1, relative => do
    let children ← ask (.readDir (root.join relative))
    validateChildren root allowed (validateStagingDirectory root allowed depth) relative children

/-- Run a check for each directory entry. -/
def eachDirectory (check : ManifestEntry → FsProg Unit) : List ManifestEntry → FsProg Unit
  | [] => return ()
  | entry :: entries =>
    if entry.kind = .directory then do
      check entry
      eachDirectory check entries
    else eachDirectory check entries

def validateStagingTree (manifest : Manifest) (staging : Path) (allowPartialFiles : Bool) :
    FsProg Unit := do
  requireRealDirectory staging
  eachDirectory (fun entry => requireRealDirectory (entryPath staging entry)) manifest.entries
  validateStagingDirectory staging
    ⟨manifest.directories, manifest.files, if allowPartialFiles then manifest.partialFiles else []⟩
    (maxRelativePathBytes + 1) []

/-! ## Preparing the staging directory -/

/-- Make the staging directory with the manifest in it. -/
def createStaging (staging : Path) (encoded : Str) : FsProg Unit := do
  ask (.createDir staging)
  let marker ← ask (.openFile (markerPath staging)
    { write := true, createNew := true, nofollow := true, mode := 0o600 })
  ask (.write marker encoded)
  ask (.sync marker)

/-- Check that an existing staging directory is one of the manifest. -/
def checkStaging (staging : Path) (metadata : Metadata) (encoded : Str) : FsProg Unit := do
  if metadata.fileType = .dir then
    let marker ← readNofollow (markerPath staging)
    if marker = encoded then return ()
    else failWith "directory staging manifest does not match"
  else failWith "directory staging path is not a real directory"

/-- Make the directory of an entry unless it is there. -/
def ensureDirectory (path : Path) : FsProg Unit := do
  match ← tryLstat path with
  | .ok metadata =>
    if metadata.fileType = .dir then return ()
    else failWith "staging manifest directory is unsafe"
  | .error .notFound => ask (.createDir path)
  | .error e => .done (.error (.io e))

/-- Make the staging directory, or check it if it is there. -/
def enterStaging (staging : Path) (encoded : Str) : FsProg Unit := do
  match ← tryLstat staging with
  | .ok metadata => checkStaging staging metadata encoded
  | .error .notFound => createStaging staging encoded
  | .error e => .done (.error (.io e))

/-- Make the directories of the manifest and check the whole staging tree. -/
def fillStaging (manifest : Manifest) (staging : Path) : FsProg Unit := do
  eachDirectory (fun entry => ensureDirectory (entryPath staging entry)) manifest.entries
  validateStagingTree manifest staging true

def prepareStaging [Sha256] (manifest : Manifest) (destination : Path) : FsProg Path := do
  requireAbsent destination "directory destination already exists"
  requireRealDirectory (parentOf destination)
  let staging := stagingPath manifest destination
  enterStaging staging (encode manifest)
  fillStaging manifest staging
  return staging

/-! ## Installing -/

/-- Require real directories along names below a directory. -/
def requireRealDirectories (root : Path) (relative : List Name) : List Name → FsProg Unit
  | [] => return ()
  | name :: names => do
    requireRealDirectory (root.join (relative ++ [name]))
    requireRealDirectories root (relative ++ [name]) names

/-- Where the file of an entry is assembled. -/
def fileDestination (manifest : Manifest) (staging : Path) (entryIndex : Nat) : FsProg Path :=
  match manifest.entries[entryIndex]? with
  | none => failWith "manifest file index is out of range"
  | some entry => do
    if entry.kind ≠ .file then failWith "manifest entry is not a file"
    else
      requireRealDirectory staging
      requireRealDirectories staging [] (pathFromBytes entry.path).dropLast
      match ← tryLstat (entryPath staging entry) with
      | .ok metadata =>
        if metadata.fileType = .symlink then failWith "staging file destination is a symlink"
        else return entryPath staging entry
      | .error _ => return entryPath staging entry

/-- A point in time before the epoch, by its distance from it. -/
def beforeEpoch (seconds : Nat) (nanoseconds : Nat) : Option Stamp :=
  let stamp : Stamp :=
    if nanoseconds = 0 then ⟨-(seconds : Int), 0⟩
    else ⟨-(seconds : Int) - 1, 1000000000 - nanoseconds⟩
  if -(2 ^ 63) ≤ stamp.seconds then some stamp else none

def systemTime (seconds nanoseconds : Int) : Except AnyError Stamp :=
  if ¬(0 ≤ nanoseconds ∧ nanoseconds < 1000000000) then
    .error (.message "modification nanoseconds are out of range")
  else if 0 ≤ seconds then .ok ⟨seconds, nanoseconds.toNat⟩
  else
    match if nanoseconds = 0 then beforeEpoch seconds.natAbs 0
      else beforeEpoch (seconds.natAbs - 1) (1000000000 - nanoseconds.toNat) with
    | some stamp => .ok stamp
    | none => .error (.message "modification time is out of range")

/-- Set the metadata of an open file or directory and sync it. -/
def finishMetadata (file : Loc) (mode : Nat) (seconds nanoseconds : Int) : FsProg Unit := do
  ask (.setPermissions file mode)
  let modified ← Prog.lift (systemTime seconds nanoseconds)
  ask (.setTimes file modified)
  ask (.sync file)

/-- Check the size and the hash of a staged file and finish it. -/
def finishFile [Sha256] (manifest : Manifest) (staging : Path) (index : Nat)
    (entry : ManifestEntry) : FsProg Unit := do
  let path ← fileDestination manifest staging index
  let file ← ask (.openFile path { write := true, nofollow := true })
  let metadata ← ask (.fstat file)
  if metadata.fileType ≠ .file ∨ metadata.len ≠ entry.size then
    failWith "staged file size or type does not match manifest"
  else
    let content ← ask (.readToEnd file)
    if some (Sha256.digest content) ≠ entry.hash then
      failWith "staged file hash does not match manifest"
    else finishMetadata file entry.mode entry.modifiedSeconds entry.modifiedNanoseconds

/-- Finish the files, from an index on. -/
def finishFiles [Sha256] (manifest : Manifest) (staging : Path) :
    Nat → List ManifestEntry → FsProg Unit
  | _, [] => return ()
  | index, entry :: entries =>
    if entry.kind = .file then do
      finishFile manifest staging index entry
      finishFiles manifest staging (index + 1) entries
    else finishFiles manifest staging (index + 1) entries

def finishDirectory (staging : Path) (entry : ManifestEntry) : FsProg Unit := do
  let directory ← openDirectory (entryPath staging entry)
  finishMetadata directory entry.mode entry.modifiedSeconds entry.modifiedNanoseconds

/-- Check the staging tree, and finish its files and the directories below it. -/
def finishEntries [Sha256] (manifest : Manifest) (staging destination : Path) : FsProg Unit := do
  validateStagingTree manifest staging false
  requireAbsent destination "directory destination already exists"
  finishFiles manifest staging 0 manifest.entries
  eachDirectory (finishDirectory staging) manifest.entries.reverse

def finishRoot (manifest : Manifest) (staging : Path) : FsProg Unit := do
  let root ← openDirectory staging
  finishMetadata root manifest.rootMode manifest.rootModifiedSeconds manifest.rootModifiedNanoseconds

/-- Everything that `install` does before the rename. -/
def finishTree [Sha256] (manifest : Manifest) (staging destination : Path) : FsProg Unit := do
  finishEntries manifest staging destination
  ask (.removeFile (markerPath staging))
  finishRoot manifest staging

/-- Everything that `install` does up to the rename. -/
def moveTree [Sha256] (manifest : Manifest) (staging destination : Path) : FsProg Unit := do
  finishTree manifest staging destination
  ask (.rename staging destination)

/-- Sync the directory that holds the destination. -/
def syncParent (destination : Path) : FsProg Unit :=
  match destination.parent with
  | some parent => do
    let directory ← openDirectory parent
    ask (.sync directory)
  | none => return ()

def installTree [Sha256] (manifest : Manifest) (staging destination : Path) : FsProg Unit := do
  moveTree manifest staging destination
  syncParent destination

end PacketTide
