import PacketTide.DirectoryScan
import PacketTide.Hello

/-!
# From one directory tree to another

The sender of a tree announces its manifest in the greeting, sends it line by line, and then the files in its
order, each by the path that it has at that time. The receiver accepts a manifest only if it is the announced
one.
-/

namespace PacketTide

open Effects FileSystem Text

/-! ## The exchange of the manifest -/

namespace Directory

/-! ## Sending the files -/

/-- The path by which the file of an entry is sent. -/
def sourceFile (manifest : Manifest) (root : Path) (entryIndex : Nat) : FsProg Path :=
  match manifest.entries[entryIndex]? with
  | none => failWith "manifest file index is out of range"
  | some entry => do
    if entry.kind ≠ .file then failWith "manifest entry is not a file"
    else
      requireRealDirectory root
      requireRealDirectories root [] (pathFromBytes entry.path).dropLast
      let metadata ← ask (.lstat (entryPath root entry))
      if metadata.fileType ≠ .file then failWith "manifest source file changed type"
      else return entryPath root entry

/-- Send the files of the manifest in order, the entries from an index on; the result is the number of files and
of their bytes. -/
def sendFiles (send : Path → FsProg Unit) (manifest : Manifest) (root : Path) :
    Nat → List ManifestEntry → Nat × Nat → FsProg (Nat × Nat)
  | _, [], (files, bytes) => return (files, bytes)
  | index, entry :: entries, (files, bytes) =>
    if entry.kind = .file then do
      let path ← sourceFile manifest root index
      send path
      if 2 ^ 64 ≤ bytes + entry.size then failWith "directory byte count overflow"
      else sendFiles send manifest root (index + 1) entries (saturatingAdd files 1, bytes + entry.size)
    else sendFiles send manifest root (index + 1) entries (files, bytes)

/-! ## Reusing files -/

end Directory

/-! ## What a transfer of a tree is to achieve -/

end PacketTide
