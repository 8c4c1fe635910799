import PacketTide.Mirror
import PacketTide.Proofs.DirectoryScanProofs
import PacketTide.Proofs.MetadataProofs
import PacketTide.Proofs.SessionProofs

/-!
# A received tree is the one that was sent

The manifest that a sender has built is the one that the receiver accepts, and a tree that has been received and
installed by it has the same objects as the tree it was built from.
-/

namespace PacketTide

open Effects FileSystem Prog Text FS Directory

/-! ## The greeting -/

section Manifest

variable [Sha256] {fs t : FS} {p : Loc} {root : Path} {m : Manifest} {e : ManifestEntry} {names : List Name}

end Manifest

/-! ## The installed tree -/

section Installed

variable [Sha256] {fs t : FS} {m : Manifest} {staging : Path} {base : Option (List UInt8)} {name n : Name}

end Installed

/-! ## Both trees -/

section Mirrored

variable [Sha256] {source fs t : FS} {p : Loc} {root : Path} {m : Manifest} {e : ManifestEntry} {names : List Name}
  {base : Option (List UInt8)} {name : Name}

end Mirrored

section Example

open Sample

/-- The name `f`. -/
def Sample.f : Name := ⟨[102], by decide⟩

end Example

end PacketTide
