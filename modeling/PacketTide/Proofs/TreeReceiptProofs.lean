import PacketTide.Proofs.ScopedReceiveProofs
import PacketTide.Proofs.AtomicProofs
import PacketTide.Proofs.StagingSafetyProofs

/-!
# A tree is received completely or not at all

At every point of a run, and whichever calls fail, a receiver of a tree has changed nothing but what is below its
staging directory, or the complete tree of the manifest has been moved from there to the destination.
-/

namespace PacketTide

open Effects FileSystem Prog Text FS

/-! ## Files and the control channel -/

section Lift

variable {α E : Type} {r : (c : FsCall) → E → FsReply c} {r' : (c : SiteCall) → E → SiteReply c} {site t : Site}
  {p : FsProg α}

end Lift

variable {α : Type} {fs t u : FS} {site : Site} {home : Loc} {root path : Path} {v : View}

variable {m : Manifest} {base : Option (List UInt8)} {name : Name} {staging : Path} {n : Name}

section Tree

variable [Sha256] {pid : Nat} {keyFile : Path} {reuseFrom : Option Path} {objects : List ObjectScript} {encoded : Str}
  {t : Site}

end Tree

section Example

open Sample

/-- The name `k`. -/
def Sample.k : Name := ⟨[107], by decide⟩

/-- A directory with a key file in it. -/
def Sample.keyed : Site where
  fs := { FS.empty with root := .dir ⟨0o755, ⟨0, 0⟩⟩ [(k, .file ⟨0o100600, ⟨0, 0⟩⟩ (List.replicate 32 0))] }
  control := {}

def Sample.sevenAuth : Auth.SessionAuth :=
  ⟨List.replicate 16 0, hashOfNothing, hashOfNothing, hashOfNothing, hashOfNothing⟩

def Sample.sevenGreeting : SendGreeting := ⟨.tcp, 1, hashOfSeven, Vector.replicate 16 0, 1, 256, 10, 10, none⟩

end Example

end PacketTide
