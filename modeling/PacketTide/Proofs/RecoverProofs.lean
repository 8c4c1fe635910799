import PacketTide.Proofs.AtomicProofs
import PacketTide.Proofs.PrepareProofs

/-!
# Starting again after a kill

A kill of `prepare_staging` or `install` leaves a state from which the same command goes on, unless
the staging directory is left without its complete marker.
-/

namespace PacketTide

open Effects FileSystem Prog Text FS

variable {home : Loc} {v w : View} {fs t : FS} {root : Path} {m : Manifest}
  {base : Option (List UInt8)} {name : Name}

theorem Prepares.of_fst [Sha256] {destination staging : Path}
    (h : ((prepareStaging m destination).run machine fs).1 = .ok staging) :
    Prepares m destination fs :=
  ⟨staging, _, Prod.ext h rfl⟩

/-- What is left by a kill: a tree that can be entered, a directory without its complete marker, or
the installed tree. -/
inductive Left (home : Loc) (root : Path) (m : Manifest) (name : Name) (v w : View) : Prop where
  | untouched (h : w = v)
  | entered {u : View} (hu : Entered home root m v u)
      (hg : Grown (home ++ root.names) m.entries u w)
  | halfMade (h : HalfMade (home ++ root.names) m w)
  | installed (h : Renamed v w (home ++ root.names) (home ++ [name]))

section Example

open Sample

end Example

end PacketTide
