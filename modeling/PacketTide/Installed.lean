import PacketTide.FileSystem.View
import PacketTide.Receive

/-!
# What installing a tree is to achieve

A destination is the path of a name in the directory that `home` stands for, with that directory
spelled out or not.
-/

namespace PacketTide

open Effects FileSystem Prog Text

/-- A regular file with the size and the hash of an entry. -/
def HoldsFile [Sha256] (v : View) (p : Loc) (e : ManifestEntry) : Prop :=
  ∃ content, v p = some (.file content) ∧ content.length = e.size ∧
    some (Sha256.digest content) = e.hash

/-- The tree at a place is the one that the manifest describes. -/
structure ExactTree [Sha256] (v : View) (p : Loc) (m : Manifest) : Prop where
  dir : v p = some .dir
  directories : ∀ e ∈ m.entries, e.kind = .directory → v (p ++ pathFromBytes e.path) = some .dir
  files : ∀ e ∈ m.entries, e.kind = .file → HoldsFile v (p ++ pathFromBytes e.path) e
  only : ∀ names, names ≠ [] → v (p ++ names) ≠ none → ∃ e ∈ m.entries, pathFromBytes e.path = names

/-- The metadata that the manifest records for an entry. -/
def ManifestEntry.attr (e : ManifestEntry) : Attr :=
  ⟨e.mode, ⟨e.modifiedSeconds, e.modifiedNanoseconds.toNat⟩⟩

/-- The tree that was staged at a place has been moved, without its marker. -/
structure Renamed (v w : View) (staged installed : Loc) : Prop where
  moved : ∀ names, w (installed ++ names) = if names = [markerName] then none else v (staged ++ names)
  gone : w staged = none

/-- The tree is installed if `install` reports success, and nothing is if it reports an error. -/
structure InstalledOrAbsent (fs : FS) (staging destination : Path) (r : Except AnyError Unit)
    (t : FS) : Prop where
  installed : r = .ok () →
    Renamed fs.view t.view (fs.home ++ staging.names) (fs.home ++ destination.names)
  absent : ∀ e, r = .error e → t.view (fs.home ++ destination.names) = none

/-- Preparing for a destination ends well, if no call fails. -/
def Prepares [Sha256] (m : Manifest) (destination : Path) (fs : FS) : Prop :=
  ∃ staging t, (prepareStaging m destination).run machine fs = (.ok staging, t)

/-- What lies below a staging directory, apart from the marker, belongs to an entry: its directory, its
file, or an artifact of the transfer of its file. -/
def BelongsTo (e : ManifestEntry) (names : List Name) : Shape → Prop
  | .dir => e.kind = .directory ∧ Path.joined names = e.path
  | .file _ => e.kind = .file ∧ (Path.joined names = e.path
      ∨ Path.joined names = e.path ++ ascii ".part" ∨ Path.joined names = e.path ++ ascii ".part.map")
  | .link _ => False
  | .special => False

/-- A destination is absent and its staging directory is ready for the files of the manifest. -/
structure Prepared (home : Loc) (staging destination : Path) (m : Manifest) (v : View) : Prop where
  absent : v (home ++ destination.names) = none
  dir : v (home ++ staging.names) = some .dir
  marker : v (home ++ staging.names ++ [markerName]) = some (.file (encode m))
  directories : ∀ e ∈ m.entries, e.kind = .directory →
    v (home ++ staging.names ++ pathFromBytes e.path) = some .dir
  plain : ∀ names s, v (home ++ staging.names ++ names) = some s →
    s = .dir ∨ ∃ content, s = .file content
  expected : ∀ names s, names ≠ [] → names ≠ [markerName] →
    v (home ++ staging.names ++ names) = some s → ∃ e ∈ m.entries, BelongsTo e names s

/-- Two views agree on everything that is not at a place or below it. -/
def AgreeOutside (p : Loc) (v w : View) : Prop := ∀ q, ¬ p <+: q → w q = v q

/-- A call fails for another reason than that nothing is there. -/
def refuseOther (c : FsCall) (e : {e : Errno // e ≠ .notFound}) : FsReply c := refuse c e.1

/-- A text does not spell its own digest. -/
def DigestUnforeseen [Sha256] (text : List UInt8) : Prop :=
  ¬ hex (Sha256.digest text).bytes <:+: text

end PacketTide
