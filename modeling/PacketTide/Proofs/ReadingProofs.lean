import PacketTide.Proofs.AskProofs
import PacketTide.Staging

/-!
# Parts that keep the view

Checks only read, and finishing an entry only sets metadata. None of this shows in the view,
however the calls are answered.
-/

namespace PacketTide

open Effects FileSystem Prog FsCall

variable {root path destination : Path} {m : Manifest} {message : String}

theorem keeps_requireRealDirectory : (requireRealDirectory path).Only KeepsView :=
  (only_ask trivial).bind fun _ => only_ite (only_done _) only_failWith

theorem keeps_requireAbsent : (requireAbsent path message).Only KeepsView := by
  refine (only_request trivial).bind fun r => ?_
  split
  · exact only_failWith
  · exact only_done _
  · exact only_done _

theorem keeps_openDirectory : (openDirectory path).Only KeepsView :=
  only_ask ⟨rfl, rfl, rfl⟩

theorem keeps_readNofollow : (readNofollow path).Only KeepsView :=
  (only_ask ⟨rfl, rfl, rfl⟩).bind fun _ => (only_ask trivial).bind fun _ =>
    only_ite only_failWith (only_done _)

theorem keeps_eachDirectory {check : ManifestEntry → FsProg Unit} {entries : List ManifestEntry}
    (h : ∀ e, (check e).Only KeepsView) : (eachDirectory check entries).Only KeepsView := by
  induction entries with
  | nil => exact only_done _
  | cons e entries ih =>
    unfold eachDirectory
    exact only_ite ((h e).bind fun _ => ih) ih

/-! ## The check of the staging tree -/

theorem keeps_validateChildren {allowed : Allowed} {visit : List Name → FsProg Unit}
    {relative children : List Name} (h : ∀ names, (visit names).Only KeepsView) :
    (validateChildren root allowed visit relative children).Only KeepsView := by
  induction children with
  | nil => exact only_done _
  | cons child children ih =>
    refine Only.bind ?_ fun _ => ih
    refine (only_ask trivial).bind fun metadata => ?_
    split
    · exact only_failWith
    · exact only_ite (h _) only_failWith
    · exact only_ite (only_done _) only_failWith
    · exact only_failWith

theorem keeps_validateStagingDirectory {allowed : Allowed} {depth : Nat} {relative : List Name} :
    (validateStagingDirectory root allowed depth relative).Only KeepsView := by
  induction depth generalizing relative with
  | zero => exact only_failWith
  | succ depth ih => exact (only_ask trivial).bind fun children => keeps_validateChildren fun _ => ih

theorem keeps_validateStagingTree {b : Bool} : (validateStagingTree m root b).Only KeepsView :=
  keeps_requireRealDirectory.bind fun _ =>
    (keeps_eachDirectory fun _ => keeps_requireRealDirectory).bind fun _ =>
      keeps_validateStagingDirectory

/-! ## Finishing -/

theorem keeps_finishMetadata {file : Loc} {mode : Nat} {seconds nanoseconds : Int} :
    (finishMetadata file mode seconds nanoseconds).Only KeepsView :=
  (only_ask trivial).bind fun _ => (only_done _).bind fun _ => (only_ask trivial).bind fun _ =>
    only_ask trivial

theorem keeps_requireRealDirectories {relative names : List Name} :
    (requireRealDirectories root relative names).Only KeepsView := by
  induction names generalizing relative with
  | nil => exact only_done _
  | cons n names ih => exact keeps_requireRealDirectory.bind fun _ => ih

theorem keeps_fileDestination {index : Nat} : (fileDestination m root index).Only KeepsView := by
  unfold fileDestination
  split
  · exact only_failWith
  · refine only_ite only_failWith (keeps_requireRealDirectory.bind fun _ =>
      keeps_requireRealDirectories.bind fun _ => (only_request trivial).bind fun r => ?_)
    split
    · exact only_ite only_failWith (only_done _)
    · exact only_done _

theorem keeps_finishFile [Sha256] {index : Nat} {e : ManifestEntry} :
    (finishFile m root index e).Only KeepsView :=
  keeps_fileDestination.bind fun _ => (only_ask ⟨rfl, rfl, rfl⟩).bind fun _ =>
    (only_ask trivial).bind fun _ => only_ite only_failWith <|
      (only_ask trivial).bind fun _ => only_ite only_failWith keeps_finishMetadata

theorem keeps_finishFiles [Sha256] {index : Nat} {entries : List ManifestEntry} :
    (finishFiles m root index entries).Only KeepsView := by
  induction entries generalizing index with
  | nil => exact only_done _
  | cons e entries ih =>
    unfold finishFiles
    exact only_ite (keeps_finishFile.bind fun _ => ih) ih

theorem keeps_finishDirectory {e : ManifestEntry} : (finishDirectory root e).Only KeepsView :=
  keeps_openDirectory.bind fun _ => keeps_finishMetadata

theorem keeps_finishEntries [Sha256] : (finishEntries m root destination).Only KeepsView :=
  keeps_validateStagingTree.bind fun _ => keeps_requireAbsent.bind fun _ =>
    keeps_finishFiles.bind fun _ => keeps_eachDirectory fun _ => keeps_finishDirectory

theorem keeps_finishRoot : (finishRoot m root).Only KeepsView :=
  keeps_openDirectory.bind fun _ => keeps_finishMetadata

theorem keeps_syncParent : (syncParent destination).Only KeepsView := by
  unfold syncParent
  split
  · exact keeps_openDirectory.bind fun _ => only_ask trivial
  · exact only_done _

end PacketTide
