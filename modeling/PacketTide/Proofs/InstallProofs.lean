import PacketTide.FileSystem.Proofs.ReplyProofs
import PacketTide.Installed
import PacketTide.Proofs.ReadingProofs
import PacketTide.Proofs.StagingCheckProofs

/-!
# Installing a tree

What each part of `install` does, whichever calls fail: the files are checked, the metadata does
not show, the marker goes, and the rename moves the whole tree.
-/

namespace PacketTide

open Effects FileSystem Prog Text FS

variable {home : Loc} {v : View} {fs t : FS} {root path : Path} {m : Manifest}
  {e : ManifestEntry}

/-! ## Files -/

theorem succeeds_requireRealDirectories {relative names : List Name}
    (h : Succeeds machine refuse (requireRealDirectories root relative names) fs () t) : t = fs := by
  induction names generalizing relative fs with
  | nil => exact (succeeds_done h).2
  | cons n names ih =>
    obtain ⟨_, u, hcheck, hrest⟩ := succeeds_bind h
    obtain ⟨rfl, -⟩ := succeeds_requireRealDirectory hcheck
    exact ih hrest

theorem succeeds_fileDestination {index : Nat} (hi : m.entries[index]? = some e)
    (h : Succeeds machine refuse (fileDestination m root index) fs path t) :
    t = fs ∧ path = entryPath root e := by
  unfold fileDestination at h
  rw [hi] at h
  dsimp only at h
  split_ifs at h with hk
  · exact absurd h not_succeeds_failWith
  · obtain ⟨_, t₁, hroot, htail⟩ := succeeds_bind h
    obtain ⟨rfl, -⟩ := succeeds_requireRealDirectory hroot
    obtain ⟨_, t₂, hparents, htail₂⟩ := succeeds_bind htail
    obtain rfl := succeeds_requireRealDirectories hparents
    obtain ⟨r, t₃, hstat, hlast⟩ := succeeds_bind htail₂
    have ht : t₃ = t₂ := by
      rcases succeeds_request hstat with hstat | ⟨hstat, -⟩
      · exact (congrArg Prod.snd hstat).symm
      · exact hstat
    subst ht
    cases r with
    | ok metadata =>
      dsimp only at hlast
      split_ifs at hlast with hlink
      · exact absurd hlast not_succeeds_failWith
      · obtain ⟨hp, rfl⟩ := succeeds_done hlast
        cases hp
        exact ⟨rfl, rfl⟩
    | error err =>
      obtain ⟨hp, rfl⟩ := succeeds_done hlast
      cases hp
      exact ⟨rfl, rfl⟩

/-- A file that has been finished has the size and the hash of its entry. -/
theorem succeeds_finishFile [Sha256] {index : Nat} (hr : RealRoot home v root) (hl : fs.Looks home v)
    (hd : DirsTo (home ++ root.names) v (pathFromBytes e.path)) (hi : m.entries[index]? = some e)
    (h : Succeeds machine refuse (finishFile m root index e) fs () t) :
    t.Looks home v ∧ HoldsFile v (home ++ root.names ++ pathFromBytes e.path) e ∧
      Succeeds machine refuse (finishMetadata (home ++ root.names ++ pathFromBytes e.path) e.mode
        e.modifiedSeconds e.modifiedNanoseconds) fs () t := by
  obtain ⟨path, u, hpath, htail⟩ := succeeds_bind h
  obtain ⟨rfl, rfl⟩ := succeeds_fileDestination hi hpath
  have hres : u.resolve false (entryPath root e) = _ :=
    resolve_dirs hl (hr.join_ne _) (hr.join_dirs hd)
  rw [place_entryPath] at hres
  obtain ⟨file, hopen, htail₁⟩ := succeeds_read (exec_openFile_snd rfl rfl rfl) htail
  obtain rfl := exec_openFile_eq_ok hres hopen
  obtain ⟨metadata, hstat, htail₂⟩ := succeeds_read rfl htail₁
  obtain ⟨s, hs, htype, hlen⟩ := metadataAt_eq_ok (congrArg Prod.fst hstat)
  split_ifs at htail₂ with hbad
  · exact absurd htail₂ not_succeeds_failWith
  · rw [not_or, not_not, not_not] at hbad
    obtain ⟨hfile, hsize⟩ := hbad
    obtain ⟨b, rfl⟩ : ∃ b, s = .file b := by
      cases s with
      | file b => exact ⟨b, rfl⟩
      | _ =>
        rw [hfile] at htype
        cases htype
    obtain ⟨content, hread, hlast⟩ := succeeds_read (by rw [exec_readToEnd hs]) htail₂
    rw [exec_readToEnd hs] at hread
    cases hread
    split_ifs at hlast with hhash
    · exact absurd hlast not_succeeds_failWith
    · refine ⟨looks_of_succeeds keeps_finishMetadata hl hlast,
        ⟨b, hl.view_eq ▸ hs, ?_, not_not.1 hhash⟩, hlast⟩
      rw [← hlen b rfl, hsize]

/-- The directories above every entry of a staged tree are real. -/
theorem StagedTree.dirsTo {p : Loc} {b : Bool} (h : StagedTree v p m b) (hw : WellFormed m.entries)
    (he : e ∈ m.entries) : DirsTo p v (pathFromBytes e.path) := by
  obtain ⟨pre, post, hsplit⟩ := List.append_of_mem he
  refine hw.dirsTo hsplit h.dir fun d hd hk => h.directories d ?_ hk
  rw [hsplit]
  exact List.mem_append_left _ hd

/-- All files from an index on have been finished. -/
theorem succeeds_finishFiles [Sha256] {index : Nat} {entries : List ManifestEntry}
    (hr : RealRoot home v root) (hl : fs.Looks home v)
    (hd : ∀ e ∈ entries, DirsTo (home ++ root.names) v (pathFromBytes e.path))
    (hi : m.entries.drop index = entries)
    (h : Succeeds machine refuse (finishFiles m root index entries) fs () t) :
    t.Looks home v ∧ ∀ e ∈ entries, e.kind = .file →
      HoldsFile v (home ++ root.names ++ pathFromBytes e.path) e := by
  induction entries generalizing index fs with
  | nil =>
    obtain ⟨-, rfl⟩ := succeeds_done h
    exact ⟨hl, by simp⟩
  | cons e entries ih =>
    have hget : m.entries[index]? = some e := by
      rw [← List.head?_drop, hi]
      rfl
    have hrest : m.entries.drop (index + 1) = entries := by
      rw [← List.tail_drop, hi]
      rfl
    obtain ⟨hde, hds⟩ := List.forall_mem_cons.1 hd
    unfold finishFiles at h
    by_cases hk : e.kind = .file
    · rw [if_pos hk] at h
      obtain ⟨_, u, hfile, htail⟩ := succeeds_bind h
      obtain ⟨hlu, hholds, -⟩ := succeeds_finishFile hr hl hde hget hfile
      obtain ⟨hlt, hall⟩ := ih hlu hds hrest htail
      exact ⟨hlt, List.forall_mem_cons.2 ⟨fun _ => hholds, hall⟩⟩
    · rw [if_neg hk] at h
      obtain ⟨hlt, hall⟩ := ih hl hds hrest h
      exact ⟨hlt, List.forall_mem_cons.2 ⟨fun hk' => absurd hk' hk, hall⟩⟩

/-! ## The whole tree -/

/-- The staged tree without its marker. -/
def unmarked (home : Loc) (root : Path) (v : View) : View :=
  Function.update v (home ++ root.names ++ [markerName]) none

/-- When the marker is removed, the staged tree has been checked completely. -/
theorem succeeds_finishEntries [Sha256] {destination : Path} (hw : WellFormed m.entries)
    (hn : root.names ≠ []) (hd : DirsTo home v root.names) (hl : fs.Looks home v)
    (h : Succeeds machine refuse (finishEntries m root destination) fs () t) :
    StagedTree v (home ++ root.names) m false ∧ ∀ e ∈ m.entries, e.kind = .file →
      HoldsFile v (home ++ root.names ++ pathFromBytes e.path) e := by
  obtain ⟨_, t₁, hcheck, htail₁⟩ := succeeds_bind h
  obtain ⟨rfl, hstaged⟩ := stagedTree_of_validate hw hn hd hl hcheck
  have hr : RealRoot home v root := ⟨hn, hd, hstaged.dir⟩
  obtain ⟨_, t₂, habsent, htail₂⟩ := succeeds_bind htail₁
  have hl₂ := looks_of_succeeds keeps_requireAbsent hl habsent
  obtain ⟨_, t₃, hfiles, -⟩ := succeeds_bind htail₂
  exact ⟨hstaged, (succeeds_finishFiles hr hl₂ (fun e he => hstaged.dirsTo hw he) rfl hfiles).2⟩

/-- Removing the marker. -/
theorem looks_unmarked (hr : RealRoot home v root) (hl : fs.Looks home v)
    (h : FS.exec (.removeFile (markerPath root)) fs = (.ok (), t)) :
    v (home ++ root.names ++ [markerName]) ≠ some .dir ∧ t.Looks home (unmarked home root v) := by
  have hmark : DirsTo (home ++ root.names) v [markerName] := dirsTo_singleton.2 hr.dir
  have hres : fs.resolve false (markerPath root) = _ :=
    resolve_dirs hl (hr.join_ne _) (hr.join_dirs hmark)
  obtain ⟨hnd, hh, hv⟩ :=
    exec_removeFile_eq_ok hres (List.append_ne_nil_of_right_ne_nil _ (hr.join_ne _)) h
  unfold markerPath at hnd hv
  rw [place_join, hl.view_eq] at hnd hv
  exact ⟨hnd, by rw [hh, hl.home_eq], hv⟩

/-- Before the rename the staged tree has been checked completely, and only its marker is gone. -/
theorem succeeds_finishTree [Sha256] {destination : Path} (hw : WellFormed m.entries)
    (hn : root.names ≠ []) (hd : DirsTo home v root.names) (hl : fs.Looks home v)
    (h : Succeeds machine refuse (finishTree m root destination) fs () t) :
    t.Looks home (unmarked home root v) ∧ StagedTree v (home ++ root.names) m false ∧
      v (home ++ root.names ++ [markerName]) ≠ some .dir ∧
      ∀ e ∈ m.entries, e.kind = .file →
        HoldsFile v (home ++ root.names ++ pathFromBytes e.path) e := by
  obtain ⟨_, t₁, hentries, htail₁⟩ := succeeds_bind h
  obtain ⟨hstaged, hholds⟩ := succeeds_finishEntries hw hn hd hl hentries
  have hl₁ := looks_of_succeeds keeps_finishEntries hl hentries
  obtain ⟨_, t₂, hremove, hroot⟩ := succeeds_bind htail₁
  obtain ⟨hnd, hl₂⟩ := looks_unmarked ⟨hn, hd, hstaged.dir⟩ hl₁ (succeeds_ask hremove)
  exact ⟨looks_of_succeeds keeps_finishRoot hl₂ hroot, hstaged, hnd, hholds⟩

end PacketTide
