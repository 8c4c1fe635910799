import PacketTide.DirectoryScan
import PacketTide.FileSystem.Proofs.ListingProofs
import PacketTide.Proofs.AskProofs
import PacketTide.Proofs.ManifestTreeProofs

/-!
# What a scan records

A scan changes nothing. If it ends well, it has recorded everything that a walk through the tree comes to,
and it does end well if all of that can be recorded and is not too much.
-/

namespace PacketTide

open Effects FileSystem Prog Text FS

namespace Directory

variable {fs t : FS} {p : Loc} {root : Path} {names found rest : List (List Name)} {relative : List Name}

section Scans

variable [Sha256]

/-- A part of the scan records certain places, one after the other. -/
structure Scans (fs : FS) (p : Loc) (prog : List ManifestEntry → FsProg (List ManifestEntry))
    (found : List (List Name)) : Prop where
  sound : ∀ entries out t, (prog entries).run machine fs = (.ok out, t) →
    t = fs ∧ out = entries ++ found.filterMap (entryAt fs p) ∧ ∀ names ∈ found, Recordable fs p names
  complete : ∀ entries, entries.length + found.length ≤ maxManifestEntries →
    (∀ names ∈ found, Recordable fs p names) →
    (prog entries).run machine fs = (.ok (entries ++ found.filterMap (entryAt fs p)), fs)

theorem scans_nil : Scans fs p (fun entries => return entries) [] where
  sound entries out t h := by
    cases h
    exact ⟨rfl, (List.append_nil _).symm, fun _ hmem => by cases hmem⟩
  complete entries _ _ := by
    rw [List.filterMap_nil, List.append_nil]
    rfl

theorem Recordable.filterMap_length (h : ∀ names ∈ found, Recordable fs p names) :
    (found.filterMap (entryAt fs p)).length = found.length := by
  induction found with
  | nil => rfl
  | cons names found ih =>
    obtain ⟨-, e, he, -⟩ := h names List.mem_cons_self
    rw [List.filterMap_cons_some he, List.length_cons, List.length_cons,
      ih fun names hmem => h names (List.mem_cons_of_mem _ hmem)]

theorem scans_bind {first second : List ManifestEntry → FsProg (List ManifestEntry)}
    (h : Scans fs p first found) (h' : Scans fs p second rest) :
    Scans fs p (fun entries => first entries >>= second) (found ++ rest) where
  sound entries out t hrun := by
    obtain ⟨mid, u, hfirst, hsecond⟩ := run_bind_eq_ok hrun
    obtain ⟨rfl, rfl, hfound⟩ := h.sound _ _ _ hfirst
    obtain ⟨rfl, rfl, hrest⟩ := h'.sound _ _ _ hsecond
    refine ⟨rfl, by rw [List.filterMap_append, List.append_assoc], fun names hmem => ?_⟩
    rcases List.mem_append.1 hmem with hmem | hmem
    · exact hfound names hmem
    · exact hrest names hmem
  complete entries hcount hall := by
    rw [List.length_append] at hcount
    have hfound : ∀ names ∈ found, Recordable fs p names := fun names hmem => hall names (List.mem_append_left _ hmem)
    have hrest : ∀ names ∈ rest, Recordable fs p names := fun names hmem => hall names (List.mem_append_right _ hmem)
    rw [run_bind_ok (h.complete entries (by omega) hfound), h'.complete _ ?_ hrest, List.filterMap_append,
      List.append_assoc]
    rw [List.length_append, Recordable.filterMap_length hfound]
    omega

end Scans

/-! ## One child -/

theorem exec_lstat_join (hr : fs.Names root p) (hd : DirsTo p fs.view relative) :
    exec (.lstat (root.join relative)) fs = (fs.metadataAt (p ++ relative), fs) :=
  exec_lstat (hr.resolve_join hd fun h => by cases h)

/-- Files are hashed by their bytes. -/
theorem run_scanFile [Sha256] {attr : Attr} {content : List UInt8} (hr : fs.Names root p)
    (hget : fs.root.get (p ++ relative) = some (.file attr content)) :
    (scanFile (root.join relative) (Path.joined relative)).run machine fs =
      (if content.length < 2 ^ 64 then
        .ok (entry (Path.joined relative) .file (metadataOf (.file attr content)) content.length
          (some (Sha256.digest content)))
      else .error (.message "file size overflow"), fs) := by
  have hview : fs.view (p ++ relative) = some (.file content) := view_of_get hget
  have hd : DirsTo p fs.view relative := dirsTo_of_view (by rw [hview]; exact Option.some_ne_none _)
  have hopen : exec (.openFile (root.join relative) { nofollow := true }) fs = (.ok (p ++ relative), fs) := by
    refine exec_openFile_keep rfl rfl rfl (hr.resolve_join hd fun h => by cases h) hview
  have hstat : exec (.fstat (p ++ relative)) fs = (.ok (metadataOf (.file attr content)), fs) := by
    simp only [exec, metadataAt, hget]
  unfold scanFile
  rw [run_ask_ok hopen, run_ask_ok hstat, if_neg (fun h => h rfl)]
  unfold hashFile
  by_cases hsize : content.length < 2 ^ 64
  · rw [if_pos hsize]
    have hhash : (do
        let content ← ask (.readToEnd (p ++ relative))
        if content.length < 2 ^ 64 then return (content.length, Sha256.digest content)
        else failWith "file size overflow" : FsProg (Nat × Hash)).run machine fs =
          (.ok (content.length, Sha256.digest content), fs) := by
      rw [run_ask_ok (exec_readToEnd hview), if_pos hsize]
      rfl
    rw [run_bind_ok hhash]
    dsimp only
    rw [run_ask_ok hstat, if_neg (by simp [metadataOf])]
    rfl
  · rw [if_neg hsize]
    refine run_bind_error ?_
    rw [run_ask_ok (exec_readToEnd hview), if_neg hsize]
    rfl

theorem entryAt_dir [Sha256] {attr : Attr} {children : List (Name × Node)}
    (h : fs.root.get (p ++ relative) = some (.dir attr children)) :
    entryAt fs p relative = some (entry (Path.joined relative) .directory (metadataOf (.dir attr children)) 0 none) := by
  rw [entryAt, h]

theorem entryAt_file [Sha256] {attr : Attr} {content : List UInt8}
    (h : fs.root.get (p ++ relative) = some (.file attr content)) :
    entryAt fs p relative = some (entry (Path.joined relative) .file (metadataOf (.file attr content))
      content.length (some (Sha256.digest content))) := by
  rw [entryAt, h]

/-- Nothing lies below what is not a directory. -/
theorem listing_of_not_dir (h : fs.view (p ++ relative) ≠ some .dir) (depth : Nat) :
    fs.listing p depth relative = [] := by
  refine List.eq_nil_iff_forall_not_mem.2 fun below hmem => ?_
  obtain ⟨rest, hne, -, rfl, hview⟩ := mem_listing.1 hmem
  rw [← List.append_assoc] at hview
  exact h (view_dir_of_below hne hview)

theorem run_checked {α : Type} {r : Check α} {a : α} (h : r = .ok a) :
    (checked r).run machine fs = (.ok a, fs) := by
  rw [h]
  rfl

theorem run_checked_eq_ok {α : Type} {r : Check α} {a : α} (h : (checked r).run machine fs = (.ok a, t)) :
    r = .ok a ∧ t = fs := by
  rcases r with e | b
  · cases h
  · cases h
    exact ⟨rfl, rfl⟩

theorem length_relative_le (h : validateRelativePath (Path.joined relative) = .ok ()) :
    relative.length ≤ maxRelativePathBytes :=
  Nat.le_trans (length_le_joined relative) (of_validateRelativePath h).2.1

/-- A child is recorded before what lies below it. -/
theorem scans_child [Sha256] {visit : List Name → List ManifestEntry → FsProg (List ManifestEntry)} {depth : Nat}
    (hr : fs.Names root p) (hd : DirsTo p fs.view relative)
    (hvisit : relative.length ≤ maxRelativePathBytes → fs.view (p ++ relative) = some .dir →
      Scans fs p (visit relative) (fs.listing p depth relative)) :
    Scans fs p (scanChild root visit relative) (relative :: fs.listing p depth relative) where
  sound entries out t h := by
    unfold scanChild at h
    split at h
    · cases h
    have hstat := exec_lstat_join hr hd
    rcases hget : fs.root.get (p ++ relative) with _ | node
    · rw [metadataAt, hget] at hstat
      rw [run_ask_error hstat] at h
      cases h
    rw [metadataAt, hget] at hstat
    rw [run_ask_ok hstat] at h
    dsimp only at h
    obtain ⟨_, u, hcheck, hrest⟩ := run_bind_eq_ok h
    clear h
    obtain ⟨hvalid, rfl⟩ := run_checked_eq_ok hcheck
    cases node with
    | file attr content =>
      have hview : u.view (p ++ relative) = some (.file content) := view_of_get hget
      have hnone : u.listing p depth relative = [] :=
        listing_of_not_dir (by rw [hview]; exact fun h => by cases h) depth
      obtain ⟨e, v, hfile, hout⟩ := run_bind_eq_ok hrest
      rw [run_scanFile hr hget] at hfile
      split at hfile
      next hsize =>
        cases hfile
        cases hout
        rw [hnone]
        refine ⟨rfl, ?_, fun names hmem => ?_⟩
        · rw [List.filterMap_cons_some (entryAt_file hget), List.filterMap_nil]
        · rw [List.mem_singleton.1 hmem]
          exact ⟨hvalid, _, entryAt_file hget, hsize⟩
      next => cases hfile
    | dir attr children =>
      have hview : u.view (p ++ relative) = some .dir := view_of_get hget
      obtain ⟨rfl, rfl, hbelow⟩ := (hvisit (length_relative_le hvalid) hview).sound _ _ _ hrest
      refine ⟨rfl, ?_, fun names hmem => ?_⟩
      · rw [List.filterMap_cons_some (entryAt_dir hget), List.append_assoc]
        rfl
      · rcases List.mem_cons.1 hmem with rfl | hmem
        · exact ⟨hvalid, _, entryAt_dir hget, Nat.two_pow_pos 64⟩
        · exact hbelow names hmem
    | link target => cases hrest
    | special => cases hrest
  complete entries hcount hall := by
    obtain ⟨hvalid, e, he, hsize⟩ := hall relative List.mem_cons_self
    have hbelow : ∀ names ∈ fs.listing p depth relative, Recordable fs p names :=
      fun names hmem => hall names (List.mem_cons_of_mem _ hmem)
    rw [List.length_cons] at hcount
    unfold scanChild
    rw [if_neg (by omega)]
    have hstat := exec_lstat_join hr hd
    rcases hget : fs.root.get (p ++ relative) with _ | node
    · rw [entryAt, hget] at he
      cases he
    rw [metadataAt, hget] at hstat
    rw [run_ask_ok hstat]
    dsimp only
    rw [run_bind_ok (run_checked hvalid)]
    cases node with
    | file attr content =>
      have hview : fs.view (p ++ relative) = some (.file content) := view_of_get hget
      rw [entryAt_file hget] at he
      cases he
      have hsize : content.length < 2 ^ 64 := hsize
      have hfile := run_scanFile hr hget
      rw [if_pos hsize] at hfile
      rw [listing_of_not_dir (by rw [hview]; exact fun h => by cases h) depth,
        List.filterMap_cons_some (entryAt_file hget), List.filterMap_nil]
      exact run_bind_ok hfile
    | dir attr children =>
      have hview : fs.view (p ++ relative) = some .dir := view_of_get hget
      have hrun := (hvisit (length_relative_le hvalid) hview).complete
        (entries ++ [entry (Path.joined relative) .directory (metadataOf (.dir attr children)) 0 none])
        (by rw [List.length_append, List.length_singleton]; omega) hbelow
      rw [List.filterMap_cons_some (entryAt_dir hget)]
      rw [List.append_assoc] at hrun
      exact hrun
    | link target =>
      rw [entryAt, hget] at he
      cases he
    | special =>
      rw [entryAt, hget] at he
      cases he

/-! ## The whole scan -/

theorem scans_children [Sha256] {visit : List Name → List ManifestEntry → FsProg (List ManifestEntry)} {depth : Nat}
    (children : List Name) (hr : fs.Names root p) (hd : ∀ n, DirsTo p fs.view (relative ++ [n]))
    (hvisit : ∀ n, (relative ++ [n]).length ≤ maxRelativePathBytes → fs.view (p ++ (relative ++ [n])) = some .dir →
      Scans fs p (visit (relative ++ [n])) (fs.listing p depth (relative ++ [n]))) :
    Scans fs p (scanChildren root visit relative children)
      (children.flatMap fun n => (relative ++ [n]) :: fs.listing p depth (relative ++ [n])) := by
  induction children with
  | nil => exact scans_nil
  | cons child children ih =>
    rw [List.flatMap_cons]
    exact scans_bind (scans_child hr (hd child) (hvisit child)) ih

theorem names_of_readDir (hr : fs.Names root p) (hdir : fs.view (p ++ relative) = some .dir) :
    exec (.readDir (root.join relative)) fs = (.ok (fs.namesAt (p ++ relative)), fs) := by
  have hresolve : fs.resolve true (root.join relative) = .ok (p ++ relative) :=
    hr.resolve_join (dirsTo_of_view (by rw [hdir]; exact Option.some_ne_none _))
      fun _ target hlink => by rw [hdir] at hlink; cases hlink
  obtain ⟨a, cs, hget⟩ := Node.get_of_view_dir hdir
  simp only [exec, hresolve, namesAt, hget]
  rfl

/-- The scan of a directory records what a walk comes to below it; the bound on the nesting is not met. -/
theorem scans_scan [Sha256] {depth : Nat} (hr : fs.Names root p) (hdir : fs.view (p ++ relative) = some .dir)
    (hdepth : relative.length + depth = maxRelativePathBytes + 1) (hlen : relative.length ≤ maxRelativePathBytes) :
    Scans fs p (scan root depth relative) (fs.listing p depth relative) := by
  induction depth generalizing relative with
  | zero => omega
  | succ depth ih =>
    have hd : ∀ n, DirsTo p fs.view (relative ++ [n]) := fun n =>
      dirsTo_append.2 ⟨dirsTo_of_view (by rw [hdir]; exact Option.some_ne_none _), dirsTo_singleton.2 hdir⟩
    have hchildren := scans_children (sortNames (fs.namesAt (p ++ relative))) hr hd fun n hle hview =>
      ih hview (by rw [List.length_append, List.length_singleton]; omega) hle
    constructor
    · intro entries out t h
      rw [scan, run_ask_ok (names_of_readDir hr hdir)] at h
      exact hchildren.sound entries out t h
    · intro entries hcount hall
      rw [scan, run_ask_ok (names_of_readDir hr hdir)]
      exact hchildren.complete entries hcount hall

/-! ## The entries of a tree -/

theorem joined_injective {a b : List Name} (ha : a ≠ []) (hb : b ≠ []) (h : Path.joined a = Path.joined b) : a = b := by
  rw [← pathFromBytes_joined ha, h, pathFromBytes_joined hb]

/-- The path of names is one that a manifest may name, if it is not too long and has no zero in it. -/
theorem relativePath_joined {names : List Name} (hne : names ≠ [])
    (h : (Path.joined names).length ≤ maxRelativePathBytes ∧ 0 ∉ Path.joined names) :
    RelativePath (Path.joined names) := by
  have hsplit : (Path.joined names).splitOn 47 = names.map Name.bytes := by
    refine List.splitOn_intercalate 47 ?_ (by simpa using hne)
    intro l hl
    obtain ⟨n, -, rfl⟩ := List.mem_map.1 hl
    exact n.valid.2.2.2
  refine ⟨fun hnil => ?_, h.1, h.2, fun part hpart => ?_⟩
  · have hlen := length_le_joined names
    rw [hnil] at hlen
    exact hne (List.length_eq_zero_iff.1 (Nat.le_zero.1 hlen))
  · rw [hsplit] at hpart
    obtain ⟨n, -, rfl⟩ := List.mem_map.1 hpart
    exact ⟨n.valid.1, n.valid.2.1, n.valid.2.2.1⟩

section Entries

variable [Sha256] {e : ManifestEntry} {m : Manifest}

/-- Only directories and files have entries. -/
theorem entryAt_cases {names : List Name} (h : entryAt fs p names = some e) :
    (∃ attr children, fs.root.get (p ++ names) = some (.dir attr children) ∧
      e = entry (Path.joined names) .directory (metadataOf (.dir attr children)) 0 none) ∨
    ∃ attr content, fs.root.get (p ++ names) = some (.file attr content) ∧
      e = entry (Path.joined names) .file (metadataOf (.file attr content)) content.length
        (some (Sha256.digest content)) := by
  unfold entryAt at h
  split at h
  next attr children hget =>
    cases h
    exact .inl ⟨attr, children, hget, rfl⟩
  next attr content hget =>
    cases h
    exact .inr ⟨attr, content, hget, rfl⟩
  next => cases h

theorem path_entryAt {names : List Name} (h : entryAt fs p names = some e) : e.path = Path.joined names := by
  obtain ⟨_, _, -, rfl⟩ | ⟨_, _, -, rfl⟩ := entryAt_cases h
  · rfl
  · rfl

theorem view_of_entryAt {names : List Name} (h : entryAt fs p names = some e) : fs.view (p ++ names) ≠ none := by
  obtain ⟨_, _, hget, -⟩ | ⟨_, _, hget, -⟩ := entryAt_cases h
  · rw [view_of_get hget]
    exact Option.some_ne_none _
  · rw [view_of_get hget]
    exact Option.some_ne_none _

/-- A walk deep enough comes to all that lies below a place, if it can all be recorded. -/
theorem mem_listing_of_recordable {below : List Name} (hne : below ≠ [])
    (hall : ∀ names ∈ fs.listing p (maxRelativePathBytes + 1) [], Recordable fs p names)
    (hview : fs.view (p ++ below) ≠ none) : below ∈ fs.listing p (maxRelativePathBytes + 1) [] := by
  refine mem_listing.2 ⟨below, hne, ?_, rfl, hview⟩
  by_contra hlong
  -- what lies so deep lies below something that is deep as well
  have hcut : below.take (maxRelativePathBytes + 1) ∈ fs.listing p (maxRelativePathBytes + 1) [] := by
    refine mem_listing.2 ⟨_, ?_, List.length_take_le _ _, rfl, ?_⟩
    · rw [Ne, List.take_eq_nil_iff]
      exact fun h => h.elim (by decide) hne
    · have hrest : below.drop (maxRelativePathBytes + 1) ≠ [] := by
        rw [Ne, List.drop_eq_nil_iff]
        exact hlong
      rw [← List.take_append_drop (maxRelativePathBytes + 1) below, ← List.append_assoc] at hview
      rw [view_dir_of_below hrest hview]
      exact Option.some_ne_none _
  have hle := length_relative_le (hall _ hcut).1
  rw [List.length_take] at hle
  omega

/-- The entries of a tree form a tree. -/
theorem Describes.treeEntries (h : Describes fs p m) (hw : Within m) : TreeEntries m.entries := by
  refine ⟨hw.sorted, fun e he => ?_, fun e he above below hpath => ?_, fun e he => ?_, fun e he => ?_,
    fun e he hk => ?_, fun e he hk => ?_⟩
  all_goals obtain ⟨names, hne, hentry⟩ := (h.entries e).1 he
  · rw [path_entryAt hentry]
    exact relativePath_joined hne (path_entryAt hentry ▸ hw.paths e he)
  · -- a slash in the path stands between two names
    rw [path_entryAt hentry] at hpath
    have hsplit : names.map Name.bytes = above.splitOn 47 ++ below.splitOn 47 := by
      rw [← List.splitOn_append_cons_self, ← hpath]
      exact (List.splitOn_intercalate 47 (by
        intro l hl
        obtain ⟨n, -, rfl⟩ := List.mem_map.1 hl
        exact n.valid.2.2.2) (by simpa using hne)).symm
    obtain ⟨init, last, rfl, hinit, hlast⟩ := List.map_eq_append_iff.1 hsplit
    have hinitne : init ≠ [] := by
      rintro rfl
      exact List.splitOn_ne_nil _ _ hinit.symm
    have hlastne : last ≠ [] := by
      rintro rfl
      exact List.splitOn_ne_nil _ _ hlast.symm
    have habove : Path.joined init = above := by
      rw [Path.joined, hinit, List.intercalate_splitOn]
    have hview := view_of_entryAt hentry
    rw [← List.append_assoc] at hview
    obtain ⟨attr, children, hget⟩ := Node.get_of_view_dir (view_dir_of_below hlastne hview)
    have hdir := entryAt_dir hget
    exact ⟨_, (h.entries _).2 ⟨init, hinitne, hdir⟩, habove, rfl⟩
  · obtain ⟨_, _, -, rfl⟩ | ⟨_, _, -, rfl⟩ := entryAt_cases hentry
    · exact Nat.and_le_right
    · exact Nat.and_le_right
  · refine ⟨?_, hw.nanoseconds e he⟩
    obtain ⟨_, _, -, rfl⟩ | ⟨_, _, -, rfl⟩ := entryAt_cases hentry
    · exact Int.natCast_nonneg _
    · exact Int.natCast_nonneg _
  · obtain ⟨_, _, -, rfl⟩ | ⟨_, _, -, rfl⟩ := entryAt_cases hentry
    · cases hk
    · rfl
  · obtain ⟨_, _, -, rfl⟩ | ⟨_, _, -, rfl⟩ := entryAt_cases hentry
    · exact ⟨rfl, rfl⟩
    · cases hk

end Entries

/-! ## Building a manifest -/

theorem mergeSort_eq {scanned entries : List ManifestEntry} (hperm : scanned.Perm entries)
    (hs : entries.Pairwise fun a b => a.path < b.path) :
    (scanned.mergeSort fun left right => decide (left.path ≤ right.path)) = entries := by
  have hsorted : (scanned.mergeSort fun left right => decide (left.path ≤ right.path)).Pairwise
      fun a b => decide (a.path ≤ b.path) = true := by
    refine List.pairwise_mergeSort (fun a b c hab hbc => ?_) (fun a b => ?_) scanned
    · rw [decide_eq_true_eq] at hab hbc ⊢
      exact List.le_trans hab hbc
    · rw [Bool.or_eq_true, decide_eq_true_eq, decide_eq_true_eq]
      exact List.le_total a.path b.path
  have hsorted' : (scanned.mergeSort fun left right => decide (left.path ≤ right.path)).Pairwise
      fun a b => a.path ≤ b.path := hsorted.imp fun {a b} h => of_decide_eq_true h
  have hentries : entries.Pairwise fun a b => a.path ≤ b.path := hs.imp fun {a b} h => List.le_of_lt h
  refine List.Perm.eq_of_pairwise (fun a b ha hb hab hba => ?_) hsorted' hentries ((List.mergeSort_perm _ _).trans hperm)
  rw [List.mem_mergeSort, hperm.mem_iff] at ha
  exact eq_of_sorted hs ha hb (List.le_antisymm hab hba)

section Build

variable [Sha256] {e : ManifestEntry} {m : Manifest}

theorem strict_scanFile {path : Path} {bytes : List UInt8} : (scanFile path bytes).Strict refuse := by
  unfold scanFile hashFile
  refine strict_ask.bind fun _ => strict_ask.bind fun _ => strict_ite strict_failWith ?_
  refine Strict.bind (strict_ask.bind fun _ => strict_ite (strict_done _) strict_failWith) fun _ => ?_
  exact strict_ask.bind fun _ => strict_ite strict_failWith (strict_done _)

theorem strict_scan (depth : Nat) (relative : List Name) (entries : List ManifestEntry) :
    (scan root depth relative entries).Strict refuse := by
  induction depth generalizing relative entries with
  | zero => exact strict_failWith
  | succ depth ih =>
    refine strict_ask.bind fun children => ?_
    generalize sortNames children = names
    induction names generalizing entries with
    | nil => exact strict_done _
    | cons child names ihnames =>
      refine Strict.bind (strict_ite strict_failWith ?_) ihnames
      refine strict_ask.bind fun metadata => Strict.bind (strict_done _) fun _ => ?_
      split
      · exact strict_failWith
      · exact ih _ _
      · exact strict_scanFile.bind fun _ => strict_done _
      · exact strict_failWith

theorem strict_build : (build root).Strict refuse := by
  refine strict_ask.bind fun _ => strict_ite strict_failWith ?_
  exact (strict_scan _ _ _).bind fun _ => strict_done _

theorem buildManifest_eq_ok {scanned : List ManifestEntry} {rootMode : Nat} {seconds nanoseconds : Int}
    (h : buildManifest scanned rootMode seconds nanoseconds = .ok m) :
    m.entries.Perm scanned ∧ validateEntries m.entries = .ok () ∧ (encode m).length ≤ maxManifestBytes ∧
      m.hash = Sha256.digest (canonicalBody m.entries m.rootMode m.rootModifiedSeconds m.rootModifiedNanoseconds) ∧
      m.rootMode = rootMode ∧ m.rootModifiedSeconds = seconds ∧ m.rootModifiedNanoseconds = nanoseconds := by
  obtain ⟨_, hvalid, h⟩ := except_bind_ok h
  obtain ⟨_, hlen, h⟩ := except_bind_ok h
  have hlen := refuseIf_ok hlen
  cases h
  refine ⟨List.mergeSort_perm _ _, hvalid, ?_, rfl, rfl, rfl, rfl⟩
  have htag : (ascii "HASH ").length = 5 := by decide
  simp only [encode, List.length_append, List.length_singleton, htag, length_hash]
  omega

/-- What `build` returns is the manifest of the tree. -/
theorem records_of_build (h : (build root).run machine fs = (.ok m, t)) : t = fs ∧ Records fs root m := by
  unfold build at h
  rcases hresolve : fs.resolve false root with e | p
  · rw [run_ask_error (e := e) (t := fs) (by simp [exec, hresolve]; rfl)] at h
    cases h
  have hstat : exec (.lstat root) fs = (fs.metadataAt p, fs) := exec_lstat hresolve
  rcases hget : fs.root.get p with _ | node
  · rw [metadataAt, hget] at hstat
    rw [run_ask_error hstat] at h
    cases h
  rw [metadataAt, hget] at hstat
  rw [run_ask_ok hstat] at h
  split at h
  · cases h
  next htype =>
    cases node with
    | file attr content => exact absurd (fun hd => by cases hd) htype
    | link target => exact absurd (fun hd => by cases hd) htype
    | special => exact absurd (fun hd => by cases hd) htype
    | dir attr children =>
      have hr : fs.Names root p := ⟨hresolve, view_of_get hget⟩
      obtain ⟨entries, u, hscan, hrest⟩ := run_bind_eq_ok h
      have hdir : fs.view (p ++ []) = some .dir := by rw [List.append_nil]; exact hr.dir
      obtain ⟨rfl, rfl, hall⟩ := (scans_scan hr hdir (Nat.zero_add _) (Nat.zero_le _)).sound _ _ _ hscan
      obtain ⟨hbuilt, rfl⟩ := run_checked_eq_ok hrest
      obtain ⟨hperm, hvalid, hlength, hhash, hmode, hseconds, hnanoseconds⟩ := buildManifest_eq_ok hbuilt
      rw [List.nil_append] at hperm
      have htree := treeEntries_of_validateEntries hvalid
      have hmem : ∀ e, e ∈ m.entries ↔ ∃ names, names ≠ [] ∧ entryAt t p names = some e := by
        intro e
        rw [hperm.mem_iff, List.mem_filterMap]
        constructor
        · rintro ⟨names, hnames, he⟩
          obtain ⟨rest, hne, -, rfl, -⟩ := mem_listing.1 hnames
          exact ⟨_, hne, he⟩
        · rintro ⟨names, hne, he⟩
          exact ⟨names, mem_listing_of_recordable hne hall (view_of_entryAt he), he⟩
      refine ⟨rfl, ⟨p, hr, hmem, fun names hne hview => ?_, ?_⟩, htree.sorted, ?_, fun e he => ?_, fun e he => ?_,
        fun e he => ?_, hlength, hhash⟩
      · obtain ⟨-, e, he, -⟩ := hall _ (mem_listing_of_recordable hne hall hview)
        exact ⟨e, he⟩
      · exact ⟨attr, by rw [attrAt, Node.attrAt, Node.observe, hget]; rfl, hmode, hseconds, hnanoseconds⟩
      · exact (sound_of_validateEntries hvalid).1
      · exact ⟨(htree.path e he).length_le, (htree.path e he).nul⟩
      · exact (htree.nanoseconds e he).2
      · rw [hperm.mem_iff, List.mem_filterMap] at he
        obtain ⟨names, hnames, he⟩ := he
        obtain ⟨-, e', he', hsize⟩ := hall names hnames
        rw [he] at he'
        cases he'
        exact hsize

/-- The scanned entries of a described tree are those of its manifest. -/
theorem Describes.perm_entries (hfs : fs.Distinct) (h : Describes fs p m) (hw : Within m)
    (hall : ∀ names ∈ fs.listing p (maxRelativePathBytes + 1) [], Recordable fs p names) :
    ((fs.listing p (maxRelativePathBytes + 1) []).filterMap (entryAt fs p)).Perm m.entries := by
  have hnames : ∀ {names}, names ∈ fs.listing p (maxRelativePathBytes + 1) [] → names ≠ [] := by
    intro names hmem
    obtain ⟨rest, hne, -, rfl, -⟩ := mem_listing.1 hmem
    exact hne
  refine (List.perm_ext_iff_of_nodup ?_ ?_).2 fun e => ?_
  · refine List.pairwise_filterMap.2 ((nodup_listing hfs _ _ _).imp_of_mem fun {a b} ha hb hab e hea e' heb heq => ?_)
    subst heq
    exact hab (joined_injective (hnames ha) (hnames hb) ((path_entryAt hea).symm.trans (path_entryAt heb)))
  · refine hw.sorted.imp fun {a b} hlt heq => ?_
    subst heq
    exact List.lt_irrefl _ hlt
  · rw [List.mem_filterMap, h.entries]
    constructor
    · rintro ⟨names, hmem, he⟩
      exact ⟨names, hnames hmem, he⟩
    · rintro ⟨names, hne, he⟩
      exact ⟨names, mem_listing_of_recordable hne hall (view_of_entryAt he), he⟩

theorem buildManifest_of_within {scanned : List ManifestEntry} (hperm : scanned.Perm m.entries)
    (htree : TreeEntries m.entries) (hw : Within m) :
    buildManifest scanned m.rootMode m.rootModifiedSeconds m.rootModifiedNanoseconds = .ok m := by
  have hvalid : validateEntries m.entries = .ok () := by
    rw [validateEntries, refuseIf_of_not (Nat.not_lt.2 hw.count), check_bind]
    exact @validateEntriesFrom_ok [] _ htree
  have htag : (ascii "HASH ").length = 5 := by decide
  have hlength := hw.length
  simp only [encode, List.length_append, List.length_singleton, htag, length_hash] at hlength
  rw [buildManifest, mergeSort_eq hperm hw.sorted, hvalid, check_bind]
  dsimp only
  rw [refuseIf_of_not (by omega), check_bind, ← hw.hash]
  rfl

/-- `build` returns the manifest of the tree, if it has one. -/
theorem build_of_records (hfs : fs.Distinct) (h : Records fs root m) :
    (build root).run machine fs = (.ok m, fs) := by
  obtain ⟨⟨p, hr, hd⟩, hw⟩ := h
  have htree := hd.treeEntries hw
  have hall : ∀ names ∈ fs.listing p (maxRelativePathBytes + 1) [], Recordable fs p names := by
    intro names hmem
    obtain ⟨rest, hne, -, rfl, hview⟩ := mem_listing.1 hmem
    obtain ⟨e, he⟩ := hd.plain _ hne hview
    have hmem : e ∈ m.entries := (hd.entries e).2 ⟨_, hne, he⟩
    refine ⟨?_, e, he, hw.sizes e hmem⟩
    rw [validateRelativePath_iff, ← path_entryAt he]
    exact htree.path e hmem
  have hperm := hd.perm_entries hfs hw hall
  have hcount := hperm.length_eq
  rw [Recordable.filterMap_length hall] at hcount
  have hdir : fs.view (p ++ []) = some .dir := by rw [List.append_nil]; exact hr.dir
  have hscan := (scans_scan hr hdir (Nat.zero_add _) (Nat.zero_le _)).complete [] (by
    rw [List.length_nil, Nat.zero_add, hcount]
    exact hw.count) hall
  obtain ⟨attr, hattr, hmode, hseconds, hnanoseconds⟩ := hd.root
  obtain ⟨attr', children, hget⟩ := Node.get_of_view_dir hr.dir
  have hsame : attr' = attr := by
    rw [attrAt, Node.attrAt, Node.observe, hget] at hattr
    exact Option.some.inj hattr
  subst hsame
  have hstat : exec (.lstat root) fs = (.ok (metadataOf (.dir attr' children)), fs) := by
    rw [exec_lstat hr.resolves, metadataAt, hget]
  have hbuilt := buildManifest_of_within hperm htree hw
  rw [hmode, hseconds, hnanoseconds] at hbuilt
  unfold build
  rw [run_ask_ok hstat, if_neg (fun h => h rfl), run_bind_ok hscan]
  exact run_checked hbuilt

/-- Whichever calls fail, what `build` returns is the manifest of the tree, and the tree is left alone; and if
the tree has a manifest and no call fails, `build` returns it. -/
theorem build_exact (root : Path) (fs : FS) (m : Manifest) :
    (∀ t, Succeeds machine refuse (build root) fs m t → t = fs ∧ Records fs root m) ∧
      (fs.Distinct → Records fs root m → (build root).run machine fs = (.ok m, fs)) :=
  ⟨fun _ h => records_of_build (strict_build.run_of_succeeds h), build_of_records⟩

end Build

end Directory

end PacketTide
