import PacketTide.FileSystem.Proofs.SlotProofs
import PacketTide.Proofs.AskProofs
import PacketTide.Proofs.ManifestProofs
import PacketTide.Staging

/-!
# The check of the staging tree

The check changes nothing, and it succeeds exactly when the tree holds all directories of the
manifest and nothing that is not allowed.
-/

namespace PacketTide

open Effects FileSystem Prog Text FS

variable {home : Loc} {v : View} {fs t : FS} {root path : Path} {allowed : Allowed}

/-! ## Real directories and absent paths -/

theorem succeeds_requireRealDirectory (h : Succeeds machine refuse (requireRealDirectory path) fs () t) :
    t = fs ∧ ∃ m, FS.exec (.lstat path) fs = (.ok m, fs) ∧ m.fileType = .dir := by
  obtain ⟨m, hexec, h⟩ := succeeds_read rfl h
  by_cases hd : m.fileType = .dir
  · rw [if_pos hd] at h
    exact ⟨(succeeds_done h).2, m, hexec, hd⟩
  · rw [if_neg hd] at h
    exact absurd h not_succeeds_failWith

/-- What a check for a real directory has seen, if the directories before the last are real. -/
theorem dir_of_requireRealDirectory (hl : fs.Looks home v) (hn : path.names ≠ [])
    (hd : DirsTo home v path.names)
    (h : Succeeds machine refuse (requireRealDirectory path) fs () t) :
    t = fs ∧ v (home ++ path.names) = some .dir := by
  obtain ⟨ht, m, hm, hdir⟩ := succeeds_requireRealDirectory h
  rw [exec_lstat_dirs hl hn hd] at hm
  obtain ⟨s, hs, htype, -⟩ := metadataAt_eq_ok (congrArg Prod.fst hm)
  rw [hdir] at htype
  rw [hl.view_eq] at hs
  refine ⟨ht, ?_⟩
  cases s <;> first | exact hs | cases htype

theorem run_requireRealDirectory (hl : fs.Looks home v) (hn : path.names ≠ [])
    (hd : DirsTo home v path.names) (hv : v (home ++ path.names) = some .dir) :
    (requireRealDirectory path).run machine fs = (.ok (), fs) := by
  have hview : fs.view (home ++ path.names) = some .dir := hl.view_eq ▸ hv
  obtain ⟨a, ha⟩ := metadataAt_dir hview
  have hexec := exec_lstat_dirs hl hn hd
  rw [ha] at hexec
  unfold requireRealDirectory
  rw [run_ask_ok hexec]
  rfl

/-! ## Below a real directory -/

/-- A path that leads through real directories to a directory. -/
structure RealRoot (home : Loc) (v : View) (root : Path) : Prop where
  names_ne : root.names ≠ []
  dirs : DirsTo home v root.names
  dir : v (home ++ root.names) = some .dir

theorem place_join (home : Loc) (root : Path) (names : List Name) :
    home ++ (root.join names).names = home ++ root.names ++ names :=
  (List.append_assoc _ _ _).symm

theorem place_entryPath (home : Loc) (root : Path) (e : ManifestEntry) :
    home ++ (entryPath root e).names = home ++ root.names ++ pathFromBytes e.path :=
  place_join home root _

namespace RealRoot

variable {names : List Name}

theorem join_ne (h : RealRoot home v root) (names : List Name) : (root.join names).names ≠ [] := by
  simp [Path.join, h.names_ne]

theorem join_ne_empty (h : RealRoot home v root) (names : List Name) :
    root.join names ≠ Path.empty := by
  intro he
  exact h.join_ne names (congrArg Path.names he)

theorem join_dirs (h : RealRoot home v root) (hd : DirsTo (home ++ root.names) v names) :
    DirsTo home v (root.join names).names :=
  dirsTo_append.2 ⟨h.dirs, hd⟩

end RealRoot

/-- In a view of a file system a directory leads to everything below it. -/
theorem dirsTo_snoc {p : Loc} {names : List Name} {n : Name} (h : DirsTo p v names)
    (hd : v (p ++ names) = some .dir) : DirsTo p v (names ++ [n]) :=
  dirsTo_append.2 ⟨h, dirsTo_singleton.2 hd⟩

/-! ## The walk over the tree -/

/-- What may lie at a relative path of the staging tree. -/
def AllowedAt (allowed : Allowed) (names : List Name) : Shape → Prop
  | .dir => Path.joined names ∈ allowed.directories
  | .file _ => Path.joined names ∈ allowed.files
      ∨ Path.joined names = ascii ".packet-tide-manifest"
      ∨ Path.joined names ∈ allowed.partialFiles
  | .link _ => False
  | .special => False

/-- Everything below a directory of the staging tree is allowed. -/
def AllowedBelow (v : View) (p : Loc) (allowed : Allowed) (names : List Name) : Prop :=
  ∀ below, below ≠ [] → ∀ s, v (p ++ (names ++ below)) = some s →
    AllowedAt allowed (names ++ below) s

theorem succeeds_validateChild {visit : List Name → FsProg Unit} {names : List Name}
    (hr : RealRoot home v root) (hl : fs.Looks home v)
    (hd : DirsTo (home ++ root.names) v names)
    (hvisit : v (home ++ root.names ++ names) = some .dir → ∀ t,
      Succeeds machine refuse (visit names) fs () t →
        t = fs ∧ AllowedBelow v (home ++ root.names) allowed names)
    (h : Succeeds machine refuse (validateChild root allowed visit names) fs () t) :
    t = fs ∧ ∃ s, v (home ++ root.names ++ names) = some s ∧ AllowedAt allowed names s ∧
      (s = .dir → AllowedBelow v (home ++ root.names) allowed names) := by
  obtain ⟨m, hm, h⟩ := succeeds_read rfl h
  rw [exec_lstat_dirs hl (hr.join_ne names) (hr.join_dirs hd), place_join] at hm
  obtain ⟨s, hs, htype, -⟩ := metadataAt_eq_ok (congrArg Prod.fst hm)
  rw [hl.view_eq] at hs
  cases s with
  | dir =>
    simp only [htype, typeOf] at h
    by_cases hmem : Path.joined names ∈ allowed.directories
    · rw [if_pos hmem] at h
      obtain ⟨ht, hbelow⟩ := hvisit hs t h
      exact ⟨ht, .dir, hs, hmem, fun _ => hbelow⟩
    · rw [if_neg hmem] at h
      exact absurd h not_succeeds_failWith
  | file b =>
    simp only [htype, typeOf] at h
    by_cases hmem : Path.joined names ∈ allowed.files
        ∨ Path.joined names = ascii ".packet-tide-manifest"
        ∨ Path.joined names ∈ allowed.partialFiles
    · rw [if_pos hmem] at h
      exact ⟨(succeeds_done h).2, .file b, hs, hmem, fun hd => by cases hd⟩
    · rw [if_neg hmem] at h
      exact absurd h not_succeeds_failWith
  | link target =>
    simp only [htype, typeOf] at h
    exact absurd h not_succeeds_failWith
  | special =>
    simp only [htype, typeOf] at h
    exact absurd h not_succeeds_failWith

theorem succeeds_validateChildren {visit : List Name → FsProg Unit} {relative : List Name}
    {children : List Name} (hr : RealRoot home v root) (hl : fs.Looks home v)
    (hd : DirsTo (home ++ root.names) v relative)
    (hdir : v (home ++ root.names ++ relative) = some .dir)
    (hvisit : ∀ names, DirsTo (home ++ root.names) v names →
      v (home ++ root.names ++ names) = some .dir → ∀ t,
      Succeeds machine refuse (visit names) fs () t →
        t = fs ∧ AllowedBelow v (home ++ root.names) allowed names)
    (h : Succeeds machine refuse (validateChildren root allowed visit relative children) fs () t) :
    t = fs ∧ ∀ child ∈ children, ∃ s, v (home ++ root.names ++ (relative ++ [child])) = some s ∧
      AllowedAt allowed (relative ++ [child]) s ∧
      (s = .dir → AllowedBelow v (home ++ root.names) allowed (relative ++ [child])) := by
  induction children with
  | nil => exact ⟨(succeeds_done h).2, by simp⟩
  | cons child children ih =>
    obtain ⟨_, u, hchild, hrest⟩ := succeeds_bind h
    have hdn := dirsTo_snoc (n := child) hd hdir
    obtain ⟨rfl, hs⟩ := succeeds_validateChild hr hl hdn (hvisit _ hdn) hchild
    obtain ⟨ht, hall⟩ := ih hrest
    exact ⟨ht, List.forall_mem_cons.2 ⟨hs, hall⟩⟩

/-- A walk that ends well has seen nothing that is not allowed. -/
theorem allowed_of_validateStagingDirectory {depth : Nat} {relative : List Name}
    (hr : RealRoot home v root) (hl : fs.Looks home v)
    (hd : DirsTo (home ++ root.names) v relative)
    (hdir : v (home ++ root.names ++ relative) = some .dir)
    (h : Succeeds machine refuse (validateStagingDirectory root allowed depth relative) fs () t) :
    t = fs ∧ AllowedBelow v (home ++ root.names) allowed relative := by
  induction depth generalizing relative t with
  | zero => exact absurd h not_succeeds_failWith
  | succ depth ih =>
    obtain ⟨children, hexec, hmem⟩ := exec_readDir_dirs hl (hr.join_ne_empty relative)
      (hr.join_dirs hd) (by rw [place_join]; exact hdir)
    obtain ⟨children', hread, h⟩ := succeeds_read (by rw [hexec]) h
    rw [hexec] at hread
    cases hread
    obtain ⟨ht, hall⟩ := succeeds_validateChildren hr hl hd hdir (fun names hd' hdir' t h' =>
      ih hd' hdir' h') h
    refine ⟨ht, ?_⟩
    intro below hb s hs
    obtain ⟨n, rest, rfl⟩ := List.exists_cons_of_ne_nil hb
    have hsplit : relative ++ n :: rest = relative ++ [n] ++ rest := by simp
    rw [hsplit] at hs ⊢
    have hchild : ∀ s', v (home ++ root.names ++ (relative ++ [n])) = some s' → n ∈ children := by
      intro s' hs'
      rw [hmem, place_join, List.append_assoc, hs']
      exact Option.some_ne_none _
    cases rest with
    | nil =>
      rw [List.append_nil] at hs ⊢
      obtain ⟨s', hs', hallowed, -⟩ := hall n (hchild s hs)
      rw [hs] at hs'
      cases hs'
      exact hallowed
    | cons k rest =>
      have hbelow : fs.view (home ++ root.names ++ (relative ++ [n])) = some .dir := by
        refine view_dir_of_below (List.cons_ne_nil k rest) ?_
        rw [hl.view_eq, List.append_assoc, hs]
        exact Option.some_ne_none _
      rw [hl.view_eq] at hbelow
      obtain ⟨s', hs', -, hdir'⟩ := hall n (hchild .dir hbelow)
      rw [hbelow] at hs'
      cases hs'
      exact hdir' rfl _ (List.cons_ne_nil k rest) s hs

theorem run_validateChild {visit : List Name → FsProg Unit} {names : List Name} {s : Shape}
    (hr : RealRoot home v root) (hl : fs.Looks home v)
    (hd : DirsTo (home ++ root.names) v names) (hs : v (home ++ root.names ++ names) = some s)
    (ha : AllowedAt allowed names s) (hvisit : s = .dir → (visit names).run machine fs = (.ok (), fs)) :
    (validateChild root allowed visit names).run machine fs = (.ok (), fs) := by
  have hexec := exec_lstat_dirs hl (hr.join_ne names) (hr.join_dirs hd)
  obtain ⟨m, hm, htype, -⟩ := metadataAt_some (hl.view_eq ▸ hs)
  rw [place_join, hm] at hexec
  unfold validateChild
  rw [run_ask_ok hexec]
  cases s with
  | dir =>
    simp only [AllowedAt] at ha
    simp only [htype, typeOf]
    rw [if_pos ha]
    exact hvisit rfl
  | file b =>
    simp only [AllowedAt] at ha
    simp only [htype, typeOf]
    rw [if_pos ha]
    rfl
  | link target => exact absurd ha id
  | special => exact absurd ha id

theorem run_validateChildren {visit : List Name → FsProg Unit} {relative children : List Name}
    (hall : ∀ child ∈ children,
      (validateChild root allowed visit (relative ++ [child])).run machine fs = (.ok (), fs)) :
    (validateChildren root allowed visit relative children).run machine fs = (.ok (), fs) := by
  induction children with
  | nil => rfl
  | cons child children ih =>
    obtain ⟨hchild, hrest⟩ := List.forall_mem_cons.1 hall
    unfold validateChildren
    rw [run_bind_ok hchild]
    exact ih hrest

/-- A tree in which everything is allowed passes the walk; the bound on the nesting is not met. -/
theorem run_validateStagingDirectory {depth : Nat} {relative : List Name}
    (hr : RealRoot home v root) (hl : fs.Looks home v)
    (hd : DirsTo (home ++ root.names) v relative)
    (hdir : v (home ++ root.names ++ relative) = some .dir)
    (hdepth : relative.length + depth = maxRelativePathBytes + 1)
    (hlen : relative.length ≤ maxRelativePathBytes)
    (hshort : ∀ p ∈ allowed.directories, p.length ≤ maxRelativePathBytes)
    (ha : AllowedBelow v (home ++ root.names) allowed relative) :
    (validateStagingDirectory root allowed depth relative).run machine fs = (.ok (), fs) := by
  induction depth generalizing relative with
  | zero => omega
  | succ depth ih =>
    obtain ⟨children, hexec, hmem⟩ := exec_readDir_dirs hl (hr.join_ne_empty relative)
      (hr.join_dirs hd) (by rw [place_join]; exact hdir)
    unfold validateStagingDirectory
    rw [run_ask_ok hexec]
    refine run_validateChildren fun child hchild => ?_
    rw [hmem, place_join, List.append_assoc] at hchild
    obtain ⟨s, hs⟩ := Option.ne_none_iff_exists'.1 hchild
    have hallowed := ha [child] (by simp) s hs
    refine run_validateChild hr hl (dirsTo_snoc hd hdir) hs hallowed ?_
    rintro rfl
    have hpath : Path.joined (relative ++ [child]) ∈ allowed.directories := hallowed
    have hle := Nat.le_trans (length_le_joined _) (hshort _ hpath)
    rw [List.length_append, List.length_singleton] at hle
    refine ih (dirsTo_snoc hd hdir) hs ?_ ?_ ?_
    · rw [List.length_append, List.length_singleton]
      omega
    · rw [List.length_append, List.length_singleton]
      exact hle
    · intro below hb s' hs'
      rw [List.append_assoc relative] at hs' ⊢
      exact ha _ (by simp) s' hs'

/-! ## The whole check -/

variable {m : Manifest}

/-- What the staging tree of a manifest may hold. -/
def allowedIn (m : Manifest) (allowPartialFiles : Bool) : Allowed :=
  ⟨m.directories, m.files, if allowPartialFiles then m.partialFiles else []⟩

/-- The staging tree holds all directories of the manifest and nothing that is not allowed. -/
structure StagedTree (v : View) (p : Loc) (m : Manifest) (allowPartialFiles : Bool) : Prop where
  dir : v p = some .dir
  directories : ∀ e ∈ m.entries, e.kind = .directory → v (p ++ pathFromBytes e.path) = some .dir
  allowed : AllowedBelow v p (allowedIn m allowPartialFiles) []

/-- The directories above an entry are real when the directory entries before it are. -/
theorem WellFormed.dirsTo {entries pre post : List ManifestEntry} {e : ManifestEntry} {p : Loc}
    (h : WellFormed entries) (he : entries = pre ++ e :: post) (hp : v p = some .dir)
    (hpre : ∀ d ∈ pre, d.kind = .directory → v (p ++ pathFromBytes d.path) = some .dir) :
    DirsTo p v (pathFromBytes e.path) := by
  intro k hk
  by_cases hzero : k = 0
  · subst hzero
    rw [List.take_zero, List.append_nil]
    exact hp
  · have hinit : (pathFromBytes e.path).take k ≠ [] := by
      rw [← List.length_pos_iff, List.length_take]
      omega
    have hrest : (pathFromBytes e.path).drop k ≠ [] := by
      rw [← List.length_pos_iff, List.length_drop]
      omega
    obtain ⟨d, hd, hkind, hnames⟩ :=
      h.parent_before he hinit hrest (List.take_append_drop _ _).symm
    rw [← hnames]
    exact hpre d hd hkind

theorem succeeds_requireDirectories {entries pre post : List ManifestEntry}
    (hw : WellFormed entries) (he : entries = pre ++ post) (hr : RealRoot home v root)
    (hl : fs.Looks home v)
    (hpre : ∀ d ∈ pre, d.kind = .directory →
      v (home ++ root.names ++ pathFromBytes d.path) = some .dir)
    (h : Succeeds machine refuse
      (eachDirectory (fun entry => requireRealDirectory (entryPath root entry)) post) fs () t) :
    t = fs ∧ ∀ d ∈ entries, d.kind = .directory →
      v (home ++ root.names ++ pathFromBytes d.path) = some .dir := by
  induction post generalizing pre with
  | nil =>
    rw [List.append_nil] at he
    exact ⟨(succeeds_done h).2, he ▸ hpre⟩
  | cons e post ih =>
    unfold eachDirectory at h
    have hdirs := hw.dirsTo he hr.dir hpre
    by_cases hk : e.kind = .directory
    · rw [if_pos hk] at h
      obtain ⟨_, u, hcheck, hrest⟩ := succeeds_bind h
      obtain ⟨rfl, hdir⟩ := dir_of_requireRealDirectory hl (hr.join_ne _) (hr.join_dirs hdirs) hcheck
      rw [place_join] at hdir
      have he' : entries = (pre ++ [e]) ++ post := by simp [he]
      refine ih he' ?_ hrest
      intro d hd hkd
      rcases List.mem_append.1 hd with hd | hd
      · exact hpre d hd hkd
      · rw [List.mem_singleton.1 hd]
        exact hdir
    · rw [if_neg hk] at h
      have he' : entries = (pre ++ [e]) ++ post := by simp [he]
      refine ih he' ?_ h
      intro d hd hkd
      rcases List.mem_append.1 hd with hd | hd
      · exact hpre d hd hkd
      · exact absurd (List.mem_singleton.1 hd ▸ hkd) hk

/-- The check succeeds only on a staged tree. -/
theorem stagedTree_of_validate {b : Bool} (hw : WellFormed m.entries) (hn : root.names ≠ [])
    (hd : DirsTo home v root.names) (hl : fs.Looks home v)
    (h : Succeeds machine refuse (validateStagingTree m root b) fs () t) :
    t = fs ∧ StagedTree v (home ++ root.names) m b := by
  obtain ⟨_, u, hroot, h₁⟩ := succeeds_bind h
  obtain ⟨rfl, hdir⟩ := dir_of_requireRealDirectory hl hn hd hroot
  have hr : RealRoot home v root := ⟨hn, hd, hdir⟩
  obtain ⟨_, w, hreal, h₂⟩ := succeeds_bind h₁
  obtain ⟨rfl, hdirs⟩ :=
    succeeds_requireDirectories hw (List.nil_append _).symm hr hl (by simp) hreal
  have hnil : DirsTo (home ++ root.names) v [] := dirsTo_nil v
  obtain ⟨ht, hallowed⟩ := allowed_of_validateStagingDirectory hr hl hnil
    (by rw [List.append_nil]; exact hdir) h₂
  exact ⟨ht, hdir, hdirs, hallowed⟩

theorem run_eachDirectory {check : ManifestEntry → FsProg Unit} {entries : List ManifestEntry}
    (hall : ∀ e ∈ entries, e.kind = .directory → (check e).run machine fs = (.ok (), fs)) :
    (eachDirectory check entries).run machine fs = (.ok (), fs) := by
  induction entries with
  | nil => rfl
  | cons e entries ih =>
    obtain ⟨he, hrest⟩ := List.forall_mem_cons.1 hall
    unfold eachDirectory
    by_cases hk : e.kind = .directory
    · rw [if_pos hk, run_bind_ok (he hk)]
      exact ih hrest
    · rw [if_neg hk]
      exact ih hrest

/-- The paths of directories are bounded. -/
theorem WellFormed.directories_short (hw : WellFormed m.entries) :
    ∀ p ∈ m.directories, p.length ≤ maxRelativePathBytes := by
  intro p hp
  obtain ⟨e, he, rfl⟩ := List.mem_map.1 hp
  exact (of_validateRelativePath (hw.path e (List.mem_filter.1 he).1)).2.1

/-- The check succeeds on every staged tree. -/
theorem run_validateStagingTree {b : Bool} (hw : WellFormed m.entries) (hn : root.names ≠ [])
    (hd : DirsTo home v root.names) (hl : fs.Looks home v)
    (h : StagedTree v (home ++ root.names) m b) :
    (validateStagingTree m root b).run machine fs = (.ok (), fs) := by
  have hr : RealRoot home v root := ⟨hn, hd, h.dir⟩
  unfold validateStagingTree
  rw [run_bind_ok (run_requireRealDirectory hl hn hd h.dir)]
  rw [run_bind_ok (run_eachDirectory fun e he hk => ?_)]
  · refine run_validateStagingDirectory hr hl (dirsTo_nil v) ?_ (Nat.zero_add _) (Nat.zero_le _)
      hw.directories_short h.allowed
    rw [List.append_nil]
    exact h.dir
  · have hdir := h.directories e he hk
    have hdirs : DirsTo (home ++ root.names) v (pathFromBytes e.path) := by
      rw [← hl.view_eq] at hdir ⊢
      exact dirsTo_of_view (by rw [hdir]; exact Option.some_ne_none _)
    refine run_requireRealDirectory hl (hr.join_ne _) (hr.join_dirs hdirs) ?_
    rw [place_entryPath]
    exact hdir

end PacketTide
