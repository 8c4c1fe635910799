import PacketTide.FileSystem.Proofs.ConfinedProofs

/-!
# Files beside a path

Where the directories above a path are real or missing, a file beside it is found at its own place or not at all. So
calls in the scope of such files change these files only, and make some of the missing directories.
-/

namespace FileSystem

open Node

namespace FS

variable {fs t : FS} {home p q : Loc} {path other : Path} {v : View} {suffixes replaced : List (List UInt8)}
  {s : List UInt8} {names : List Name}

/-! ## Paths -/

/-- Along directories that are real or missing a walk arrives at the place that its names spell, or it fails. -/
theorem walk_along (follow : Bool) (names : List Name)
    (h : ∀ k < names.length, fs.view (p ++ names.take k) = none ∨ fs.view (p ++ names.take k) = some .dir)
    (hlast : follow = true → ∀ target, fs.view (p ++ names) ≠ some (.link target)) :
    fs.walk follow p names = .found (p ++ names) ∧ DirsTo p fs.view names ∨ ∃ e, fs.walk follow p names = .failed e := by
  by_cases hdirs : DirsTo p fs.view names
  · exact .inl ⟨walk_real hdirs hlast, hdirs⟩
  · right
    induction names generalizing p with
    | nil => exact absurd (dirsTo_nil _) hdirs
    | cons n names ih =>
      have hp := h 0 (Nat.succ_pos _)
      rw [List.take_zero, List.append_nil] at hp
      rw [walk]
      rcases hp with hp | hp
      · rw [hp]
        exact ⟨_, rfl⟩
      · rw [hp]
        have hrest : ¬DirsTo (p ++ [n]) fs.view names := fun hd => hdirs (dirsTo_cons.2 ⟨hp, hd⟩)
        have hne : names ≠ [] := by
          rintro rfl
          exact hrest (dirsTo_nil _)
        have hnext := h 1 (by simpa using List.length_pos_of_ne_nil hne)
        have htail := ih (p := p ++ [n]) (fun k hk => by simpa using h (k + 1) (by simpa using hk))
          (by simpa using hlast) hrest
        rw [List.take_succ_cons, List.take_zero] at hnext
        rcases hnext with hnext | hnext
        · rw [hnext]
          exact htail
        · rw [hnext]
          exact htail

namespace Besides

/-- Nothing above the path is at the place of a file beside it. -/
theorem place_ne_above (home : Loc) (path : Path) (s : List UInt8) {k : Nat} (hk : k < path.names.length) :
    home ++ path.names.take k ≠ home ++ (path.appended s).names := by
  intro heq
  have hlen := congrArg List.length heq
  rw [List.length_append, List.length_append, length_appended, List.length_take] at hlen
  omega

/-- Names that lead to the place of a file beside the path, or to one above it. -/
theorem walk (h : fs.Besides home path suffixes replaced v) (follow : Bool)
    (hnames : ∀ k < names.length, ∃ j < path.names.length, names.take k = path.names.take j)
    (hlast : follow = true → ∀ target, fs.view (home ++ names) ≠ some (.link target)) :
    fs.walk follow home names = .found (home ++ names) ∧ DirsTo home fs.view names ∨
      ∃ e, fs.walk follow home names = .failed e := by
  refine walk_along follow names (fun k hk => ?_) hlast
  obtain ⟨j, hj, heq⟩ := hnames k hk
  rw [heq]
  exact h.above j hj

theorem resolve (h : fs.Besides home path suffixes replaced v) (follow : Bool)
    (hnames : ∀ k < other.names.length, ∃ j < path.names.length, other.names.take k = path.names.take j)
    (hlast : follow = true → ∀ target, fs.view (home ++ other.names) ≠ some (.link target)) :
    fs.resolve follow other = .ok (home ++ other.names) ∧ DirsTo home fs.view other.names ∨
      ∃ e, fs.resolve follow other = .error e := by
  unfold FS.resolve
  by_cases hempty : other = Path.empty
  · rw [if_pos hempty]
    exact .inr ⟨_, rfl⟩
  · rw [if_neg hempty, h.home_eq, resolveFrom]
    rcases h.walk follow hnames hlast with ⟨hw, hd⟩ | ⟨e, he⟩
    · rw [hw]
      exact .inl ⟨rfl, hd⟩
    · rw [he]
      exact .inr ⟨e, rfl⟩

theorem take_names_appended (h : fs.Besides home path suffixes replaced v) (s : List UInt8) (k : Nat)
    (hk : k < (path.appended s).names.length) :
    ∃ j < path.names.length, (path.appended s).names.take k = path.names.take j := by
  rw [length_appended] at hk
  exact ⟨k, hk, take_appended h.names_ne hk⟩

/-- A file beside the path that is worked on is a slot, or its directory is missing. -/
theorem slot (h : fs.Besides home path suffixes replaced v) (hs : s ∈ suffixes) (follow : Bool) :
    fs.resolve follow (path.appended s) = .ok (home ++ (path.appended s).names) ∧
        FileSlot home fs.view (path.appended s) ∨
      ∃ e, fs.resolve follow (path.appended s) = .error e := by
  have hleaf := h.leaf s hs
  refine (h.resolve follow (h.take_names_appended s) fun _ target hlink => ?_).imp_left fun hok =>
    ⟨hok.1, Path.appended_names_ne h.names_ne s, hok.2, hleaf⟩
  rw [hlink] at hleaf
  rcases hleaf with hnone | ⟨b, hfile⟩
  · cases hnone
  · cases hfile

/-- A directory above the path is found at its own place or not at all. -/
theorem resolve_above {k : Nat} (h : fs.Besides home path suffixes replaced v) (hk : k < path.names.length)
    (follow : Bool) :
    fs.resolve follow { path with names := path.names.take k } = .ok (home ++ path.names.take k) ∧
        DirsTo home fs.view (path.names.take k) ∨
      ∃ e, fs.resolve follow { path with names := path.names.take k } = .error e := by
  obtain ⟨above, habove⟩ : ∃ above : Path, above = { path with names := path.names.take k } := ⟨_, rfl⟩
  have hnames : above.names = path.names.take k := by rw [habove]
  rw [← habove, ← hnames]
  refine h.resolve follow (fun i hi => ?_) fun _ target hlink => ?_
  · rw [hnames, List.length_take] at hi
    refine ⟨i, by omega, ?_⟩
    rw [hnames, List.take_take, Nat.min_eq_left (by omega)]
  · rw [hnames] at hlink
    rcases h.above k hk with hview | hview
    · cases hview.symm.trans hlink
    · cases hview.symm.trans hlink

/-! ## Changes -/

/-- A change of files beside the path. -/
theorem change (h : fs.Besides home path suffixes replaced v) (hhome : t.home = fs.home)
    (hview : ∀ q, t.view q = fs.view q ∨
      (∃ s ∈ replaced ++ suffixes, q = home ++ (path.appended s).names) ∧ Leaf (t.view q)) :
    t.Besides home path suffixes replaced v := by
  have habove : ∀ k < path.names.length, t.view (home ++ path.names.take k) = fs.view (home ++ path.names.take k) := by
    intro k hk
    rcases hview (home ++ path.names.take k) with hsame | ⟨⟨s, -, hplace⟩, -⟩
    · exact hsame
    · exact absurd hplace (place_ne_above home path s hk)
  refine ⟨hhome.trans h.home_eq, ?_, h.names_ne, fun k hk => ?_, fun s hs => ?_, fun q => ?_⟩
  · have hhome' := habove 0 (List.length_pos_of_ne_nil h.names_ne)
    rw [List.take_zero, List.append_nil] at hhome'
    rw [hhome']
    exact h.home_dir
  · rw [habove k hk]
    exact h.above k hk
  · rcases hview (home ++ (path.appended s).names) with hsame | ⟨-, hleaf⟩
    · rw [hsame]
      exact h.leaf s hs
    · exact hleaf
  · rcases hview q with hsame | ⟨hplace, -⟩
    · rw [hsame]
      exact h.outside q
    · exact .inr (.inl hplace)

theorem same (h : fs.Besides home path suffixes replaced v) (hl : t.Looks fs.home fs.view) :
    t.Besides home path suffixes replaced v :=
  h.change hl.home_eq fun q => .inl (by rw [hl.view_eq])

theorem update (h : fs.Besides home path suffixes replaced v) (hs : s ∈ suffixes) {shape : Option Shape}
    (hshape : Leaf shape) (hl : t.Looks fs.home (Function.update fs.view (home ++ (path.appended s).names) shape)) :
    t.Besides home path suffixes replaced v := by
  refine h.change hl.home_eq fun q => ?_
  rw [hl.view_eq]
  by_cases hq : q = home ++ (path.appended s).names
  · refine .inr ⟨⟨s, List.mem_append_right _ hs, hq⟩, ?_⟩
    rw [hq, Function.update_self]
    exact hshape
  · rw [Function.update_of_ne hq]
    exact .inl rfl

/-- A directory above the path that was missing. -/
theorem made (h : fs.Besides home path suffixes replaced v) {k : Nat} (hk : k < path.names.length)
    (hnone : fs.view (home ++ path.names.take k) = none)
    (hl : t.Looks fs.home (Function.update fs.view (home ++ path.names.take k) (some .dir))) :
    t.Besides home path suffixes replaced v := by
  refine ⟨hl.home_eq.trans h.home_eq, ?_, h.names_ne, fun j hj => ?_, fun s hs => ?_, fun q => ?_⟩
  · rw [hl.view_eq, Function.update_of_ne]
    · exact h.home_dir
    · intro heq
      rw [← heq, h.home_dir] at hnone
      cases hnone
  · rw [hl.view_eq, Function.update_apply]
    split
    · exact .inr rfl
    · exact h.above j hj
  · rw [hl.view_eq, Function.update_of_ne (place_ne_above home path s hk).symm]
    exact h.leaf s hs
  · rw [hl.view_eq]
    by_cases hq : q = home ++ path.names.take k
    · rw [hq, Function.update_self]
      rcases h.outside (home ++ path.names.take k) with hsame | ⟨s, -, hplace⟩ | ⟨-, -, hdir⟩
      · rw [hnone] at hsame
        exact .inr (.inr ⟨⟨k, hk, rfl⟩, hsame.symm, rfl⟩)
      · exact absurd hplace (place_ne_above home path s hk)
      · rw [hnone] at hdir
        cases hdir
    · rw [Function.update_of_ne hq]
      exact h.outside q

/-- Nothing has changed yet. -/
theorem refl (h : fs.Besides home path suffixes replaced v) {replaced' : List (List UInt8)} :
    fs.Besides home path suffixes replaced' fs.view :=
  ⟨h.home_eq, h.home_dir, h.names_ne, h.above, h.leaf, fun _ => .inl rfl⟩

/-- What two parts of a run show together. -/
theorem trans (h : fs.Besides home path suffixes replaced v) (ht : t.Besides home path suffixes replaced fs.view) :
    t.Besides home path suffixes replaced v := by
  refine ⟨ht.home_eq, ht.home_dir, ht.names_ne, ht.above, ht.leaf, fun q => ?_⟩
  rcases ht.outside q with hsame | hplace | ⟨habove, hnone, hdir⟩
  · rw [hsame]
    exact h.outside q
  · exact .inr (.inl hplace)
  · rcases h.outside q with hsame | hplace | ⟨-, -, hdir'⟩
    · exact .inr (.inr ⟨habove, hsame.symm.trans hnone, hdir⟩)
    · exact .inr (.inl hplace)
    · rw [hnone] at hdir'
      cases hdir'

/-- Fewer files are moved to. -/
theorem mono (h : fs.Besides home path suffixes [] v) (replaced : List (List UInt8)) :
    fs.Besides home path suffixes replaced v := by
  refine ⟨h.home_eq, h.home_dir, h.names_ne, h.above, h.leaf, fun q => ?_⟩
  rcases h.outside q with hsame | ⟨s, hs, hplace⟩ | hdir
  · exact .inl hsame
  · exact .inr (.inl ⟨s, List.mem_append_right _ hs, hplace⟩)
  · exact .inr (.inr hdir)

/-- The path itself shows no change if it has no suffix that is worked on. -/
theorem view_path (h : fs.Besides home path suffixes [] v) (hs : ∀ s ∈ suffixes, s ≠ [] ∧ 47 ∉ s) :
    fs.view (home ++ path.names) = v (home ++ path.names) := by
  rcases h.outside (home ++ path.names) with hsame | ⟨s, hmem, hplace⟩ | ⟨⟨k, hk, hplace⟩, -⟩
  · exact hsame
  · obtain ⟨hne, hslash⟩ := hs s (by simpa using hmem)
    have happended := @appended_ne home _ _ _ h.names_ne List.not_mem_nil hslash (Ne.symm hne)
    rw [appended_nil] at happended
    exact absurd hplace happended
  · have habove := place_ne_above home path [] hk
    rw [appended_nil] at habove
    exact absurd hplace.symm habove

/-! ## The calls -/

theorem store (h : fs.Besides home path suffixes replaced v) (hs : s ∈ suffixes) (f : List UInt8 → List UInt8) :
    (fs.store (home ++ (path.appended s).names) f).Besides home path suffixes replaced v := by
  rcases h.leaf s hs with hnone | ⟨b, hfile⟩
  · refine h.same ⟨home_store _ _ _, ?_⟩
    rw [FS.store, get_of_view_none hnone]
  · exact h.update hs (leaf_file (f b)) ⟨home_store _ _ _, view_store hfile f⟩

theorem openAt (h : fs.Besides home path suffixes replaced v) (hs : s ∈ suffixes)
    (hslot : FileSlot home fs.view (path.appended s)) (o : OpenOptions) :
    (fs.openAt (home ++ (path.appended s).names) o).2.Besides home path suffixes replaced v := by
  unfold FS.openAt
  rcases h.leaf s hs with hnone | ⟨b, hfile⟩
  · rw [get_of_view_none hnone]
    dsimp only
    split
    · exact h.update hs (leaf_file []) ⟨rfl, (view_touch _ _).trans
        (view_put_leaf hslot.place_ne hslot.parent hslot.not_dir rfl)⟩
    · exact h
  · obtain ⟨a, hget⟩ := get_of_view_file hfile
    rw [hget]
    dsimp only
    split_ifs with hnew hdir htruncate
    · exact h
    · exact h
    · exact h.store hs _
    · exact h

theorem openFile (h : fs.Besides home path suffixes replaced v) (hpath : path.Suffixed suffixes other)
    (o : OpenOptions) : (exec (.openFile other o) fs).2.Besides home path suffixes replaced v := by
  obtain ⟨s, hs, rfl⟩ := hpath
  rw [FS.exec]
  rcases h.slot hs (!(o.nofollow || o.createNew)) with ⟨hok, hslot⟩ | ⟨e, he⟩
  · rw [hok]
    exact h.openAt hs hslot o
  · rw [he]
    exact h

theorem opened (h : fs.Besides home path suffixes replaced v) (hpath : path.Suffixed suffixes other)
    {o : OpenOptions} (hq : (exec (.openFile other o) fs).1 = .ok q) :
    ∃ s ∈ suffixes, q = home ++ (path.appended s).names := by
  obtain ⟨s, hs, rfl⟩ := hpath
  rcases h.slot hs (!(o.nofollow || o.createNew)) with ⟨hok, -⟩ | ⟨e, he⟩
  · exact ⟨s, hs, exec_openFile_eq_ok hok (Prod.ext hq rfl)⟩
  · rw [FS.exec, he] at hq
    cases hq

/-- Making a directory above the path makes it, if it was missing, or it fails. -/
theorem createDir_cases {k : Nat} (h : fs.Besides home path suffixes replaced v) (hk : k < path.names.length) :
    (∃ t, exec (.createDir { path with names := path.names.take k }) fs = (.ok (), t) ∧
      fs.view (home ++ path.names.take k) = none ∧
      t.Looks fs.home (Function.update fs.view (home ++ path.names.take k) (some .dir))) ∨
    ∃ e, exec (.createDir { path with names := path.names.take k }) fs = (.error e, fs) := by
  rcases h.resolve_above hk false with ⟨hok, hd⟩ | ⟨e, he⟩
  · rcases h.above k hk with hnone | hdir
    · have hne : path.names.take k ≠ [] := by
        intro hnil
        rw [hnil, List.append_nil, h.home_dir] at hnone
        cases hnone
      have hparent : fs.view (home ++ path.names.take k).dropLast = some .dir :=
        @parent_of_dirs _ _ { path with names := path.names.take k } hne hd
      obtain ⟨t, hexec, hhome, hview⟩ := exec_createDir hok (List.append_ne_nil_of_right_ne_nil _ hne) hparent hnone
      exact .inl ⟨t, hexec, hnone, hhome, hview⟩
    · obtain ⟨a, cs, hget⟩ := get_of_view_dir hdir
      change fs.root.get _ = _ at hget
      exact .inr ⟨.alreadyExists, by simp only [FS.exec, hok, hget]⟩
  · exact .inr ⟨e, by rw [FS.exec, he]⟩

theorem createDir (h : fs.Besides home path suffixes replaced v) (hpath : path.Above other) :
    (exec (.createDir other) fs).2.Besides home path suffixes replaced v := by
  obtain ⟨k, hk, rfl⟩ := hpath
  rcases h.createDir_cases hk with ⟨t, hexec, hnone, hlooks⟩ | ⟨e, hexec⟩
  · rw [hexec]
    exact h.made hk hnone hlooks
  · rw [hexec]
    exact h

theorem removeFile (h : fs.Besides home path suffixes replaced v) (hpath : path.Suffixed suffixes other) :
    (exec (.removeFile other) fs).2.Besides home path suffixes replaced v := by
  obtain ⟨s, hs, rfl⟩ := hpath
  rcases h.slot hs false with ⟨hok, hslot⟩ | ⟨e, he⟩
  · rcases h.leaf s hs with hnone | ⟨b, hfile⟩
    · rw [exec_removeFile_absent hok hnone]
      exact h
    · obtain ⟨t, hexec, hhome, hview⟩ := exec_removeFile hok hslot.place_ne hfile (by rintro ⟨⟩)
      rw [hexec]
      exact h.update hs leaf_none ⟨hhome, hview⟩
  · rw [FS.exec, he]
    exact h

theorem move_self (fs : FS) (p : Loc) : (fs.move p p).2 = fs := by
  unfold FS.move
  split
  · rfl
  · rw [if_pos rfl]

theorem rename {target : Path} (h : fs.Besides home path suffixes replaced v) (hpath : path.Suffixed suffixes other)
    (htarget : path.Suffixed (replaced ++ suffixes) target) :
    (exec (.rename other target) fs).2.Besides home path suffixes replaced v := by
  obtain ⟨s, hs, rfl⟩ := hpath
  obtain ⟨s', hs', rfl⟩ := htarget
  rcases h.slot hs false with ⟨hok, hslot⟩ | ⟨e, he⟩
  · rcases h.resolve false (h.take_names_appended s') (fun hf => by cases hf) with ⟨hok', hd⟩ | ⟨e, he⟩
    · have hne := Path.appended_names_ne h.names_ne s'
      by_cases heq : home ++ (path.appended s).names = home ++ (path.appended s').names
      · rw [FS.exec, hok, hok', ← heq]
        dsimp only
        rw [move_self]
        exact h
      · rcases h.leaf s hs with hnone | ⟨b, hfile⟩
        · rw [FS.exec, hok, hok']
          dsimp only
          rw [FS.move, get_of_view_none hnone]
          exact h
        · by_cases hdir : fs.view (home ++ (path.appended s').names) = some .dir
          · rw [exec_rename_file_dir hok hok' hfile hdir fun hpre => heq (hpre.eq_of_length ?_)]
            · exact h
            · rw [List.length_append, List.length_append, length_appended, length_appended]
          · obtain ⟨t, hexec, hhome, hview⟩ := exec_rename_file hok hok' hslot.place_ne
              (List.append_ne_nil_of_right_ne_nil _ hne) (parent_of_dirs hne hd) hfile hdir heq
            rw [hexec]
            refine h.change hhome fun q => ?_
            rw [hview]
            by_cases hq : q = home ++ (path.appended s').names
            · refine .inr ⟨⟨s', hs', hq⟩, ?_⟩
              rw [hq, Function.update_self]
              exact leaf_file b
            · rw [Function.update_of_ne hq]
              by_cases hq' : q = home ++ (path.appended s).names
              · refine .inr ⟨⟨s, List.mem_append_right _ hs, hq'⟩, ?_⟩
                rw [hq', Function.update_self]
                exact leaf_none
              · rw [Function.update_of_ne hq']
                exact .inl rfl
    · rw [FS.exec, hok, he]
      exact h
  · rw [FS.exec, he]
    exact h

/-- A file that has been moved is where it was moved to. -/
theorem view_renamed {s' : List UInt8} {b : List UInt8} (h : fs.Besides home path suffixes replaced v) (hs : s ∈ suffixes)
    (hfile : fs.view (home ++ (path.appended s).names) = some (.file b))
    (hexec : exec (.rename (path.appended s) (path.appended s')) fs = (.ok (), t)) :
    t.view (home ++ (path.appended s').names) = some (.file b) := by
  have hne := Path.appended_names_ne h.names_ne s'
  rcases h.slot hs false with ⟨hok, hslot⟩ | ⟨e, he⟩
  · rcases h.resolve false (h.take_names_appended s') (fun hf => by cases hf) with ⟨hok', hd⟩ | ⟨e, he⟩
    · by_cases heq : home ++ (path.appended s).names = home ++ (path.appended s').names
      · rw [FS.exec, hok, hok', ← heq] at hexec
        dsimp only at hexec
        have hsame : t = fs := by
          rw [← move_self fs, hexec]
        rw [← heq, hsame]
        exact hfile
      · by_cases hdir : fs.view (home ++ (path.appended s').names) = some .dir
        · rw [exec_rename_file_dir hok hok' hfile hdir fun hpre => heq (hpre.eq_of_length ?_)] at hexec
          · cases hexec
          · rw [List.length_append, List.length_append, length_appended, length_appended]
        · obtain ⟨u, hexec', -, hview⟩ := exec_rename_file hok hok' hslot.place_ne
            (List.append_ne_nil_of_right_ne_nil _ hne) (parent_of_dirs hne hd) hfile hdir heq
          rw [hexec] at hexec'
          cases hexec'
          rw [hview, Function.update_self]
    · rw [FS.exec, hok, he] at hexec
      cases hexec
  · rw [FS.exec, he] at hexec
    cases hexec

/-- A directory that has been made above the path is there. -/
theorem view_created (h : fs.Besides home path suffixes replaced v) (hpath : path.Above other)
    (hexec : exec (.createDir other) fs = (.ok (), t)) : t.view (home ++ other.names) = some .dir := by
  obtain ⟨k, hk, rfl⟩ := hpath
  rcases h.createDir_cases hk with ⟨u, hexec', -, hlooks⟩ | ⟨e, hexec'⟩
  · cases hexec.symm.trans hexec'
    rw [hlooks.view_eq, Function.update_self]
  · cases hexec.symm.trans hexec'

/-- What is a directory above the path by its metadata is one. -/
theorem view_of_stat (h : fs.Besides home path suffixes replaced v) (hpath : path.Above other) {metadata : Metadata}
    (hstat : (exec (.stat other) fs).1 = .ok metadata) (hdir : metadata.fileType = .dir) :
    fs.view (home ++ other.names) = some .dir := by
  obtain ⟨k, hk, rfl⟩ := hpath
  rcases h.resolve_above hk true with ⟨hok, -⟩ | ⟨e, he⟩
  · rw [exec_stat hok] at hstat
    obtain ⟨shape, hview, htype, -⟩ := metadataAt_eq_ok hstat
    rw [hdir] at htype
    cases shape with
    | dir => exact hview
    | _ => cases htype
  · rw [FS.exec, he] at hstat
    cases hstat

/-- A call in the scope of the files beside the path leaves these in order. -/
theorem answered {c : FsCall} (h : fs.Besides home path suffixes replaced v)
    (hc : c.Confined (.beside home path suffixes replaced)) :
    c.Promised (.beside home path suffixes replaced) (exec c fs).1 ∧
      (exec c fs).2.Besides home path suffixes replaced v := by
  have hkeeps : ∀ c : FsCall, c.KeepsView → (exec c fs).2.Besides home path suffixes replaced v :=
    fun c hc => h.same (looks_exec hc fs.looks_self)
  cases c with
  | openFile other o =>
    refine ⟨fun hwork q hq => h.opened hwork hq, ?_⟩
    rcases hc with hread | hwork
    · exact hkeeps _ hread
    · exact h.openFile hwork o
  | createDir other => exact ⟨fun hthere => hthere.elim, h.createDir hc⟩
  | removeFile other => exact ⟨trivial, h.removeFile hc⟩
  | rename source target => exact ⟨trivial, h.rename hc.1 hc.2⟩
  | setLen p len =>
    obtain ⟨s, hs, rfl⟩ := hc
    exact ⟨trivial, h.store hs _⟩
  | write p bytes =>
    obtain ⟨s, hs, rfl⟩ := hc
    exact ⟨trivial, h.store hs _⟩
  | writeAt p offset bytes =>
    obtain ⟨s, hs, rfl⟩ := hc
    exact ⟨trivial, h.store hs _⟩
  | lstat other => exact ⟨trivial, h⟩
  | stat other => exact ⟨trivial, h⟩
  | fstat p => exact ⟨trivial, h⟩
  | sync p => exact ⟨trivial, h⟩
  | setPermissions p mode => exact ⟨trivial, hkeeps _ trivial⟩
  | setTimes p modified => exact ⟨trivial, hkeeps _ trivial⟩
  | readToEnd p => exact ⟨trivial, hkeeps _ trivial⟩
  | readAt p offset count => exact ⟨trivial, hkeeps _ trivial⟩
  | readDir other => exact ⟨trivial, hkeeps _ trivial⟩

theorem torn {c : FsCall} (h : fs.Besides home path suffixes replaced v)
    (hc : c.Confined (.beside home path suffixes replaced)) (ht : Torn c fs t) :
    t.Besides home path suffixes replaced v := by
  cases ht with
  | write p bytes n =>
    obtain ⟨s, hs, rfl⟩ := hc
    exact h.store hs _
  | writeAt p offset bytes n =>
    obtain ⟨s, hs, rfl⟩ := hc
    exact h.store hs _

end Besides

end FS

end FileSystem
