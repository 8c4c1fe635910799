import PacketTide.FileSystem.Proofs.CallProofs

/-!
# Slots for files

A slot is a path that names nothing or a regular file and is reached through real directories only.
The calls that programs make on slots always succeed; each is described by the view it leaves.
-/

namespace FileSystem

open Node

namespace Path

variable {p : Path} {s : List UInt8}

theorem names_appended (hp : p.names ≠ []) (s : List UInt8) :
    (p.appended s).names = p.names.dropLast ++ [(p.names.getLast hp).append s] := by
  simp [appended, List.getLast?_eq_getLast_of_ne_nil hp]

theorem base_appended (p : Path) (s : List UInt8) : (p.appended s).base = p.base := by
  unfold appended
  split <;> rfl

theorem appended_names_ne (hp : p.names ≠ []) (s : List UInt8) : (p.appended s).names ≠ [] := by
  simp [names_appended hp]

theorem dropLast_appended (p : Path) (s : List UInt8) :
    (p.appended s).names.dropLast = p.names.dropLast := by
  by_cases hp : p.names = []
  · simp [appended, hp]
  · simp [names_appended hp]

end Path

theorem Name.bytes_append {n : Name} {s : List UInt8} (hs : 47 ∉ s) :
    (n.append s).bytes = n.bytes ++ s := by
  simp [append, hs]

theorem Name.ext {n m : Name} (h : n.bytes = m.bytes) : n = m := by
  cases n
  cases m
  cases h
  rfl

theorem FS.looks_self (fs : FS) : fs.Looks fs.home fs.view := ⟨rfl, rfl⟩

variable {fs : FS} {home : Loc} {v : View} {path : Path} {p q : Loc} {b : List UInt8}

theorem dropLast_place (hp : path.names ≠ []) :
    (home ++ path.names).dropLast = home ++ path.names.take (path.names.length - 1) := by
  rw [List.dropLast_append_of_ne_nil hp, List.dropLast_eq_take]

theorem FileSlot.parent (h : FileSlot home v path) :
    v (home ++ path.names).dropLast = some .dir := by
  have := List.length_pos_of_ne_nil h.names_ne
  rw [dropLast_place h.names_ne]
  exact h.dirs _ (by omega)

theorem FileSlot.place_ne (h : FileSlot home v path) : home ++ path.names ≠ [] := by
  simp [h.names_ne]

theorem Leaf.not_dir {s : Option Shape} (h : Leaf s) : s ≠ some .dir := by
  rcases h with rfl | ⟨b, rfl⟩ <;> simp

theorem leaf_none : Leaf none := Or.inl rfl

theorem leaf_file (b : List UInt8) : Leaf (some (.file b)) := Or.inr ⟨b, rfl⟩

theorem FileSlot.not_dir (h : FileSlot home v path) : v (home ++ path.names) ≠ some .dir :=
  h.leaf.not_dir

theorem FileSlot.path_ne (h : FileSlot home v path) : path ≠ Path.empty := by
  rintro rfl
  exact h.names_ne rfl

theorem dirsTo_append {a b : List Name} :
    DirsTo home v (a ++ b) ↔ DirsTo home v a ∧ DirsTo (home ++ a) v b := by
  constructor
  · intro h
    refine ⟨fun k hk => ?_, fun k hk => ?_⟩
    · have hk' := h k (by rw [List.length_append]; omega)
      rwa [List.take_append_of_le_length (by omega)] at hk'
    · have hk' := h (a.length + k) (by rw [List.length_append]; omega)
      rwa [List.take_length_add_append, ← List.append_assoc] at hk'
  · rintro ⟨ha, hb⟩ k hk
    rw [List.length_append] at hk
    rcases Nat.lt_or_ge k a.length with hlt | hge
    · rw [List.take_append_of_le_length (by omega)]
      exact ha k hlt
    · obtain ⟨j, rfl⟩ := Nat.exists_eq_add_of_le hge
      rw [List.take_length_add_append, ← List.append_assoc]
      exact hb j (by omega)

theorem dirsTo_singleton {n : Name} : DirsTo home v [n] ↔ v home = some .dir := by
  constructor
  · intro h
    simpa using h 0 (by simp)
  · intro h k hk
    obtain rfl : k = 0 := Nat.lt_one_iff.1 hk
    simpa using h

/-- Directories on the way to a path stay when something that is no directory changes. -/
theorem dirs_update {names : List Name} {s : Option Shape}
    (h : DirsTo home v names) (hq : v q ≠ some .dir) :
    DirsTo home (Function.update v q s) names := by
  intro k hk
  rw [Function.update_of_ne, h k hk]
  rintro rfl
  exact hq (h k hk)

/-- A slot stays one when a file or nothing is put at a place that holds no directory. -/
theorem FileSlot.update {s : Option Shape} (h : FileSlot home v path) (hq : v q ≠ some .dir)
    (hs : Leaf s) : FileSlot home (Function.update v q s) path := by
  refine ⟨h.names_ne, dirs_update h.dirs hq, ?_⟩
  by_cases he : home ++ path.names = q
  · subst he
    simpa using hs
  · rw [Function.update_of_ne he]
    exact h.leaf

theorem take_appended {s : List UInt8} (hp : path.names ≠ []) {k : Nat}
    (hk : k < path.names.length) : (path.appended s).names.take k = path.names.take k := by
  have hlen : k ≤ path.names.dropLast.length := by
    rw [List.length_dropLast]
    omega
  rw [Path.names_appended hp, List.take_append_of_le_length hlen]
  nth_rewrite 2 [← List.dropLast_append_getLast hp]
  rw [List.take_append_of_le_length hlen]

theorem length_appended (path : Path) (s : List UInt8) :
    (path.appended s).names.length = path.names.length := by
  by_cases hp : path.names = []
  · simp [Path.appended, hp]
  · have := List.length_pos_of_ne_nil hp
    rw [Path.names_appended hp, List.length_append, List.length_dropLast, List.length_singleton]
    omega

/-- The siblings of a path lie in the same directories. -/
theorem dirs_appended {s : List UInt8} (hp : path.names ≠ [])
    (h : DirsTo home v path.names) : DirsTo home v (path.appended s).names := by
  intro k hk
  rw [length_appended] at hk
  rw [take_appended hp hk]
  exact h k hk

/-- Siblings with different suffixes lie at different places. -/
theorem appended_ne {s s' : List UInt8} (hp : path.names ≠ []) (hs : 47 ∉ s) (hs' : 47 ∉ s')
    (hne : s ≠ s') : home ++ (path.appended s).names ≠ home ++ (path.appended s').names := by
  rw [Path.names_appended hp, Path.names_appended hp]
  intro h
  have hn := (List.append_inj' (List.append_cancel_left h) rfl).2
  have hb := congrArg Name.bytes (List.cons.inj hn).1
  rw [Name.bytes_append hs, Name.bytes_append hs'] at hb
  exact hne (List.append_cancel_left hb)

theorem appended_nil (path : Path) : path.appended [] = path := by
  unfold Path.appended
  split
  next n hn =>
    obtain ⟨init, hi⟩ := List.getLast?_eq_some_iff.1 hn
    have hname : n.append [] = n := Name.ext (by simp [Name.append])
    cases path
    simp_all
  next => rfl

theorem appended_appended {s s' : List UInt8} (hs : 47 ∉ s) (hs' : 47 ∉ s') (path : Path) :
    (path.appended s).appended s' = path.appended (s ++ s') := by
  have hss : 47 ∉ s ++ s' := by simp [hs, hs']
  by_cases hp : path.names = []
  · simp [Path.appended, hp]
  · have hp' := Path.appended_names_ne hp s
    have hn := Path.names_appended hp' s'
    have hlast : (path.appended s).names.getLast hp' = (path.names.getLast hp).append s := by
      simp [Path.names_appended hp]
    rw [hlast, Path.dropLast_appended] at hn
    have hname : ((path.names.getLast hp).append s).append s' =
        (path.names.getLast hp).append (s ++ s') := by
      apply Name.ext
      rw [Name.bytes_append hs', Name.bytes_append hs, Name.bytes_append hss, List.append_assoc]
    have hnames : ((path.appended s).appended s').names = (path.appended (s ++ s')).names := by
      rw [hn, hname, Path.names_appended hp]
    have hpre : ((path.appended s).appended s').base = (path.appended (s ++ s')).base := by
      rw [Path.base_appended, Path.base_appended, Path.base_appended]
    exact congrArg₂ Path.mk hpre hnames

/-! ## Calls on slots -/

namespace FS

theorem resolve_slot {follow : Bool} (hl : fs.Looks home v) (h : FileSlot home v path) :
    fs.resolve follow path = .ok (home ++ path.names) := by
  obtain ⟨rfl, rfl⟩ := hl
  refine resolve_real h.path_ne h.dirs fun _ target ht => ?_
  rcases h.leaf with hv | ⟨b, hv⟩ <;> simp [hv] at ht

theorem exec_create_slot {mode : Nat} (hl : fs.Looks home v) (h : FileSlot home v path) :
    ∃ t, exec (.openFile path { write := true, create := true, truncate := true, mode := mode }) fs
        = (.ok (home ++ path.names), t) ∧
      t.Looks home (Function.update v (home ++ path.names) (some (.file []))) := by
  have hr : fs.resolve true path = .ok (home ++ path.names) := resolve_slot hl h
  obtain ⟨rfl, rfl⟩ := hl
  obtain ⟨t, ht, hh, hv⟩ :=
    exec_openFile_create (o := { write := true, create := true, truncate := true, mode := mode })
      rfl rfl rfl rfl hr h.place_ne h.parent h.leaf
  exact ⟨t, ht, hh, hv⟩

theorem exec_keep_slot (hl : fs.Looks home v) (h : FileSlot home v path)
    (hv : v (home ++ path.names) = some (.file b)) (write : Bool) :
    exec (.openFile path { write := write }) fs = (.ok (home ++ path.names), fs) := by
  have hr : fs.resolve true path = .ok (home ++ path.names) := resolve_slot hl h
  obtain ⟨rfl, rfl⟩ := hl
  exact exec_openFile_keep rfl rfl rfl hr hv

theorem exec_open_absent (hl : fs.Looks home v) (h : FileSlot home v path)
    (hv : v (home ++ path.names) = none) (write : Bool) :
    exec (.openFile path { write := write }) fs = (.error .notFound, fs) := by
  have hr : fs.resolve true path = .ok (home ++ path.names) := resolve_slot hl h
  obtain ⟨rfl, rfl⟩ := hl
  exact exec_openFile_absent rfl rfl hr hv

theorem exec_fstat_file (hl : fs.Looks home v) (hv : v p = some (.file b)) :
    ∃ a, exec (.fstat p) fs = (.ok ⟨.file, b.length, some a⟩, fs) := by
  obtain ⟨rfl, rfl⟩ := hl
  obtain ⟨a, ha⟩ := metadataAt_file hv
  exact ⟨a, by simp only [exec, ha]⟩

theorem exec_readToEnd_file (hl : fs.Looks home v) (hv : v p = some (.file b)) : exec (.readToEnd p) fs = (.ok b, fs) := by
  obtain ⟨rfl, rfl⟩ := hl
  exact exec_readToEnd hv

theorem exec_stat_slot (hl : fs.Looks home v) (h : FileSlot home v path) :
    exec (.stat path) fs = (fs.metadataAt (home ++ path.names), fs) :=
  exec_stat (resolve_slot hl h)

theorem exec_write_file (hl : fs.Looks home v) (hv : v p = some (.file b))
    (bytes : List UInt8) :
    ∃ t, exec (.write p bytes) fs = (.ok (), t) ∧
      t.Looks home (Function.update v p (some (.file (b ++ bytes)))) := by
  obtain ⟨rfl, rfl⟩ := hl
  exact ⟨_, rfl, home_store _ _ _, view_store hv _⟩

theorem exec_writeAt_file (hl : fs.Looks home v) (hv : v p = some (.file b))
    (offset : Nat) (bytes : List UInt8) :
    ∃ t, exec (.writeAt p offset bytes) fs = (.ok (), t) ∧
      t.Looks home (Function.update v p (some (.file (splice offset bytes b)))) := by
  obtain ⟨rfl, rfl⟩ := hl
  exact ⟨_, rfl, home_store _ _ _, view_store hv _⟩

theorem exec_setLen_file (hl : fs.Looks home v) (hv : v p = some (.file b))
    (len : Nat) :
    ∃ t, exec (.setLen p len) fs = (.ok (), t) ∧
      t.Looks home (Function.update v p (some (.file (resize len b)))) := by
  obtain ⟨rfl, rfl⟩ := hl
  exact ⟨_, rfl, home_store _ _ _, view_store hv _⟩

theorem exec_remove_slot (hl : fs.Looks home v) (h : FileSlot home v path)
    (hv : v (home ++ path.names) = some (.file b)) :
    ∃ t, exec (.removeFile path) fs = (.ok (), t) ∧
      t.Looks home (Function.update v (home ++ path.names) none) := by
  have hr : fs.resolve false path = .ok (home ++ path.names) := resolve_slot hl h
  obtain ⟨rfl, rfl⟩ := hl
  obtain ⟨t, ht, hh, hw⟩ := exec_removeFile hr h.place_ne hv (by simp)
  exact ⟨t, ht, hh, hw⟩

theorem exec_remove_absent (hl : fs.Looks home v) (h : FileSlot home v path)
    (hv : v (home ++ path.names) = none) :
    exec (.removeFile path) fs = (.error .notFound, fs) := by
  have hr : fs.resolve false path = .ok (home ++ path.names) := resolve_slot hl h
  obtain ⟨rfl, rfl⟩ := hl
  exact exec_removeFile_absent hr hv

/-- A path through real directories is resolved without following what is at its end. -/
theorem resolve_dirs (hl : fs.Looks home v) (hn : path.names ≠ [])
    (h : DirsTo home v path.names) :
    fs.resolve false path = .ok (home ++ path.names) := by
  obtain ⟨rfl, rfl⟩ := hl
  refine resolve_real ?_ h (by simp)
  rintro rfl
  exact hn rfl

theorem resolve_dirs_follow (hl : fs.Looks home v) (hn : path ≠ Path.empty)
    (h : DirsTo home v path.names) (hv : ∀ target, v (home ++ path.names) ≠ some (.link target)) :
    fs.resolve true path = .ok (home ++ path.names) := by
  obtain ⟨rfl, rfl⟩ := hl
  exact resolve_real hn h fun _ => hv

theorem exec_lstat_dirs (hl : fs.Looks home v) (hn : path.names ≠ []) (h : DirsTo home v path.names) :
    exec (.lstat path) fs = (fs.metadataAt (home ++ path.names), fs) :=
  exec_lstat (resolve_dirs hl hn h)

/-- Reading a directory yields the names under which something lies in it. -/
theorem exec_readDir_dirs (hl : fs.Looks home v) (hn : path ≠ Path.empty)
    (h : DirsTo home v path.names) (hv : v (home ++ path.names) = some .dir) :
    ∃ children : List Name, exec (.readDir path) fs = (.ok children, fs) ∧
      ∀ n, n ∈ children ↔ v (home ++ path.names ++ [n]) ≠ none := by
  have hr := resolve_dirs_follow hl hn h (by simp [hv])
  obtain ⟨rfl, rfl⟩ := hl
  obtain ⟨a, cs, hg⟩ := get_of_view_dir hv
  refine ⟨cs.map Prod.fst, ?_, mem_children_iff hg⟩
  simp only [exec, hr, hg]

theorem parent_of_dirs (hn : path.names ≠ [])
    (h : DirsTo home v path.names) :
    v (home ++ path.names).dropLast = some .dir := by
  have := List.length_pos_of_ne_nil hn
  rw [dropLast_place hn]
  exact h _ (by omega)

theorem exec_rename_slot {target : Path} (hl : fs.Looks home v) (h : FileSlot home v path)
    (hn : target.names ≠ [])
    (hd : DirsTo home v target.names)
    (hv : v (home ++ path.names) = some (.file b)) (hw : v (home ++ target.names) ≠ some .dir)
    (hne : home ++ path.names ≠ home ++ target.names) :
    ∃ t, exec (.rename path target) fs = (.ok (), t) ∧
      t.Looks home (Function.update (Function.update v (home ++ path.names) none)
        (home ++ target.names) (some (.file b))) := by
  have hr : fs.resolve false path = .ok (home ++ path.names) := resolve_slot hl h
  have hr' := resolve_dirs hl hn hd
  obtain ⟨rfl, rfl⟩ := hl
  obtain ⟨t, ht, hh, hv⟩ := exec_rename_file hr hr' h.place_ne (by simp [hn])
    (parent_of_dirs hn hd) hv hw hne
  exact ⟨t, ht, hh, hv⟩

theorem exec_rename_slot_dir {target : Path} (hl : fs.Looks home v) (h : FileSlot home v path)
    (hn : target.names ≠ [])
    (hd : DirsTo home v target.names)
    (hv : v (home ++ path.names) = some (.file b)) (hw : v (home ++ target.names) = some .dir)
    (hlen : path.names.length = target.names.length) :
    exec (.rename path target) fs = (.error .isADirectory, fs) := by
  have hr : fs.resolve false path = .ok (home ++ path.names) := resolve_slot hl h
  have hr' := resolve_dirs hl hn hd
  obtain ⟨rfl, rfl⟩ := hl
  refine exec_rename_file_dir hr hr' hv hw fun hp => ?_
  have he := hp.eq_of_length (by simp [hlen])
  rw [he, hw] at hv
  cases hv

end FS

end FileSystem
