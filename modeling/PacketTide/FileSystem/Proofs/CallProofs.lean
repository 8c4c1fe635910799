import Mathlib.Logic.Function.Basic
import PacketTide.FileSystem.View
import PacketTide.FileSystem.Proofs.TreeProofs

/-!
# What each call does to the view of a file system

Every specification has the same form: the call is answered so and so, `home` stays, and the view
is the old one updated at the places that the call changes. Metadata does not show.
-/

namespace FileSystem

open Node

namespace FS

variable {fs : FS} {p q : Loc} {s : Shape} {b : List UInt8}

theorem view_dir_of_below (hq : q ≠ []) (h : fs.view (p ++ q) ≠ none) : fs.view p = some .dir :=
  Node.view_dir_of_below hq h

theorem view_parent {n : Name} (h : fs.view (p ++ [n]) ≠ none) : fs.view p = some .dir :=
  view_dir_of_below (by simp) h

/-- Nothing lies below a place that is not a directory. -/
theorem view_below_none (hp : fs.view p ≠ some .dir) (hq : q ≠ []) : fs.view (p ++ q) = none := by
  by_contra h
  exact hp (view_dir_of_below hq h)

/-! ## The changes a call is made of -/

@[simp] theorem view_touch (fs : FS) (p : Loc) : (fs.touch p).view = fs.view :=
  funext fun q => view_alter_attr _ fs.root p q

@[simp] theorem home_touch (fs : FS) (p : Loc) : (fs.touch p).home = fs.home := rfl

@[simp] theorem home_put (fs : FS) (p : Loc) (v : Node) : (fs.put p v).home = fs.home := rfl

@[simp] theorem home_erase (fs : FS) (p : Loc) : (fs.erase p).home = fs.home := rfl

@[simp] theorem home_store (fs : FS) (p : Loc) (f : List UInt8 → List UInt8) :
    (fs.store p f).home = fs.home := by
  unfold store
  split <;> rfl

theorem view_put (hp : p ≠ []) (hd : fs.view p.dropLast = some .dir) (v : Node) (r : Loc) :
    (fs.put p v).view r = if p <+: r then v.view (r.drop p.length) else fs.view r :=
  view_alter hp hd r

theorem view_erase (hp : p ≠ []) (hd : fs.view p.dropLast = some .dir) (r : Loc) :
    (fs.erase p).view r = if p <+: r then none else fs.view r :=
  view_alter hp hd r

theorem view_dropLast_of_ne_none (hp : p ≠ []) (h : fs.view p ≠ none) :
    fs.view p.dropLast = some .dir := by
  have hl := List.dropLast_append_getLast hp
  rw [← hl] at h
  exact view_parent h

/-- An object without children, put where there was nothing or something without children. -/
theorem view_put_leaf (hp : p ≠ []) (hd : fs.view p.dropLast = some .dir)
    (hq : fs.view p ≠ some .dir) {v : Node} (hv : v.children = []) :
    (fs.put p v).view = Function.update fs.view p (some v.shape) := by
  funext r
  rw [view_put hp hd]
  by_cases hr : r = p
  · subst hr; simp
  · rw [Function.update_of_ne hr]
    split_ifs with h
    · obtain ⟨l, rfl⟩ := h
      have hl : l ≠ [] := by rintro rfl; simp at hr
      obtain ⟨n, l, rfl⟩ := List.exists_cons_of_ne_nil hl
      rw [view_below_none hq hl]
      simp [Node.view_cons, hv]
    · rfl

theorem view_erase_leaf (hp : p ≠ []) (hd : fs.view p.dropLast = some .dir)
    (hq : fs.view p ≠ some .dir) : (fs.erase p).view = Function.update fs.view p none := by
  funext r
  rw [view_erase hp hd]
  by_cases hr : r = p
  · subst hr; simp
  · rw [Function.update_of_ne hr]
    split_ifs with h
    · obtain ⟨l, rfl⟩ := h
      have hl : l ≠ [] := by rintro rfl; simp at hr
      rw [view_below_none hq hl]
    · rfl

theorem get_of_view_file (h : fs.view p = some (.file b)) :
    ∃ a, fs.root.get p = some (.file a b) := by
  rw [view, view_eq, Option.map_eq_some_iff] at h
  obtain ⟨c, hc, hs⟩ := h
  cases c <;> cases hs
  exact ⟨_, hc⟩

theorem view_of_get {t : Node} (h : fs.root.get p = some t) : fs.view p = some t.shape := by
  rw [view, view_eq, h]
  rfl

theorem get_of_view_none (h : fs.view p = none) : fs.root.get p = none := get_eq_none_iff.2 h

/-- Storing bytes changes the bytes of the file and nothing else. -/
theorem view_store (h : fs.view p = some (.file b)) (f : List UInt8 → List UInt8) :
    (fs.store p f).view = Function.update fs.view p (some (.file (f b))) := by
  obtain ⟨a, ha⟩ := get_of_view_file h
  simp only [store, ha]
  by_cases hp : p = []
  · -- the whole file system is one file
    subst hp
    have hroot : fs.root = .file a b := by simpa using ha
    funext r
    cases r with
    | nil => rw [Function.update_self]; rfl
    | cons n r =>
      rw [Function.update_of_ne (by simp)]
      show Node.view _ (n :: r) = Node.view _ (n :: r)
      rw [hroot, view_cons, put, alter, view_cons]
      rfl
  · exact view_put_leaf hp (view_dropLast_of_ne_none hp (by simp [h])) (by simp [h]) rfl

/-! ## Paths -/

theorem dirsTo_nil (v : View) : DirsTo p v [] := fun _ h => absurd h (Nat.not_lt_zero _)

theorem dirsTo_cons {v : View} {n : Name} {names : List Name} :
    DirsTo p v (n :: names) ↔ v p = some .dir ∧ DirsTo (p ++ [n]) v names := by
  constructor
  · intro h
    refine ⟨by simpa using h 0 (by simp), fun k hk => ?_⟩
    simpa using h (k + 1) (by simpa using hk)
  · rintro ⟨h0, h⟩ k hk
    cases k with
    | zero => simpa using h0
    | succ k => simpa using h k (by simpa using hk)

/-- Whatever exists is reached through directories. -/
theorem dirsTo_of_view {names : List Name} (h : fs.view (p ++ names) ≠ none) :
    DirsTo p fs.view names := by
  intro k hk
  refine view_dir_of_below (q := names.drop k) (by simpa using hk) ?_
  rwa [List.append_assoc, List.take_append_drop]

theorem walk_real {follow : Bool} {names : List Name} (h : DirsTo p fs.view names)
    (hl : follow = true → ∀ target, fs.view (p ++ names) ≠ some (.link target)) :
    fs.walk follow p names = .found (p ++ names) := by
  induction names generalizing p with
  | nil => simp [walk]
  | cons n rest ih =>
    obtain ⟨h0, h1⟩ := dirsTo_cons.1 h
    have hih := ih h1 (by simpa using hl)
    rw [List.append_assoc, List.singleton_append] at hih
    simp only [walk, h0]
    cases hv : fs.view (p ++ [n]) with
    | none => exact hih
    | some s =>
      cases s with
      | link target =>
        cases rest with
        | nil =>
          cases follow with
          | false => rfl
          | true => exact absurd hv (by simpa using hl rfl target)
        | cons m rest =>
          have := h1 0 (by simp)
          simp [hv] at this
      | _ => exact hih

theorem resolve_real {follow : Bool} {path : Path} (he : path ≠ Path.empty)
    (h : DirsTo fs.home fs.view path.names)
    (hl : follow = true → ∀ target, fs.view (fs.home ++ path.names) ≠ some (.link target)) :
    fs.resolve follow path = .ok (fs.home ++ path.names) := by
  have hw := walk_real h hl
  simp only [resolve, he, if_false]
  unfold resolveFrom
  rw [hw]

@[simp] theorem resolve_empty (fs : FS) (follow : Bool) :
    fs.resolve follow Path.empty = .error .notFound := by
  simp [resolve]

/-! ## The calls

A call on a path is described once the path is known to name a place. -/

theorem metadataAt_none (h : fs.view p = none) : fs.metadataAt p = .error .notFound := by
  simp [metadataAt, get_of_view_none h]

theorem metadataAt_file (h : fs.view p = some (.file b)) :
    ∃ a, fs.metadataAt p = .ok ⟨.file, b.length, some a⟩ := by
  obtain ⟨a, ha⟩ := get_of_view_file h
  exact ⟨a, by simp [metadataAt, ha, metadataOf]⟩

theorem metadataAt_dir (h : fs.view p = some .dir) :
    ∃ a, fs.metadataAt p = .ok ⟨.dir, dirLen, some a⟩ := by
  obtain ⟨a, cs, ha⟩ := get_of_view_dir h
  exact ⟨a, by simp [metadataAt, ha, metadataOf]⟩

/-- The type that a shape is reported with. -/
def typeOf : Shape → FileType
  | .file _ => .file
  | .dir => .dir
  | .link _ => .symlink
  | .special => .special

theorem metadataAt_some (h : fs.view p = some s) :
    ∃ m, fs.metadataAt p = .ok m ∧ m.fileType = typeOf s ∧
      ∀ b, s = .file b → m.len = b.length := by
  rw [view, view_eq, Option.map_eq_some_iff] at h
  obtain ⟨c, hc, rfl⟩ := h
  refine ⟨metadataOf c, by simp [metadataAt, hc], ?_, ?_⟩
  · cases c <;> rfl
  · intro b hb
    cases c <;> cases hb
    rfl

theorem metadataAt_eq_ok {m : Metadata} (h : fs.metadataAt p = .ok m) :
    ∃ s, fs.view p = some s ∧ m.fileType = typeOf s ∧ ∀ b, s = .file b → m.len = b.length := by
  cases hv : fs.view p with
  | none => rw [metadataAt_none hv] at h; cases h
  | some s =>
    obtain ⟨m', hm, h1, h2⟩ := metadataAt_some hv
    rw [hm] at h
    cases h
    exact ⟨s, rfl, h1, h2⟩

theorem metadataAt_eq_error {e : Errno} (h : fs.metadataAt p = .error e) :
    e = .notFound ∧ fs.view p = none := by
  cases hv : fs.view p with
  | none => rw [metadataAt_none hv] at h; cases h; exact ⟨rfl, rfl⟩
  | some s =>
    obtain ⟨m', hm, -⟩ := metadataAt_some hv
    rw [hm] at h
    cases h

@[simp] theorem exec_lstat_snd (path : Path) : (exec (.lstat path) fs).2 = fs := rfl

@[simp] theorem exec_stat_snd (path : Path) : (exec (.stat path) fs).2 = fs := rfl

theorem exec_lstat {path : Path} (h : fs.resolve false path = .ok p) :
    exec (.lstat path) fs = (fs.metadataAt p, fs) := by
  simp [exec, h]
  rfl

theorem exec_stat {path : Path} (h : fs.resolve true path = .ok p) :
    exec (.stat path) fs = (fs.metadataAt p, fs) := by
  simp [exec, h]
  rfl

theorem exec_createDir {path : Path} (h : fs.resolve false path = .ok p) (hp : p ≠ [])
    (hd : fs.view p.dropLast = some .dir) (hv : fs.view p = none) :
    ∃ fs', exec (.createDir path) fs = (.ok (), fs') ∧ fs'.home = fs.home ∧
      fs'.view = Function.update fs.view p (some .dir) := by
  refine ⟨(fs.put p (.dir ⟨0o755, fs.now⟩ [])).touch p.dropLast, ?_, rfl, ?_⟩
  · simp only [exec, h, get_of_view_none hv]
  · rw [view_touch]
    exact view_put_leaf hp hd (by simp [hv]) rfl

/-- Opening a file to be written afresh: it is made if it is not there and emptied if it is. -/
theorem exec_openFile_create {path : Path} {o : OpenOptions} (hc : o.create = true)
    (ht : o.truncate = true) (hn : o.createNew = false) (hdir : o.directory = false)
    (h : fs.resolve (!o.nofollow) path = .ok p) (hp : p ≠ []) (hd : fs.view p.dropLast = some .dir)
    (hv : fs.view p = none ∨ ∃ b, fs.view p = some (.file b)) :
    ∃ fs', exec (.openFile path o) fs = (.ok p, fs') ∧ fs'.home = fs.home ∧
      fs'.view = Function.update fs.view p (some (.file [])) := by
  rcases hv with hv | ⟨b, hv⟩
  · refine ⟨(fs.put p (.file ⟨o.mode, fs.now⟩ [])).touch p.dropLast, ?_, rfl, ?_⟩
    · simp [exec, hn, h, openAt, get_of_view_none hv, hc]
    · rw [view_touch]
      exact view_put_leaf hp hd (by simp [hv]) rfl
  · obtain ⟨a, ha⟩ := get_of_view_file hv
    refine ⟨fs.store p fun _ => [], ?_, home_store _ _ _, view_store hv _⟩
    simp [exec, hn, h, openAt, ha, hdir, ht]

/-- Creating a file that must not be there yet. -/
theorem exec_openFile_new {path : Path} {o : OpenOptions} (hn : o.createNew = true)
    (h : fs.resolve false path = .ok p) (hp : p ≠ []) (hd : fs.view p.dropLast = some .dir)
    (hv : fs.view p = none) :
    ∃ fs', exec (.openFile path o) fs = (.ok p, fs') ∧ fs'.home = fs.home ∧
      fs'.view = Function.update fs.view p (some (.file [])) := by
  refine ⟨(fs.put p (.file ⟨o.mode, fs.now⟩ [])).touch p.dropLast, ?_, rfl, ?_⟩
  · simp [exec, hn, h, openAt, get_of_view_none hv]
  · rw [view_touch]
    exact view_put_leaf hp hd (by simp [hv]) rfl

/-- Opening a file that is there and is kept as it is. -/
theorem exec_openFile_keep {path : Path} {o : OpenOptions} (hn : o.createNew = false)
    (ht : o.truncate = false) (hdir : o.directory = false)
    (h : fs.resolve (!o.nofollow) path = .ok p) (hv : fs.view p = some (.file b)) :
    exec (.openFile path o) fs = (.ok p, fs) := by
  obtain ⟨a, ha⟩ := get_of_view_file hv
  simp [exec, hn, h, openAt, ha, hdir, ht]

/-- Opening a directory, which cannot be written. -/
theorem exec_openFile_dir {path : Path} {o : OpenOptions} (hn : o.createNew = false)
    (h : fs.resolve (!o.nofollow) path = .ok p) (hv : fs.view p = some .dir) :
    exec (.openFile path o) fs = (if o.write then .error .isADirectory else .ok p, fs) := by
  obtain ⟨a, cs, ha⟩ := get_of_view_dir hv
  simp only [exec, hn, Bool.or_false, h, openAt, ha]
  cases o.write <;> rfl

theorem exec_openFile_absent {path : Path} {o : OpenOptions} (hc : o.create = false)
    (hn : o.createNew = false) (h : fs.resolve (!o.nofollow) path = .ok p)
    (hv : fs.view p = none) : exec (.openFile path o) fs = (.error .notFound, fs) := by
  simp [exec, hn, h, openAt, get_of_view_none hv, hc]

theorem exec_readToEnd (h : fs.view p = some (.file b)) :
    exec (.readToEnd p) fs = (.ok b, fs) := by
  obtain ⟨a, ha⟩ := get_of_view_file h
  simp only [exec, ha]

theorem exec_removeFile {path : Path} (h : fs.resolve false path = .ok p) (hp : p ≠ [])
    (hv : fs.view p = some s) (hs : s ≠ .dir) :
    ∃ fs', exec (.removeFile path) fs = (.ok (), fs') ∧ fs'.home = fs.home ∧
      fs'.view = Function.update fs.view p none := by
  have hv' := hv
  rw [view, view_eq, Option.map_eq_some_iff] at hv'
  obtain ⟨c, hc, rfl⟩ := hv'
  refine ⟨(fs.erase p).touch p.dropLast, ?_, rfl, ?_⟩
  · simp only [exec, h, hc]
    cases c with
    | dir a cs => exact absurd rfl hs
    | _ => rfl
  · rw [view_touch]
    exact view_erase_leaf hp (view_dropLast_of_ne_none hp (by simp [hv])) (by simp [hv, hs])

theorem exec_removeFile_absent {path : Path} (h : fs.resolve false path = .ok p)
    (hv : fs.view p = none) : exec (.removeFile path) fs = (.error .notFound, fs) := by
  simp only [exec, h, get_of_view_none hv]

/-- Renaming a file, onto nothing or onto anything that is not a directory. -/
theorem exec_rename_file {source target : Path} (hs : fs.resolve false source = .ok p)
    (ht : fs.resolve false target = .ok q) (hp : p ≠ []) (hq : q ≠ [])
    (hd : fs.view q.dropLast = some .dir) (hv : fs.view p = some (.file b))
    (hw : fs.view q ≠ some .dir) (hpq : p ≠ q) :
    ∃ fs', exec (.rename source target) fs = (.ok (), fs') ∧ fs'.home = fs.home ∧
      fs'.view = Function.update (Function.update fs.view p none) q (some (.file b)) := by
  obtain ⟨a, ha⟩ := get_of_view_file hv
  have hpd : fs.view p.dropLast = some .dir := view_dropLast_of_ne_none hp (by simp [hv])
  have hne : ¬ p <+: q := by
    rintro ⟨l, rfl⟩
    have hl : l ≠ [] := by rintro rfl; simp at hpq
    rw [List.dropLast_append_of_ne_nil hl] at hd
    by_cases hl' : l.dropLast = []
    · simp [hl', hv] at hd
    · rw [view_below_none (by simp [hv]) hl'] at hd
      cases hd
  refine ⟨(((fs.erase p).put q (.file a b)).touch p.dropLast).touch q.dropLast, ?_, rfl, ?_⟩
  · rcases hg : fs.root.get q with _ | t
    · simp [exec, hs, ht, move, ha, hpq, hne, hg, shape]
    · cases t with
      | dir a' cs => exact absurd (view_of_get hg) hw
      | _ =>
        simp [exec, hs, ht, move, ha, hpq, hne, hg, shape]
  · have he : (fs.erase p).view = Function.update fs.view p none :=
      view_erase_leaf hp hpd (by simp [hv])
    have hdq : (fs.erase p).view q.dropLast = some .dir := by
      rw [he, Function.update_of_ne _ _ _, hd]
      rintro h
      rw [h, hv] at hd
      cases hd
    rw [view_touch, view_touch, view_put_leaf hq hdq _ rfl, he]
    · rfl
    · rw [he, Function.update_of_ne (Ne.symm hpq)]
      exact hw

/-- A file cannot be renamed onto a directory. -/
theorem exec_rename_file_dir {source target : Path} (hs : fs.resolve false source = .ok p)
    (ht : fs.resolve false target = .ok q) (hv : fs.view p = some (.file b))
    (hw : fs.view q = some .dir) (hpq : ¬ p <+: q) :
    exec (.rename source target) fs = (.error .isADirectory, fs) := by
  obtain ⟨a, ha⟩ := get_of_view_file hv
  obtain ⟨a', cs, hq⟩ := get_of_view_dir hw
  have hne : p ≠ q := by rintro rfl; exact hpq (List.prefix_refl _)
  simp [exec, hs, ht, move, ha, hq, hne, hpq, shape]

/-- Renaming a directory onto nothing moves everything below it. -/
theorem exec_rename_dir {source target : Path} (hs : fs.resolve false source = .ok p)
    (ht : fs.resolve false target = .ok q) (hp : p ≠ []) (hq : q ≠ [])
    (hd : fs.view q.dropLast = some .dir) (hv : fs.view p = some .dir)
    (hw : fs.view q = none) (hpq : ¬ p <+: q) :
    ∃ fs', exec (.rename source target) fs = (.ok (), fs') ∧ fs'.home = fs.home ∧
      ∀ r, fs'.view r = if q <+: r then fs.view (p ++ r.drop q.length)
        else if p <+: r then none else fs.view r := by
  obtain ⟨a, cs, ha⟩ := get_of_view_dir hv
  have hpd : fs.view p.dropLast = some .dir := view_dropLast_of_ne_none hp (by simp [hv])
  have hne : p ≠ q := by rintro rfl; exact hpq (List.prefix_refl _)
  refine ⟨(((fs.erase p).put q (.dir a cs)).touch p.dropLast).touch q.dropLast, ?_, rfl, fun r => ?_⟩
  · simp [exec, hs, ht, move, ha, hne, hpq, get_of_view_none hw]
  · have hdq : (fs.erase p).view q.dropLast = some .dir := by
      rw [view_erase hp hpd, if_neg (fun h => hpq (h.trans (List.dropLast_prefix q))), hd]
    rw [view_touch, view_touch, view_put hq hdq, view_erase hp hpd]
    split_ifs with h
    · rw [view, view_append, ha]
      rfl
    · rfl
    · rfl

end FS

end FileSystem
