import PacketTide.FileSystem.Proofs.SlotProofs

/-!
# What a reply tells

A call that has been answered well was in a state in which it could be, and some calls never make
anything. These facts need no assumption on the state that the call starts from.
-/

namespace FileSystem

open Node

namespace FS

variable {fs t : FS} {home p q : Loc} {v : View} {path : Path}

/-! ## The working directory -/

theorem openAt_home (fs : FS) (p : Loc) (o : OpenOptions) : (fs.openAt p o).2.home = fs.home := by
  unfold openAt
  rcases fs.root.get p with _ | _ | _ | _ | _
  all_goals dsimp only
  all_goals split_ifs
  all_goals simp

theorem move_home (fs : FS) (p q : Loc) : (fs.move p q).2.home = fs.home := by
  unfold move
  rcases fs.root.get p with _ | t
  · rfl
  · dsimp only
    split_ifs
    · rfl
    · rfl
    · split <;> rfl

/-- No call changes the working directory. -/
theorem exec_home (c : FsCall) (fs : FS) : (exec c fs).2.home = fs.home := by
  cases c with
  | openFile p o =>
    simp only [exec]
    split
    · exact openAt_home _ _ _
    · rfl
  | rename p q =>
    simp only [exec]
    rcases fs.resolve false p with _ | a <;> rcases fs.resolve false q with _ | b
    · rfl
    · rfl
    · rfl
    · exact move_home fs a b
  | setLen h len => exact home_store _ _ _
  | write h bytes => exact home_store _ _ _
  | writeAt h offset bytes => exact home_store _ _ _
  | readToEnd h => simp only [exec]; split <;> rfl
  | readAt h => simp only [exec]; split <;> [split; skip] <;> rfl
  | readDir p => simp only [exec]; split <;> [split; skip] <;> rfl
  | createDir p => simp only [exec]; split <;> [split; skip] <;> rfl
  | removeFile p => simp only [exec]; split <;> [split; skip] <;> rfl
  | _ => rfl

/-- A name is resolved only in a directory. -/
theorem home_dir_of_resolve {follow : Bool} {n : Name} (hn : path.names = [n])
    (h : fs.resolve follow path = .ok p) : fs.view fs.home = some .dir := by
  unfold resolve at h
  split_ifs at h
  rw [hn] at h
  unfold resolveFrom at h
  simp only [walk] at h
  rcases hv : fs.view fs.home with _ | s
  · rw [hv] at h
    cases h
  · cases s with
    | dir => rfl
    | _ =>
      rw [hv] at h
      cases h

theorem home_dir_of_lstat {n : Name} {m : Metadata} (hn : path.names = [n])
    (h : exec (.lstat path) fs = (.ok m, t)) : fs.view fs.home = some .dir := by
  rcases hr : fs.resolve false path with e | p
  · simp only [exec, hr] at h
    cases h
  · exact home_dir_of_resolve hn hr

/-! ## Opening -/

/-- Opening without making or emptying a file changes nothing. -/
theorem exec_openFile_snd {o : OpenOptions} (hc : o.create = false) (hn : o.createNew = false)
    (ht : o.truncate = false) : (exec (.openFile path o) fs).2 = fs := by
  simp only [exec]
  split
  next q _ =>
    unfold openAt
    rcases fs.root.get q with _ | _ | _ | _ | _
    all_goals simp [hc, hn, ht]
    all_goals split_ifs <;> rfl
  · rfl

/-- What is opened lies where the path leads. -/
theorem exec_openFile_eq_ok {o : OpenOptions} (hr : fs.resolve (!(o.nofollow || o.createNew)) path = .ok p)
    (h : exec (.openFile path o) fs = (.ok q, t)) : q = p := by
  simp only [exec, hr] at h
  unfold openAt at h
  rcases hg : fs.root.get p with _ | _ | _ | _ | _
  all_goals simp only [hg] at h
  all_goals split_ifs at h
  all_goals cases h
  all_goals rfl

/-- Only files are read. -/
theorem view_of_readToEnd {b : List UInt8} (h : exec (.readToEnd p) fs = (.ok b, t)) :
    fs.view p = some (.file b) := by
  simp only [exec] at h
  split at h
  next a bytes hg =>
    cases h
    exact view_of_get hg
  next => cases h

theorem looks_setAttr (g : Attr → Attr) (p : Loc) (hl : fs.Looks home v) :
    FS.Looks { fs with root := fs.root.alter (Option.map (Node.mapAttr g)) p } home v := by
  refine ⟨hl.home_eq, ?_⟩
  rw [← hl.view_eq]
  funext q
  exact view_alter_attr g fs.root p q

/-- Calls that read, and calls that set metadata, do not show. -/
theorem looks_exec {c : FsCall} (hc : c.KeepsView) (hl : fs.Looks home v) :
    (exec c fs).2.Looks home v := by
  cases c with
  | openFile p o =>
    obtain ⟨hcreate, hnew, htruncate⟩ := hc
    rw [exec_openFile_snd hcreate hnew htruncate]
    exact hl
  | setPermissions h mode => exact looks_setAttr _ h hl
  | setTimes h modified => exact looks_setAttr _ h hl
  | readToEnd h => simp only [exec]; split <;> exact hl
  | readAt h =>
    simp only [exec]
    split <;> [split; skip] <;> exact ⟨hl.home_eq, hl.view_eq⟩
  | readDir p => simp only [exec]; split <;> [split; skip] <;> exact hl
  | lstat p => exact hl
  | stat p => exact hl
  | fstat h => exact hl
  | sync h => exact hl
  | _ => exact absurd hc id

theorem not_torn_of_keepsView {c : FsCall} (hc : c.KeepsView) : ¬ Torn c fs t := by
  intro h
  cases h <;> exact hc

/-! ## Removing and renaming -/

theorem exec_removeFile_eq_ok (hr : fs.resolve false path = .ok p) (hp : p ≠ [])
    (h : exec (.removeFile path) fs = (.ok (), t)) :
    fs.view p ≠ some .dir ∧ t.home = fs.home ∧ t.view = Function.update fs.view p none := by
  rcases hv : fs.view p with _ | s
  · rw [exec_removeFile_absent hr hv] at h
    cases h
  · by_cases hs : s = .dir
    · subst hs
      obtain ⟨a, cs, hg⟩ := get_of_view_dir hv
      simp only [exec, hr, hg] at h
      cases h
    · obtain ⟨t', ht', hh, hw⟩ := exec_removeFile hr hp hv hs
      rw [ht'] at h
      cases h
      exact ⟨by simpa using hs, hh, hw⟩

/-- Where there is nothing, removing a file leaves nothing. -/
theorem exec_removeFile_none (h : fs.view p = none) :
    (exec (.removeFile path) fs).2.view p = none := by
  rcases hr : fs.resolve false path with e | q
  · simp only [exec, hr]
    exact h
  · rcases hv : fs.view q with _ | s
    · rw [exec_removeFile_absent hr hv]
      exact h
    · by_cases hs : s = .dir
      · subst hs
        obtain ⟨a, cs, hg⟩ := get_of_view_dir hv
        simp only [exec, hr, hg]
        exact h
      · by_cases hq : q = []
        · subst hq
          have hroot : fs.erase [] = fs := by simp [erase, alter]
          have hnd : ∀ a cs, fs.root.get [] ≠ some (.dir a cs) := by
            intro a cs hg
            rw [view_of_get hg] at hv
            cases hv
            exact hs rfl
          simp only [exec, hr, hroot]
          split
          next a cs hg => exact absurd hg (hnd a cs)
          next => exact (congrFun (view_touch fs _) p).trans h
          next => exact h
        · obtain ⟨t', ht', -, hw⟩ := exec_removeFile hr hq hv hs
          rw [ht', hw]
          by_cases hpq : p = q
          · rw [hpq, Function.update_self]
          · rw [Function.update_of_ne hpq, h]

theorem move_error {e : Errno} (h : fs.move p q = (.error e, t)) : t = fs := by
  unfold move at h
  rcases hp : fs.root.get p with _ | node
  · simp only [hp] at h
    cases h
    rfl
  · simp only [hp] at h
    by_cases hpq : p = q
    · rw [if_pos hpq] at h
      cases h
    · by_cases hpre : p <+: q
      · rw [if_neg hpq, if_pos hpre] at h
        cases h
        rfl
      · rw [if_neg hpq, if_neg hpre] at h
        split at h
        all_goals cases h
        all_goals rfl

/-- A rename that is refused leaves everything alone. -/
theorem exec_rename_error {source target : Path} {e : Errno}
    (h : exec (.rename source target) fs = (.error e, t)) : t = fs := by
  simp only [exec] at h
  rcases hs : fs.resolve false source with _ | a <;> rcases ht : fs.resolve false target with _ | b
  all_goals rw [hs, ht] at h
  · cases h
    rfl
  · cases h
    rfl
  · cases h
    rfl
  · exact move_error h

/-- Whatever a directory is renamed onto, the tree below it is then there. -/
theorem exec_rename_dir_eq_ok {source target : Path} (hs : fs.resolve false source = .ok p)
    (ht : fs.resolve false target = .ok q) (hp : p ≠ []) (hq : q ≠ [])
    (hd : fs.view q.dropLast = some .dir) (hv : fs.view p = some .dir)
    (h : exec (.rename source target) fs = (.ok (), t)) :
    t.home = fs.home ∧ ∀ r, t.view (q ++ r) = fs.view (p ++ r) := by
  obtain ⟨a, cs, hg⟩ := get_of_view_dir hv
  have hpd : fs.view p.dropLast = some .dir := view_dropLast_of_ne_none hp (by simp [hv])
  refine ⟨?_, fun r => ?_⟩
  · rw [← exec_home (.rename source target) fs, h]
  · simp only [exec, hs, ht, move, hg] at h
    split_ifs at h with hpq hpre
    · cases h
      rw [hpq]
    · cases h
    · have hdq : (fs.erase p).view q.dropLast = some .dir := by
        rw [view_erase hp hpd, if_neg (fun h => hpre (h.trans (List.dropLast_prefix q))), hd]
      have hmoved : ((((fs.erase p).put q (.dir a cs)).touch p.dropLast).touch q.dropLast).view
          (q ++ r) = fs.view (p ++ r) := by
        rw [view_touch, view_touch, view_put hq hdq, if_pos (List.prefix_append q r),
          List.drop_left, view, view_append, hg]
        rfl
      split at h
      all_goals cases h
      all_goals exact hmoved

/-! ## Final links -/

/-- What does not end at a link is found in either way. -/
theorem walk_follow {names : List Name} (hq : ∀ target, fs.view q ≠ some (.link target))
    (h : fs.walk false p names = .found q) : fs.walk true p names = .found q := by
  induction names generalizing p with
  | nil => exact h
  | cons n names ih =>
    rw [walk] at h ⊢
    split at h
    · split at h
      next target hlink =>
        split at h
        next hlast =>
          cases h
          exact absurd hlink (hq target)
        next => cases h
      next => exact ih h
    · cases h
    · cases h

theorem walk_linked {names rest : List Name} {target : Loc} (h : fs.walk false p names = .linked target rest) :
    fs.walk true p names = .linked target rest := by
  induction names generalizing p with
  | nil => cases h
  | cons n names ih =>
    rw [walk] at h ⊢
    split at h
    · split at h
      next target' hlink =>
        split at h
        next => cases h
        next hlast =>
          cases h
          rw [if_neg (by simp)]
      next => exact ih h
    · cases h
    · cases h

theorem resolve_follow (hq : ∀ target, fs.view q ≠ some (.link target)) (h : fs.resolve false path = .ok q) :
    fs.resolve true path = .ok q := by
  unfold resolve at h ⊢
  split at h
  · cases h
  next hpath =>
    rw [if_neg hpath]
    clear hpath
    generalize maxLinks = budget at h ⊢
    generalize path.names = names at h ⊢
    generalize fs.home = p at h ⊢
    induction budget generalizing p names with
    | zero =>
      rw [resolveFrom] at h ⊢
      split at h
      next hwalk =>
        cases h
        rw [walk_follow hq hwalk]
      · cases h
      · cases h
    | succ budget ih =>
      rw [resolveFrom] at h ⊢
      split at h
      next hwalk =>
        cases h
        rw [walk_follow hq hwalk]
      · cases h
      next target rest hwalk =>
        rw [walk_linked hwalk]
        exact ih _ _ h

/-! ## Opening by any path -/

/-- There is something at the place, or it may be made in a real directory. -/
def Reachable (fs : FS) (p : Loc) : Prop := fs.view p ≠ none ∨ p ≠ [] ∧ fs.view p.dropLast = some .dir

/-- A walk ends at its start, or in a real directory. -/
theorem walk_reachable {follow : Bool} {names : List Name} (hp : fs.view p ≠ none)
    (h : fs.walk follow p names = .found q) : fs.Reachable q := by
  induction names generalizing p with
  | nil =>
    cases h
    exact .inl hp
  | cons n names ih =>
    rw [walk] at h
    split at h
    next hdir =>
      have hbelow : p ++ [n] ≠ [] ∧ fs.view (p ++ [n]).dropLast = some .dir := by
        rw [List.dropLast_concat]
        exact ⟨by simp, hdir⟩
      split at h
      next target hlink =>
        split at h
        · cases h
          exact .inr hbelow
        · cases h
      next =>
        rcases hv : fs.view (p ++ [n]) with _ | s
        · rcases names with _ | ⟨m, names⟩
          · cases h
            exact .inr hbelow
          · rw [walk, hv] at h
            cases h
        · exact ih (by rw [hv]; exact Option.some_ne_none s) h
    · cases h
    · cases h

theorem resolveFrom_reachable {follow : Bool} {budget : Nat} {names : List Name} (hp : fs.view p ≠ none)
    (h : fs.resolveFrom follow budget p names = .ok q) : fs.Reachable q := by
  have hroot : fs.view [] ≠ none := by
    rw [view_of_get (t := fs.root) rfl]
    exact Option.some_ne_none _
  induction budget generalizing p names with
  | zero =>
    unfold resolveFrom at h
    split at h
    next hwalk =>
      cases h
      exact walk_reachable hp hwalk
    next => cases h
    next => cases h
  | succ budget ih =>
    unfold resolveFrom at h
    split at h
    next hwalk =>
      cases h
      exact walk_reachable hp hwalk
    next => cases h
    next => exact ih hroot h

/-- A file that has been opened to be written afresh is empty. -/
theorem view_of_openFile {o : OpenOptions} (hw : o.write = true) (hc : o.create = true) (ht : o.truncate = true)
    (hhome : fs.view fs.home ≠ none) (h : exec (.openFile path o) fs = (.ok q, t)) :
    t.view q = some (.file []) := by
  rcases hr : fs.resolve (!(o.nofollow || o.createNew)) path with e | q'
  · simp only [exec, hr] at h
    cases h
  simp only [exec, hr] at h
  have hreachable : fs.Reachable q' := by
    unfold resolve at hr
    split_ifs at hr
    exact resolveFrom_reachable hhome hr
  unfold openAt at h
  rcases hget : fs.root.get q' with _ | node
  · rw [hget] at h
    simp only [hc, Bool.true_or, if_true] at h
    cases h
    have hnone : fs.view q = none := get_eq_none_iff.1 hget
    obtain ⟨hne, hdir⟩ := hreachable.resolve_left fun hsome => hsome hnone
    rw [view_touch, view_put_leaf hne hdir (by simp [hnone]) rfl, Function.update_self]
    rfl
  · rw [hget] at h
    dsimp only at h
    split at h
    · cases h
    rcases node with ⟨attr, bytes⟩ | ⟨attr, children⟩ | target | _
    · dsimp only at h
      split at h
      · cases h
      cases h
      rw [view_store (view_of_get hget), Function.update_self]
    · cases h
    · cases h
    · cases h

end FS

end FileSystem
