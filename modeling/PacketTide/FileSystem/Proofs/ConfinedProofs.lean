import PacketTide.FileSystem.Confined
import PacketTide.FileSystem.Proofs.ListingProofs
import PacketTide.FileSystem.Proofs.SlotProofs

/-!
# A sealed directory stays sealed

A path that goes on from a sealed root leads to its own place below the root, if it leads anywhere. So calls
that are confined to the root change nothing but what is below it, and they make no links.
-/

namespace FileSystem

open Node

namespace Path

variable {root path : Path}

theorem under_join (root : Path) (names : List Name) : root.Under (root.join names) := ⟨names, rfl⟩

theorem below_join (root : Path) {names : List Name} (h : names ≠ []) : root.Below (root.join names) :=
  ⟨names, h, rfl⟩

theorem Below.under (h : root.Below path) : root.Under path := by
  obtain ⟨names, -, rfl⟩ := h
  exact under_join root names

theorem join_nil (root : Path) : root.join [] = root := by
  rw [join, List.append_nil]

/-- A suffix stays on the last name of what is joined. -/
theorem appended_join (root : Path) {names : List Name} (h : names ≠ []) (s : List UInt8) :
    (root.join names).appended s = root.join (names.dropLast ++ [(names.getLast h).append s]) := by
  have hlast : (root.join names).names.getLast? = some (names.getLast h) := by
    rw [join, List.getLast?_append, List.getLast?_eq_getLast_of_ne_nil h, Option.some_or]
  simp only [appended, hlast]
  simp only [join, List.dropLast_append_of_ne_nil h, List.append_assoc]

theorem Below.appended (h : root.Below path) (s : List UInt8) : root.Below (path.appended s) := by
  obtain ⟨names, hne, rfl⟩ := h
  rw [appended_join root hne]
  exact below_join root (by simp)

theorem Below.parent (h : root.Below path) : ∃ parent, path.parent = some parent ∧ root.Under parent := by
  obtain ⟨names, hne, rfl⟩ := h
  refine ⟨root.join names.dropLast, ?_, under_join root _⟩
  rw [Path.parent, if_neg (by simp [join, hne])]
  simp only [join, List.dropLast_append_of_ne_nil hne]

/-- Above a path that goes on from a root there is the root, or another such path. -/
theorem Under.parent (h : root.Under path) (hne : path ≠ root) : ∃ parent, path.parent = some parent ∧ root.Under parent := by
  obtain ⟨names, rfl⟩ := h
  refine Below.parent (below_join root ?_)
  rintro rfl
  exact hne (join_nil root)

end Path

namespace FS

variable {fs t : FS} {home p q : Loc} {root path : Path} {v : View} {names : List Name}

/-! ## Paths -/

/-- Where there are no links a walk arrives at the place that its names spell, or it fails. -/
theorem walk_of_plain (follow : Bool) (names : List Name)
    (h : ∀ names target, fs.view (p ++ names) ≠ some (.link target)) :
    fs.walk follow p names = .found (p ++ names) ∧ DirsTo p fs.view names ∨ ∃ e, fs.walk follow p names = .failed e := by
  induction names generalizing p with
  | nil => exact .inl ⟨by rw [walk, List.append_nil], dirsTo_nil _⟩
  | cons n names ih =>
    have hnext := ih (p := p ++ [n]) fun rest target => by
      rw [List.append_assoc]
      exact h _ target
    rw [List.append_assoc, List.singleton_append] at hnext
    rw [walk]
    rcases hp : fs.view p with _ | s
    · exact .inr ⟨_, rfl⟩
    · cases s with
      | dir =>
        have hn := h [n]
        rcases hview : fs.view (p ++ [n]) with _ | s
        · exact hnext.imp_left fun hw => ⟨hw.1, dirsTo_cons.2 ⟨hp, hw.2⟩⟩
        · cases s with
          | link target => exact absurd hview (hn target)
          | _ => exact hnext.imp_left fun hw => ⟨hw.1, dirsTo_cons.2 ⟨hp, hw.2⟩⟩
      | _ => exact .inr ⟨_, rfl⟩

namespace Sealed

/-- A path that goes on from the root leads to its place or nowhere. -/
theorem resolve (h : fs.Sealed home root v) (follow : Bool) (hpath : root.Under path) :
    fs.resolve follow path = .ok (home ++ path.names) ∧ DirsTo home fs.view path.names ∨
      ∃ e, fs.resolve follow path = .error e := by
  obtain ⟨names, rfl⟩ := hpath
  have hne : root.join names ≠ Path.empty := by
    intro he
    have hnames := congrArg Path.names he
    rw [Path.join, Path.empty, List.append_eq_nil_iff] at hnames
    exact h.names_ne hnames.1
  have hroot : fs.walk true home root.names = .found (home ++ root.names) :=
    walk_real h.dirs fun _ target => by
      rw [h.dir]
      rintro ⟨⟩
  unfold FS.resolve
  rw [if_neg hne, h.home_eq, resolveFrom, Path.join, walk_append hroot]
  rcases walk_of_plain follow names h.plain with ⟨hw, hd⟩ | ⟨e, he⟩
  · rw [hw, ← List.append_assoc]
    exact .inl ⟨rfl, dirsTo_append.2 ⟨h.dirs, hd⟩⟩
  · rw [he]
    exact .inr ⟨e, rfl⟩

/-- What a path below the root leads to lies in a directory. -/
theorem resolve_below (h : fs.Sealed home root v) (follow : Bool) (hpath : root.Below path) :
    (∃ names, names ≠ [] ∧ fs.resolve follow path = .ok (home ++ root.names ++ names) ∧
      fs.view (home ++ root.names ++ names).dropLast = some .dir) ∨ ∃ e, fs.resolve follow path = .error e := by
  rcases h.resolve follow hpath.under with ⟨hok, hd⟩ | herror
  · obtain ⟨names, hne, rfl⟩ := hpath
    refine .inl ⟨names, hne, ?_, ?_⟩
    · rw [hok, Path.join, List.append_assoc]
    · have hparent := parent_of_dirs (by simp [Path.join, hne]) hd
      rwa [Path.join, ← List.append_assoc] at hparent
  · exact .inr herror

/-! ## Changes below the root -/

/-- A change below the root that makes no links. -/
theorem change (h : fs.Sealed home root v) (hhome : t.home = fs.home)
    (hsame : ∀ q, (∀ names, names ≠ [] → q ≠ home ++ root.names ++ names) → t.view q = fs.view q)
    (hplain : ∀ names target, t.view (home ++ root.names ++ names) ≠ some (.link target)) : t.Sealed home root v := by
  refine ⟨hhome.trans h.home_eq, h.names_ne, ?_, ?_, hplain, ?_⟩
  · intro k hk
    rw [hsame _ ?_]
    · exact h.dirs k hk
    · intro names hne heq
      have hlen := congrArg List.length heq
      simp only [List.length_append, List.length_take] at hlen
      omega
  · rw [hsame _ ?_]
    · exact h.dir
    · intro names hne heq
      exact hne (List.self_eq_append_right.1 heq)
  · intro q hq
    rw [hsame q ?_]
    · exact h.outside q hq
    · rintro names - rfl
      exact hq (List.prefix_append _ _)

theorem same (h : fs.Sealed home root v) (hhome : t.home = fs.home) (hview : t.view = fs.view) :
    t.Sealed home root v :=
  h.change hhome (fun _ _ => by rw [hview]) (by rw [hview]; exact h.plain)

theorem touch (h : fs.Sealed home root v) (p : Loc) : (fs.touch p).Sealed home root v :=
  h.same (home_touch fs p) (view_touch fs p)

/-- Not below what lies strictly below the root. -/
theorem not_prefix (hne : names ≠ []) (hq : ∀ names, names ≠ [] → q ≠ p ++ names) : ¬p ++ names <+: q := by
  rintro ⟨more, rfl⟩
  rw [List.append_assoc] at hq
  exact hq (names ++ more) (by simp [hne]) rfl

theorem put (h : fs.Sealed home root v) (hne : names ≠ [])
    (hd : fs.view (home ++ root.names ++ names).dropLast = some .dir) {node : Node}
    (hnode : ∀ r target, node.view r ≠ some (.link target)) :
    (fs.put (home ++ root.names ++ names) node).Sealed home root v := by
  have hview := fun q => view_put (by simp [hne]) hd node q
  refine h.change (home_put _ _ _) (fun q hq => ?_) fun more target => ?_
  · rw [hview, if_neg ( not_prefix hne hq)]
  · rw [hview]
    split
    · exact hnode _ target
    · exact h.plain more target

theorem erase (h : fs.Sealed home root v) (hne : names ≠ [])
    (hd : fs.view (home ++ root.names ++ names).dropLast = some .dir) :
    (fs.erase (home ++ root.names ++ names)).Sealed home root v := by
  have hview := fun q => view_erase (by simp [hne]) hd q
  refine h.change (home_erase _ _) (fun q hq => ?_) fun more target => ?_
  · rw [hview, if_neg ( not_prefix hne hq)]
  · rw [hview]
    split
    · rintro ⟨⟩
    · exact h.plain more target

theorem store (h : fs.Sealed home root v) (hp : home ++ root.names <+: p) (f : List UInt8 → List UInt8) :
    (fs.store p f).Sealed home root v := by
  rcases hget : fs.root.get p with _ | node
  · exact h.same (home_store _ _ _) (by rw [FS.store, hget])
  · cases node with
    | file attr bytes =>
      have hfile : fs.view p = some (.file bytes) := view_of_get hget
      obtain ⟨names, rfl⟩ := hp
      have hne : names ≠ [] := by
        rintro rfl
        rw [List.append_nil, h.dir] at hfile
        cases hfile
      refine h.change (home_store _ _ _) (fun q hq => ?_) fun more target => ?_
      · rw [view_store hfile, Function.update_of_ne (hq names hne)]
      · rw [view_store hfile, Function.update_apply]
        split
        · rintro ⟨⟩
        · exact h.plain more target
    | _ => exact h.same (home_store _ _ _) (by rw [FS.store, hget])

/-- A directory or a file without anything in it has no links. -/
theorem view_leaf_ne_link {node : Node} (hc : node.children = []) (hs : ∀ target, node.shape ≠ .link target) (r : Loc)
    (target : Loc) : node.view r ≠ some (.link target) := by
  cases r with
  | nil =>
    rw [view_nil, Ne, Option.some.injEq]
    exact hs target
  | cons n r =>
    rw [view_cons, hc]
    rintro ⟨⟩

/-! ## The calls -/

theorem openAt (h : fs.Sealed home root v) (hne : names ≠ [])
    (hd : fs.view (home ++ root.names ++ names).dropLast = some .dir) (o : OpenOptions) :
    (fs.openAt (home ++ root.names ++ names) o).2.Sealed home root v := by
  unfold FS.openAt
  split
  · split
    · exact (h.put hne hd (view_leaf_ne_link rfl fun target hs => by cases hs)).touch _
    · exact h
  · split
    · exact h
    · split
      · exact h
      · exact h
      · split <;> exact h
      · split
        · exact h
        · split
          · exact h.store (List.prefix_append _ _) _
          · exact h

/-- At the root itself there is nothing to be made. -/
theorem openAt_root (h : fs.Sealed home root v) (o : OpenOptions) :
    (fs.openAt (home ++ root.names) o).2.Sealed home root v := by
  obtain ⟨a, cs, hget⟩ := get_of_view_dir h.dir
  unfold FS.openAt
  rw [hget]
  dsimp only
  split
  · exact h
  · split <;> exact h

theorem move {more : List Name} (h : fs.Sealed home root v) (hne : names ≠ []) (hmore : more ≠ [])
    (hd : fs.view (home ++ root.names ++ more).dropLast = some .dir) :
    (fs.move (home ++ root.names ++ names) (home ++ root.names ++ more)).2.Sealed home root v := by
  unfold FS.move
  rcases hget : fs.root.get (home ++ root.names ++ names) with _ | node
  · exact h
  · dsimp only
    split_ifs with heq hpre
    · exact h
    · exact h
    · have hparent : fs.view (home ++ root.names ++ names).dropLast = some .dir :=
        view_dropLast_of_ne_none (by simp [hne]) (by rw [view_of_get hget]; exact Option.some_ne_none _)
      have herased := h.erase hne hparent
      have hd' : (fs.erase (home ++ root.names ++ names)).view (home ++ root.names ++ more).dropLast = some .dir := by
        rw [view_erase (by simp [hne]) hparent, if_neg fun hbelow => hpre (hbelow.trans (List.dropLast_prefix _)), hd]
      have hnode : ∀ r target, node.view r ≠ some (.link target) := by
        intro r target
        have hplain := h.plain (names ++ r) target
        rwa [← List.append_assoc, view, Node.view_append, hget] at hplain
      have hmoved := ((herased.put hmore hd' hnode).touch (home ++ root.names ++ names).dropLast).touch
        (home ++ root.names ++ more).dropLast
      split
      · exact hmoved
      · exact hmoved
      · exact h
      · exact h
      · exact h
      · exact hmoved

theorem openFile (h : fs.Sealed home root v) (hpath : root.Under path) (o : OpenOptions) :
    (exec (.openFile path o) fs).2.Sealed home root v := by
  rw [FS.exec]
  rcases h.resolve (!(o.nofollow || o.createNew)) hpath with ⟨hok, hd⟩ | ⟨e, he⟩
  · rw [hok]
    obtain ⟨names, rfl⟩ := hpath
    rcases names with _ | ⟨n, names⟩
    · rw [Path.join_nil]
      exact h.openAt_root o
    · have hparent := parent_of_dirs (by simp [Path.join]) hd
      rw [Path.join, ← List.append_assoc] at hparent ⊢
      exact h.openAt (by simp) hparent o
  · rw [he]
    exact h

/-- What is opened by a path that goes on from the root is below the root. -/
theorem opened (h : fs.Sealed home root v) (hpath : root.Under path) {o : OpenOptions}
    (hq : (exec (.openFile path o) fs).1 = .ok q) : home ++ root.names <+: q := by
  rcases h.resolve (!(o.nofollow || o.createNew)) hpath with ⟨hok, -⟩ | ⟨e, he⟩
  · obtain rfl := exec_openFile_eq_ok hok (Prod.ext hq rfl)
    obtain ⟨names, rfl⟩ := hpath
    rw [Path.join, ← List.append_assoc]
    exact List.prefix_append _ _
  · rw [FS.exec, he] at hq
    cases hq

theorem resolve_root (h : fs.Sealed home root v) : fs.resolve false root = .ok (home ++ root.names) := by
  rw [← h.home_eq]
  refine resolve_real ?_ (h.home_eq ▸ h.dirs) fun hf => by cases hf
  rintro rfl
  exact h.names_ne rfl

theorem createDir_root (h : fs.Sealed home root v) : exec (.createDir root) fs = (.error .alreadyExists, fs) := by
  obtain ⟨a, cs, hget⟩ := get_of_view_dir h.dir
  change fs.root.get _ = _ at hget
  simp only [FS.exec, h.resolve_root, hget]

theorem createDir (h : fs.Sealed home root v) (hpath : root.Under path) :
    (exec (.createDir path) fs).2.Sealed home root v := by
  obtain ⟨names, rfl⟩ := hpath
  rcases names with _ | ⟨n, names⟩
  · rw [Path.join_nil, h.createDir_root]
    exact h
  · rcases h.resolve_below false (Path.below_join root (List.cons_ne_nil n names)) with
      ⟨names, hne, hok, hd⟩ | ⟨e, he⟩
    · rw [FS.exec, hok]
      dsimp only
      split
      · exact h
      · exact (h.put hne hd (view_leaf_ne_link rfl fun target hs => by cases hs)).touch _
    · rw [FS.exec, he]
      exact h

theorem removeFile (h : fs.Sealed home root v) (hpath : root.Under path) :
    (exec (.removeFile path) fs).2.Sealed home root v := by
  rcases h.resolve false hpath with ⟨hok, -⟩ | ⟨e, he⟩
  · obtain ⟨names, rfl⟩ := hpath
    have hplace : home ++ (root.join names).names = home ++ root.names ++ names := (List.append_assoc _ _ _).symm
    rw [FS.exec, hok, hplace]
    dsimp only
    split
    · exact h
    next node hdir hget =>
      have hview := view_of_get hget
      have hne : names ≠ [] := by
        rintro rfl
        rw [List.append_nil] at hget
        obtain ⟨a, cs, hroot⟩ := get_of_view_dir h.dir
        exact hdir a cs (Option.some.inj (hget.symm.trans hroot))
      refine (h.erase hne (view_dropLast_of_ne_none (by simp [hne]) ?_)).touch _
      rw [hview]
      exact Option.some_ne_none _
    · exact h
  · rw [FS.exec, he]
    exact h

theorem rename {target : Path} (h : fs.Sealed home root v) (hpath : root.Below path) (htarget : root.Below target) :
    (exec (.rename path target) fs).2.Sealed home root v := by
  rw [FS.exec]
  rcases h.resolve_below false hpath with ⟨names, hne, hok, -⟩ | ⟨e, he⟩
  · rcases h.resolve_below false htarget with ⟨more, hmore, hok', hd⟩ | ⟨e, he⟩
    · rw [hok, hok']
      exact h.move hne hmore hd
    · rw [hok, he]
      exact h
  · rw [he]
    exact h

theorem keeps {c : FsCall} (h : fs.Sealed home root v) (hc : c.KeepsView) : (exec c fs).2.Sealed home root v := by
  have hlooks := looks_exec hc fs.looks_self
  exact h.same hlooks.home_eq hlooks.view_eq

/-- A confined call leaves a sealed root sealed and is answered as the root promises. -/
theorem answered {c : FsCall} (h : fs.Sealed home root v) (hc : c.Confined (.below home root)) :
    c.Promised (.below home root) (exec c fs).1 ∧ (exec c fs).2.Sealed home root v := by
  cases c with
  | openFile path o =>
    refine ⟨fun hunder q hq => h.opened hunder hq, ?_⟩
    rcases hc with hkeeps | hunder
    · exact h.keeps hkeeps
    · exact h.openFile hunder o
  | createDir path =>
    refine ⟨fun heq hr => ?_, h.createDir hc⟩
    rw [heq, h.createDir_root] at hr
    cases hr
  | removeFile path => exact ⟨trivial, h.removeFile hc⟩
  | rename source target => exact ⟨trivial, h.rename hc.1 hc.2⟩
  | setLen p len => exact ⟨trivial, h.store hc _⟩
  | write p bytes => exact ⟨trivial, h.store hc _⟩
  | writeAt p offset bytes => exact ⟨trivial, h.store hc _⟩
  | setPermissions p mode => exact ⟨trivial, h.keeps trivial⟩
  | setTimes p modified => exact ⟨trivial, h.keeps trivial⟩
  | lstat path => exact ⟨trivial, h⟩
  | stat path => exact ⟨trivial, h⟩
  | fstat p => exact ⟨trivial, h⟩
  | sync p => exact ⟨trivial, h⟩
  | readToEnd p => exact ⟨trivial, h.keeps trivial⟩
  | readAt p offset count => exact ⟨trivial, h.keeps trivial⟩
  | readDir path => exact ⟨trivial, h.keeps trivial⟩

theorem torn {c : FsCall} (h : fs.Sealed home root v) (hc : c.Confined (.below home root)) (ht : Torn c fs t) :
    t.Sealed home root v := by
  cases ht with
  | write p bytes n => exact h.store hc _
  | writeAt p offset bytes n => exact h.store hc _

end Sealed

end FS

end FileSystem
