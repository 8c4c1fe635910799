import Mathlib.Data.List.Nodup
import PacketTide.Effects.Proofs.ProgProofs
import PacketTide.FileSystem.Listing
import PacketTide.FileSystem.Proofs.ReplyProofs

/-!
# A walk comes to everything once

A walk through a tree whose directories hold each name once comes to every place below its start exactly
once. The names of a directory stay distinct whatever calls are made.
-/

namespace FileSystem

open Node

namespace FS

variable {fs : FS} {p q r : Loc} {path : Path} {names rest more below : List Name} {n : Name} {depth : Nat}

/-! ## Paths below a directory -/

/-- A walk that has followed all links goes on from where it has ended. -/
theorem walk_append {follow : Bool} (h : fs.walk true q names = .found p) :
    fs.walk follow q (names ++ more) = fs.walk follow p more := by
  induction names generalizing q with
  | nil =>
    cases h
    rfl
  | cons n names ih =>
    rw [List.cons_append, walk]
    rw [walk] at h
    split at h
    next hdir =>
      split at h
      next target hlink =>
        rw [if_neg (by simp)] at h
        cases h
      next => exact ih h
    · cases h
    · cases h

theorem walk_append_linked {follow : Bool} {target : Loc} (h : fs.walk false q names = .linked target rest) :
    fs.walk follow q (names ++ more) = .linked target (rest ++ more) := by
  induction names generalizing q with
  | nil => cases h
  | cons n names ih =>
    rw [List.cons_append, walk]
    rw [walk] at h
    split at h
    next hdir =>
      split at h
      next target' hlink =>
        split at h
        · cases h
        next hmore =>
          cases h
          have hne : rest ≠ [] := by
            rintro rfl
            exact hmore rfl
          rw [if_neg (by simp [hne])]
      next => exact ih h
    · cases h
    · cases h

theorem resolveFrom_append {follow : Bool} {budget : Nat} (hp : fs.view p = some .dir)
    (h : fs.resolveFrom false budget q names = .ok p) (hmore : fs.walk follow p more = .found r) :
    fs.resolveFrom follow budget q (names ++ more) = .ok r := by
  have hlink : ∀ target, fs.view p ≠ some (.link target) := by
    intro target hl
    rw [hp] at hl
    cases hl
  induction budget generalizing q names with
  | zero =>
    rw [resolveFrom] at h ⊢
    split at h
    next hwalk =>
      cases h
      rw [walk_append (walk_follow hlink hwalk), hmore]
    · cases h
    · cases h
  | succ budget ih =>
    rw [resolveFrom] at h ⊢
    split at h
    next hwalk =>
      cases h
      rw [walk_append (walk_follow hlink hwalk), hmore]
    · cases h
    next target rest hwalk =>
      rw [walk_append_linked hwalk]
      dsimp only
      rw [← List.append_assoc]
      exact ih h

namespace Names

theorem ne_empty (h : fs.Names path p) : path ≠ Path.empty := by
  rintro rfl
  have hr := h.resolves
  rw [resolve_empty] at hr
  cases hr

theorem join_ne_empty (h : fs.Names path p) (names : List Name) : path.join names ≠ Path.empty := by
  intro he
  have hbase : path.base = none := congrArg Path.base he
  have hnames : path.names ++ names = [] := congrArg Path.names he
  refine h.ne_empty ?_
  rcases path with ⟨base, own⟩
  rw [show base = none from hbase, show own = [] from (List.append_eq_nil_iff.1 hnames).1]
  rfl

/-- A path below the directory names the place below its place. -/
theorem resolve_join {follow : Bool} (h : fs.Names path p) (hd : DirsTo p fs.view names)
    (hl : follow = true → ∀ target, fs.view (p ++ names) ≠ some (.link target)) :
    fs.resolve follow (path.join names) = .ok (p ++ names) := by
  have hr := h.resolves
  rw [resolve, if_neg h.ne_empty] at hr
  rw [resolve, if_neg (h.join_ne_empty names)]
  exact resolveFrom_append h.dir hr (walk_real hd hl)

end Names

/-! ## The order of names -/

theorem perm_sortNames (names : List Name) : (sortNames names).Perm names := List.mergeSort_perm _ _

theorem mem_sortNames : n ∈ sortNames names ↔ n ∈ names := (perm_sortNames names).mem_iff

/-- The names in a directory are those under which something lies. -/
theorem mem_namesAt : n ∈ fs.namesAt p ↔ fs.view (p ++ [n]) ≠ none := by
  unfold namesAt
  rcases hget : fs.root.get p with _ | t
  · simp only [List.not_mem_nil, false_iff, not_not]
    refine view_below_none (fun hdir => ?_) (by simp)
    obtain ⟨_, _, hsome⟩ := get_of_view_dir hdir
    rw [hget] at hsome
    cases hsome
  · rcases t with ⟨a, b⟩ | ⟨a, cs⟩ | target | _
    case dir => exact mem_children_iff hget n
    all_goals
      simp only [children, List.map_nil, List.not_mem_nil, false_iff, not_not]
      refine view_below_none ?_ (by simp)
      rw [view_of_get hget]
      simp [shape]

theorem nodup_namesAt (h : fs.Distinct) (p : Loc) : (fs.namesAt p).Nodup := by
  unfold namesAt
  rcases hget : fs.root.get p with _ | t
  · exact List.nodup_nil
  · rcases t with ⟨a, b⟩ | ⟨a, cs⟩ | target | _
    case dir => exact h p a cs hget
    all_goals exact List.nodup_nil

/-! ## The walk -/

/-- A walk comes to all that lies below its start and not too deep. -/
theorem mem_listing : below ∈ fs.listing p depth names ↔
    ∃ rest, rest ≠ [] ∧ rest.length ≤ depth ∧ below = names ++ rest ∧ fs.view (p ++ below) ≠ none := by
  induction depth generalizing names below with
  | zero =>
    rw [listing]
    refine ⟨fun h => absurd h List.not_mem_nil, ?_⟩
    rintro ⟨rest, hne, hle, -⟩
    exact absurd (List.length_eq_zero_iff.1 (Nat.le_zero.1 hle)) hne
  | succ depth ih =>
    rw [listing, List.mem_flatMap]
    constructor
    · rintro ⟨n, hn, hmem⟩
      rw [mem_sortNames, mem_namesAt, List.append_assoc] at hn
      rcases List.mem_cons.1 hmem with rfl | hmem
      · exact ⟨[n], by simp, by simp, rfl, hn⟩
      · obtain ⟨rest, -, hle, rfl, hview⟩ := ih.1 hmem
        exact ⟨n :: rest, by simp, by simpa using hle, by simp, hview⟩
    · rintro ⟨rest, hne, hle, rfl, hview⟩
      obtain ⟨n, rest, rfl⟩ := List.exists_cons_of_ne_nil hne
      rw [List.append_cons names n rest] at hview ⊢
      refine ⟨n, ?_, ?_⟩
      · rw [mem_sortNames, mem_namesAt, List.append_assoc]
        rcases rest with _ | ⟨k, rest⟩
        · rwa [List.append_nil] at hview
        · rw [← List.append_assoc] at hview
          rw [view_dir_of_below (List.cons_ne_nil k rest) hview]
          exact Option.some_ne_none _
      · rcases rest with _ | ⟨k, rest⟩
        · rw [List.append_nil]
          exact List.mem_cons_self
        · refine List.mem_cons_of_mem _ (ih.2 ⟨k :: rest, List.cons_ne_nil k rest, by simpa using hle, rfl, hview⟩)

/-- It comes to each of them once. -/
theorem nodup_listing (h : fs.Distinct) (p : Loc) (depth : Nat) (names : List Name) :
    (fs.listing p depth names).Nodup := by
  induction depth generalizing names with
  | zero => exact List.nodup_nil
  | succ depth ih =>
    rw [listing, List.nodup_flatMap]
    refine ⟨fun n _ => ?_, ?_⟩
    · refine List.nodup_cons.2 ⟨fun hmem => ?_, ih _⟩
      obtain ⟨rest, hne, -, heq, -⟩ := mem_listing.1 hmem
      exact hne (List.self_eq_append_right.1 heq)
    · have hnodup := (perm_sortNames (fs.namesAt (p ++ names))).nodup_iff.2 (nodup_namesAt h _)
      refine hnodup.imp fun {a b} hab below ha hb => hab ?_
      -- what lies below a name starts with it
      have hstart : ∀ n, below ∈ (names ++ [n]) :: fs.listing p depth (names ++ [n]) →
          ∃ rest, below = names ++ n :: rest := by
        intro n hmem
        rcases List.mem_cons.1 hmem with rfl | hmem
        · exact ⟨[], rfl⟩
        · obtain ⟨rest, -, -, rfl, -⟩ := mem_listing.1 hmem
          exact ⟨rest, by simp⟩
      obtain ⟨ra, rfl⟩ := hstart a ha
      obtain ⟨rb, heq⟩ := hstart b hb
      exact (List.cons_eq_cons.1 (List.append_cancel_left heq)).1

end FS

/-! ## Calls keep names distinct -/

namespace Node

variable {t : Node} {f : Option Node → Option Node}

theorem distinct_dir_iff {a : Attr} {cs : List (Name × Node)} :
    (dir a cs).Distinct ↔ (cs.map Prod.fst).Nodup ∧ ∀ n c, cs.lookup n = some c → c.Distinct := by
  constructor
  · refine fun h => ⟨h [] a cs rfl, fun n c hc p a' cs' hget => h (n :: p) a' cs' ?_⟩
    rw [get_cons, children, hc]
    exact hget
  · rintro ⟨hnodup, hbelow⟩ p a' cs' hget
    cases p with
    | nil =>
      cases hget
      exact hnodup
    | cons n p =>
      rw [get_cons, children] at hget
      obtain ⟨c, hc, hget⟩ := Option.bind_eq_some_iff.1 hget
      exact hbelow n c hc p a' cs' hget

/-- Something without children is distinct. -/
theorem distinct_leaf (h : t.children = []) : t.Distinct := by
  intro p a cs hget
  cases p with
  | nil =>
    cases hget
    rw [show cs = [] from h]
    exact List.nodup_nil
  | cons n p =>
    rw [get_cons, h] at hget
    cases hget

theorem Distinct.get {c : Node} {p : Loc} (h : t.Distinct) (hget : t.get p = some c) : c.Distinct := by
  intro q a cs hc
  refine h (p ++ q) a cs ?_
  rw [get_append, hget]
  exact hc

theorem nodup_setChild {cs : List (Name × Node)} (h : (cs.map Prod.fst).Nodup) (n : Name) (v : Option Node) :
    ((setChild cs n v).map Prod.fst).Nodup := by
  have hrest : ((cs.filter fun c => !decide (c.1 = n)).map Prod.fst).Nodup :=
    h.sublist (List.filter_sublist.map _)
  cases v with
  | none => exact hrest
  | some c =>
    refine List.nodup_cons.2 ⟨fun hmem => ?_, hrest⟩
    obtain ⟨k, hk, rfl⟩ := List.mem_map.1 hmem
    simpa using (List.mem_filter.1 hk).2

/-- Names stay distinct when the altered object has distinct names. -/
theorem Distinct.alter {p : Loc} (h : t.Distinct)
    (hf : ∀ o c, (∀ d, o = some d → d.Distinct) → f o = some c → c.Distinct) : (t.alter f p).Distinct := by
  induction p generalizing t with
  | nil =>
    rw [Node.alter]
    rcases hv : f (some t) with _ | c
    · exact h
    · exact hf _ c (fun d hd => by cases hd; exact h) hv
  | cons n p ih =>
    cases t with
    | dir a cs =>
      obtain ⟨hnodup, hbelow⟩ := distinct_dir_iff.1 h
      -- the children after one of them has been replaced
      have hset : ∀ v, (∀ c, v = some c → c.Distinct) → (dir a (setChild cs n v)).Distinct := by
        intro v hv
        refine distinct_dir_iff.2 ⟨nodup_setChild hnodup n v, fun k c hc => ?_⟩
        rw [lookup_setChild] at hc
        split at hc
        · exact hv c hc
        · exact hbelow k c hc
      cases p with
      | nil => exact hset _ fun c hc => hf _ c (fun d hd => hbelow n d hd) hc
      | cons k p =>
        rw [Node.alter]
        rcases hlook : cs.lookup n with _ | c
        · exact h
        · refine hset _ fun d hd => ?_
          cases hd
          exact ih (hbelow n c hlook)
    | file a b => exact h
    | link target => exact h
    | special => exact h

theorem Distinct.mapAttr (h : t.Distinct) (g : Attr → Attr) : (t.mapAttr g).Distinct := by
  cases t with
  | dir a cs => exact distinct_dir_iff.2 (distinct_dir_iff.1 h)
  | file a b => exact distinct_leaf rfl
  | link target => exact h
  | special => exact h

end Node

namespace FS

variable {fs : FS} {p q : Loc}

theorem Distinct.setAttr (h : fs.Distinct) (g : Attr → Attr) (p : Loc) :
    FS.Distinct { fs with root := fs.root.alter (Option.map (Node.mapAttr g)) p } := by
  refine Node.Distinct.alter h fun o c ho hc => ?_
  obtain ⟨d, hd, rfl⟩ := Option.map_eq_some_iff.1 hc
  exact (ho d hd).mapAttr g

theorem Distinct.touch (h : fs.Distinct) (p : Loc) : (fs.touch p).Distinct := h.setAttr _ p

theorem Distinct.put (h : fs.Distinct) {v : Node} (hv : v.Distinct) (p : Loc) : (fs.put p v).Distinct :=
  Node.Distinct.alter h fun _ _ _ hc => Option.some.inj hc ▸ hv

theorem Distinct.erase (h : fs.Distinct) (p : Loc) : (fs.erase p).Distinct :=
  Node.Distinct.alter h fun _ _ _ hc => by cases hc

theorem Distinct.store (h : fs.Distinct) (p : Loc) (f : List UInt8 → List UInt8) : (fs.store p f).Distinct := by
  unfold FS.store
  split
  · exact h.put (Node.distinct_leaf rfl) p
  · exact h

theorem Distinct.openAt (h : fs.Distinct) (p : Loc) (o : OpenOptions) : (fs.openAt p o).2.Distinct := by
  unfold FS.openAt
  split
  · split
    · exact (h.put (Node.distinct_leaf rfl) p).touch _
    · exact h
  · split
    · exact h
    · split
      · exact h
      · exact h
      · split
        · exact h
        · exact h
      · split
        · exact h
        · split
          · exact h.store _ _
          · exact h

theorem Distinct.move (h : fs.Distinct) (p q : Loc) : (fs.move p q).2.Distinct := by
  unfold FS.move
  rcases hget : fs.root.get p with _ | t
  · exact h
  · have hmoved := (((h.erase p).put (h.get hget) q).touch p.dropLast).touch q.dropLast
    dsimp only
    split
    · exact h
    · split
      · exact h
      · split
        all_goals first | exact hmoved | exact h

/-- Whatever call is made, names stay distinct. -/
theorem Distinct.exec (h : fs.Distinct) (c : FsCall) : (FS.exec c fs).2.Distinct := by
  cases c with
  | openFile path o =>
    simp only [FS.exec]
    split
    · exact h.openAt _ _
    · exact h
  | setPermissions q mode => exact h.setAttr _ q
  | setTimes q modified => exact h.setAttr _ q
  | setLen q len => exact h.store q _
  | write q bytes => exact h.store q _
  | writeAt q offset bytes => exact h.store q _
  | createDir path =>
    simp only [FS.exec]
    split
    · split
      · exact h
      · exact (h.put (Node.distinct_leaf rfl) _).touch _
    · exact h
  | removeFile path =>
    simp only [FS.exec]
    split
    · split
      · exact h
      · exact (h.erase _).touch _
      · exact h
    · exact h
  | rename source target =>
    simp only [FS.exec]
    split
    · exact h.move _ _
    · exact h
    · exact h
  | lstat path => exact h
  | stat path => exact h
  | fstat q => exact h
  | sync q => exact h
  | readToEnd q =>
    simp only [FS.exec]
    split
    · exact h
    · exact h
  | readAt q offset count =>
    simp only [FS.exec]
    split
    · split
      · exact h
      · exact h
    · exact h
  | readDir path =>
    simp only [FS.exec]
    split
    · split
      · exact h
      · exact h
      · exact h
    · exact h

/-- The names are distinct in every file system that a program leaves behind. -/
theorem Distinct.runPlan {E ε α : Type} {refuse : (c : FsCall) → E → FsReply c} (h : fs.Distinct)
    (program : Effects.Prog FsReply ε α) (plan : List (Option E)) :
    (program.runPlan machine refuse plan fs).2.1.Distinct :=
  (Effects.Prog.only_any program).runPlan (I := FS.Distinct) (fun c _ _ ht => ht.exec c) plan fs h

end FS

end FileSystem
