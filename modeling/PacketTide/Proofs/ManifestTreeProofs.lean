import PacketTide.Proofs.RoundTripProofs

/-!
# The checks of the entries decide whether they are a tree

The checks go through the entries once and look back only. As a path is sorted before every path that
extends it, they accept just the entries that are sorted, sound and closed under directories.
-/

namespace PacketTide

open FileSystem Text

/-- A path that a manifest may name. -/
structure RelativePath (path : List UInt8) : Prop where
  nonempty : path ≠ []
  length_le : path.length ≤ maxRelativePathBytes
  nul : 0 ∉ path
  parts : ∀ part ∈ path.splitOn 47, part ≠ [] ∧ part ≠ [46] ∧ part ≠ [46, 46]

/-- Entries that make up a tree. -/
structure TreeEntries (entries : List ManifestEntry) : Prop where
  sorted : entries.Pairwise fun a b => a.path < b.path
  path : ∀ e ∈ entries, RelativePath e.path
  parent : ∀ e ∈ entries, ∀ above below, e.path = above ++ 47 :: below →
    ∃ d ∈ entries, d.path = above ∧ d.kind = .directory
  mode : ∀ e ∈ entries, e.mode ≤ 0o777
  nanoseconds : ∀ e ∈ entries, 0 ≤ e.modifiedNanoseconds ∧ e.modifiedNanoseconds < 1000000000
  file : ∀ e ∈ entries, e.kind = .file → e.hash.isSome
  directory : ∀ e ∈ entries, e.kind = .directory → e.size = 0 ∧ e.hash = none

/-- What follows for the places of the entries below a root. -/
structure TreePlaces (entries : List ManifestEntry) : Prop where
  leaf : ∀ e ∈ entries, e.kind = .file → ∀ f ∈ entries, ¬∃ below, f.path = e.path ++ 47 :: below
  precedes : ∀ before e after, entries = before ++ e :: after → ∀ above below, e.path = above ++ 47 :: below →
    ∃ d ∈ before, d.path = above ∧ d.kind = .directory
  distinct : ∀ root : Path, entries.Pairwise fun e f =>
    root.join (pathFromBytes e.path) ≠ root.join (pathFromBytes f.path)
  below : ∀ root : Path, ∀ e ∈ entries, pathFromBytes e.path ≠ [] ∧
    Path.joined (pathFromBytes e.path) = e.path ∧
    (root.join (pathFromBytes e.path)).base = root.base ∧
    (root.join (pathFromBytes e.path)).names = root.names ++ pathFromBytes e.path

/-! ## Paths -/

theorem validateRelativePath_iff {path : List UInt8} : validateRelativePath path = .ok () ↔ RelativePath path := by
  unfold validateRelativePath
  constructor
  · intro h
    split at h
    · cases h
    next hc =>
      simp only [Bool.or_eq_true, not_or, List.isEmpty_iff, decide_eq_true_eq, beq_iff_eq, List.contains_iff_mem,
        List.any_eq_true, not_exists, not_and] at hc
      obtain ⟨⟨⟨⟨hne, hlen⟩, -⟩, hnul⟩, hparts⟩ := hc
      exact ⟨hne, Nat.not_lt.1 hlen, hnul, fun part hp => ⟨(hparts part hp).1.1, (hparts part hp).1.2,
        (hparts part hp).2⟩⟩
  · intro h
    rw [if_neg]
    simp only [Bool.or_eq_true, not_or, List.isEmpty_iff, decide_eq_true_eq, beq_iff_eq, List.contains_iff_mem,
      List.any_eq_true, not_exists, not_and]
    refine ⟨⟨⟨⟨h.nonempty, Nat.not_lt.2 h.length_le⟩, fun hhead => ?_⟩, h.nul⟩, fun part hp =>
      ⟨⟨(h.parts part hp).1, (h.parts part hp).2.1⟩, (h.parts part hp).2.2⟩⟩
    -- a path that begins with a slash has an empty first part
    obtain ⟨rest, hrest⟩ := List.head?_eq_some_iff.1 hhead
    refine (h.parts [] ?_).1 rfl
    rw [hrest, ← List.nil_append (47 :: rest), List.splitOn_append_cons_self, List.splitOn_nil]
    exact List.mem_cons_self

theorem mem_parents_iff {path above : List UInt8} :
    above ∈ parents path ↔ ∃ below, path = above ++ 47 :: below := by
  constructor
  · intro h
    obtain ⟨i, hi, rfl⟩ := List.mem_map.1 h
    have hslash : path[i]? = some 47 := by simpa using (List.mem_filter.1 hi).2
    obtain ⟨hlt, hget⟩ := List.getElem?_eq_some_iff.1 hslash
    refine ⟨path.drop (i + 1), ?_⟩
    rw [← hget, List.getElem_cons_drop, List.take_append_drop]
  · rintro ⟨below, rfl⟩
    have hmem := @mem_parents (above ++ 47 :: below) above.length (by simp)
    rwa [List.take_left] at hmem

/-- A path is sorted before what extends it. -/
theorem lt_append_cons (above : List UInt8) (b : UInt8) (below : List UInt8) : above < above ++ b :: below := by
  induction above with
  | nil => exact List.nil_lt_cons _ _
  | cons a above ih =>
    rw [List.cons_append, List.cons_lt_cons_self]
    exact ih

/-! ## Completeness -/

theorem lookup_of_mem {kinds : List (List UInt8 × EntryKind)} {p : List UInt8} {k : EntryKind}
    (hmem : (p, k) ∈ kinds) (hunique : ∀ l, (p, l) ∈ kinds → l = k) : kinds.lookup p = some k := by
  induction kinds with
  | nil => cases hmem
  | cons first kinds ih =>
    obtain ⟨q, l⟩ := first
    rw [List.lookup_cons]
    split
    next hq =>
      rw [beq_iff_eq] at hq
      subst hq
      rw [hunique l List.mem_cons_self]
    next hq =>
      refine ih ?_ fun l hl => hunique l (List.mem_cons_of_mem _ hl)
      rcases List.mem_cons.1 hmem with hfirst | hrest
      · cases hfirst
        exact absurd (beq_self_eq_true p) (Bool.eq_false_iff.1 hq)
      · exact hrest

/-- What is sorted before an entry stands before it. -/
theorem mem_before_of_lt {before after : List ManifestEntry} {d e : ManifestEntry}
    (hs : (before ++ e :: after).Pairwise fun a b => a.path < b.path) (hd : d ∈ before ++ e :: after)
    (hlt : d.path < e.path) : d ∈ before := by
  obtain ⟨-, hafter, -⟩ := List.pairwise_append.1 hs
  rcases List.mem_append.1 hd with hd | hd
  · exact hd
  · rcases List.mem_cons.1 hd with rfl | hd
    · exact absurd hlt (List.lt_irrefl _)
    · exact absurd (List.lt_trans hlt ((List.pairwise_cons.1 hafter).1 d hd)) (List.lt_irrefl _)

theorem validateEntriesFrom_ok {before entries : List ManifestEntry} (h : TreeEntries (before ++ entries)) :
    validateEntriesFrom (before.getLast?.map (·.path)) (before.map fun e => (e.path, e.kind)).reverse entries =
      .ok () := by
  induction entries generalizing before with
  | nil => rfl
  | cons entry entries ih =>
    have hmem : entry ∈ before ++ entry :: entries := List.mem_append_right _ List.mem_cons_self
    obtain ⟨hbefore, -, hcross⟩ := List.pairwise_append.1 h.sorted
    have hprevious : ¬(before.getLast?.map (·.path)).any (fun value => decide (¬value < entry.path)) := by
      rcases hlast : before.getLast? with _ | last
      · exact Bool.false_ne_true
      · have hlt := hcross last (List.mem_of_getLast? hlast) entry List.mem_cons_self
        simpa using hlt
    have hparents : ¬(parents entry.path).any fun parent =>
        (before.map fun e => (e.path, e.kind)).reverse.lookup parent != some .directory := by
      rw [Bool.not_eq_true, List.any_eq_false]
      intro above habove
      obtain ⟨below, hpath⟩ := mem_parents_iff.1 habove
      obtain ⟨d, hd, rfl, hkind⟩ := h.parent entry hmem above below hpath
      have hlt : d.path < entry.path := hpath ▸ lt_append_cons d.path 47 below
      have hdbefore := mem_before_of_lt h.sorted hd hlt
      have hlookup := @lookup_of_mem ((before.map fun e => (e.path, e.kind)).reverse) d.path
          .directory ?_ ?_
      · rw [hlookup]
        decide
      · exact List.mem_reverse.2 (List.mem_map.2 ⟨d, hdbefore, by rw [hkind]⟩)
      · intro l hl
        obtain ⟨e, he, heq⟩ := List.mem_map.1 (List.mem_reverse.1 hl)
        rw [Prod.mk.injEq] at heq
        have hsame : e = d := eq_of_sorted hbefore he hdbefore heq.1
        rw [← heq.2, hsame, hkind]
    have hentry : validateEntry (before.getLast?.map (·.path)) (before.map fun e => (e.path, e.kind)).reverse
        entry = .ok () := by
      have hnano := h.nanoseconds entry hmem
      have hmode := h.mode entry hmem
      rw [validateEntry, validateRelativePath_iff.2 (h.path entry hmem), check_bind, refuseIf_of_not hprevious,
        check_bind, refuseIf_of_not (by omega), check_bind, refuseIf_of_not (by omega), check_bind,
        refuseIf_of_not ?_, check_bind, refuseIf_of_not ?_, check_bind, refuseIf_of_not hparents]
      · rintro ⟨hkind, hnone⟩
        have hsome := h.file entry hmem hkind
        rw [Option.isNone_iff_eq_none.1 hnone] at hsome
        cases hsome
      · rintro ⟨hkind, hdata⟩
        obtain ⟨hsize, hhash⟩ := h.directory entry hmem hkind
        rw [hsize, hhash] at hdata
        simp at hdata
    rw [validateEntriesFrom, hentry, check_bind]
    have hnext := @ih (before ++ [entry]) (by rw [List.append_assoc]; exact h)
    rw [List.getLast?_concat, List.map_append, List.reverse_append] at hnext
    exact hnext

/-! ## Soundness -/

theorem treeEntries_of_validateEntries {entries : List ManifestEntry} (h : validateEntries entries = .ok ()) :
    TreeEntries entries := by
  obtain ⟨-, hsound⟩ := sound_of_validateEntries h
  have hwell := wellFormed_of_validateEntries h
  refine ⟨hwell.sorted, fun e he => validateRelativePath_iff.1 (hwell.path e he), ?_,
    fun e he => (hsound e he).mode, hwell.nanoseconds, fun e he hkind => ?_, fun e he => (hsound e he).directory⟩
  · intro e he above below hpath
    obtain ⟨before, after, hsplit⟩ := List.append_of_mem he
    obtain ⟨d, hd, hdpath, hkind⟩ := hwell.parent before e after hsplit above (mem_parents_iff.2 ⟨below, hpath⟩)
    exact ⟨d, hsplit ▸ List.mem_append_left _ hd, hdpath, hkind⟩
  · obtain ⟨hash, hhash⟩ := hwell.file_hash e he hkind
    rw [hhash]
    rfl

/-- Sorted entries that are closed under directories are where they belong. -/
theorem TreeEntries.places {entries : List ManifestEntry} (h : TreeEntries entries) : TreePlaces entries := by
  have hvalid : ∀ e ∈ entries, validateRelativePath e.path = .ok () := fun e he =>
    validateRelativePath_iff.2 (h.path e he)
  refine ⟨fun e he hkind f hf ⟨below, hbelow⟩ => ?_, fun before e after hsplit above below hpath => ?_,
    fun root => ?_, fun root e he => ?_⟩
  · obtain ⟨d, hd, hpath, hdir⟩ := h.parent f hf e.path below hbelow
    rw [eq_of_sorted h.sorted hd he hpath, hkind] at hdir
    cases hdir
  · have he : e ∈ entries := hsplit ▸ List.mem_append_right _ List.mem_cons_self
    obtain ⟨d, hd, hdpath, hkind⟩ := h.parent e he above below hpath
    have hlt : d.path < e.path := by
      rw [hpath, hdpath]
      exact lt_append_cons above 47 below
    refine ⟨d, ?_, hdpath, hkind⟩
    exact mem_before_of_lt (hsplit ▸ h.sorted) (hsplit ▸ hd) hlt
  · refine h.sorted.imp_of_mem fun {e f} he hf hlt hsame => ?_
    have hnames : root.names ++ pathFromBytes e.path = root.names ++ pathFromBytes f.path :=
      congrArg Path.names hsame
    have hpath : e.path = f.path := by
      rw [← joined_pathFromBytes (hvalid e he), List.append_cancel_left hnames, joined_pathFromBytes (hvalid f hf)]
    exact absurd (hpath ▸ hlt) (List.lt_irrefl _)
  · exact ⟨pathFromBytes_ne_nil (hvalid e he), joined_pathFromBytes (hvalid e he), rfl, rfl⟩

/-- The checks accept just the entries that make up a tree. -/
theorem validate_entries_iff (entries : List ManifestEntry) (hcount : entries.length ≤ maxManifestEntries) :
    (validateEntries entries = .ok () ↔ TreeEntries entries) ∧
      (validateEntries entries = .ok () → TreePlaces entries) := by
  refine ⟨⟨treeEntries_of_validateEntries, fun h => ?_⟩, fun h => (treeEntries_of_validateEntries h).places⟩
  rw [validateEntries, refuseIf_of_not (Nat.not_lt.2 hcount), check_bind]
  exact @validateEntriesFrom_ok [] _ h

/-- A directory, a file that is sorted between it and its content, and its content. -/
def siblingEntries : List ManifestEntry :=
  [⟨ascii "a", .directory, 0o755, 0, 0, 0, none⟩,
    ⟨ascii "a.b", .file, 0o644, -1, 999999999, 3, some (Vector.replicate 32 1)⟩,
    ⟨ascii "a/b", .file, 0o644, 0, 0, 0, some (Vector.replicate 32 2)⟩]

theorem validate_entries_iff_sibling : TreeEntries siblingEntries ∧ TreePlaces siblingEntries :=
  ⟨(validate_entries_iff siblingEntries (by decide)).1.1 (by decide),
    (validate_entries_iff siblingEntries (by decide)).2 (by decide)⟩

end PacketTide
