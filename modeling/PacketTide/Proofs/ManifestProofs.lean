import PacketTide.Manifest
import PacketTide.Text.Proofs.NumberProofs
import PacketTide.Text.Proofs.SplitProofs

/-!
# What an accepted manifest promises

Parsing accepts only the text that encoding gives back, and entries that are sorted, whose paths
are safe and whose parents come before them.
-/

namespace PacketTide

open FileSystem Text

/-! ## Checks -/

theorem check_bind {α β : Type} (a : α) (f : α → Check β) : ((.ok a : Check α) >>= f) = f a := rfl

theorem except_bind_ok {ε α β : Type} {x : Except ε α} {f : α → Except ε β} {b : β}
    (h : (x >>= f) = .ok b) : ∃ a, x = .ok a ∧ f a = .ok b := by
  rcases x with e | a
  · cases h
  · exact ⟨a, rfl, h⟩

theorem refuseIf_ok {c : Prop} [Decidable c] {message : String} {u : Unit}
    (h : refuseIf c message = .ok u) : ¬c := by
  intro hc
  rw [refuseIf, if_pos hc] at h
  cases h

theorem refuseIf_of_not {c : Prop} [Decidable c] {message : String} (h : ¬ c) :
    refuseIf c message = .ok () := by
  rw [refuseIf, if_neg h]

/-! ## Hexadecimal fields -/

theorem length_hash (hash : Hash) : (hex hash.bytes).length = 64 := by
  rw [length_hex]
  simp [Hash.bytes]

theorem digit_of_isLowerHexDigit {a : UInt8} (h : isLowerHexDigit a) :
    ∃ d : Fin 16, digitValue 16 a = some d.val ∧ hexDigit (UInt8.ofNat d) = a := by
  have hall : ∀ k : Fin 256, isLowerHexDigit (UInt8.ofNat k) →
      ∃ d : Fin 16, digitValue 16 (UInt8.ofNat k) = some d.val ∧
        hexDigit (UInt8.ofNat d) = UInt8.ofNat k := by decide +kernel
  have hk := hall ⟨a.toNat, a.toNat_lt⟩
  rw [UInt8.ofNat_toNat] at hk
  exact hk h

theorem nibbles (d e : Fin 16) :
    (UInt8.ofNat (d.val * 16 + e.val)) >>> 4 = UInt8.ofNat d ∧
      (UInt8.ofNat (d.val * 16 + e.val)) &&& 15 = UInt8.ofNat e := by
  revert d e
  decide +kernel

/-- Lower-case hexadecimal text is the text of the bytes that are read from it. -/
theorem hex_hexPairs (value : Str) (heven : value.length % 2 = 0)
    (hdigits : value.all isLowerHexDigit) : hex (hexPairs value) = value := by
  induction value using hexPairs.induct with
  | case1 a b rest ih =>
    rw [List.all_cons, List.all_cons, Bool.and_eq_true, Bool.and_eq_true] at hdigits
    obtain ⟨ha, hb, hrest⟩ := hdigits
    obtain ⟨d, hd, hda⟩ := digit_of_isLowerHexDigit ha
    obtain ⟨e, he, heb⟩ := digit_of_isLowerHexDigit hb
    have hvalue : digitsValue 16 [a, b] = some (d.val * 16 + e.val) := by
      simp [digitsValue, hd, he]
    obtain ⟨hhigh, hlow⟩ := nibbles d e
    rw [hexPairs, hvalue, Option.getD_some, hex_cons, hhigh, hlow, hda, heb]
    rw [List.length_cons, List.length_cons] at heven
    rw [ih (by omega) hrest]
  | case2 value hv =>
    cases value with
    | nil => rfl
    | cons a value =>
      cases value with
      | nil => simp at heven
      | cons b rest => exact absurd rfl (hv a b rest)

theorem decodeHex_eq_ok {value : Str} {bytes : List UInt8} (h : decodeHex value = .ok bytes) :
    hex bytes = value := by
  unfold decodeHex at h
  split_ifs at h with hc
  cases h
  simp only [Bool.or_eq_true, not_or, Bool.not_eq_true, bne_eq_false_iff_eq,
    Bool.not_eq_false'] at hc
  exact hex_hexPairs value hc.1.2 hc.2

theorem decodeHash_eq_ok {value : Str} {hash : Hash} (h : decodeHash value = .ok hash) :
    hex hash.bytes = value := by
  obtain ⟨bytes, hb, h⟩ := except_bind_ok h
  split_ifs at h with hlen
  cases h
  exact decodeHex_eq_ok hb

/-! ## The text of an accepted manifest -/

theorem lines_of_parseEntries {n : Nat} {input rest : List Str} {entries : List ManifestEntry}
    (h : parseEntries n input = .ok (entries, rest)) :
    entries.length = n ∧ input = input.take n ++ rest := by
  induction n generalizing input entries with
  | zero =>
    cases h
    exact ⟨rfl, rfl⟩
  | succ n ih =>
    cases input with
    | nil => cases h
    | cons line input =>
      obtain ⟨entry, _, h⟩ := except_bind_ok h
      obtain ⟨⟨entries', rest'⟩, hn, h⟩ := except_bind_ok h
      cases h
      obtain ⟨hlen, hinput⟩ := ih hn
      refine ⟨by rw [List.length_cons, hlen], ?_⟩
      rw [List.take_succ_cons, List.cons_append, ← hinput]

theorem parseFooter_eq_ok {last : List Str} {hash : Hash} (h : parseFooter last = .ok hash) :
    last = [ascii "HASH " ++ hex hash.bytes] := by
  match last, h with
  | [footer], h =>
    unfold parseFooter stripPrefix at h
    by_cases hp : ascii "HASH " <+: footer
    · simp only [hp, if_true] at h
      obtain ⟨supplied, rfl⟩ := hp
      rw [List.drop_left] at h
      rw [decodeHash_eq_ok h]
    · simp only [hp, if_false] at h
      cases h

/-- What parsing has checked. -/
structure Accepted (manifest : Manifest) : Prop where
  valid : validateEntries manifest.entries = .ok ()
  length_le : (encode manifest).length ≤ maxManifestBytes

/-- Parsing accepts only what encoding the result gives back. -/
theorem encode_of_parse [Sha256] {encoded : Str} {manifest : Manifest}
    (h : parse encoded = .ok manifest) : encode manifest = encoded ∧ Accepted manifest := by
  unfold parse at h
  obtain ⟨_, hform, h⟩ := except_bind_ok h
  have hform := refuseIf_ok hform
  rw [not_or, not_or, not_not] at hform
  obtain ⟨hlen, hend, hcr⟩ := hform
  have hlines := flatMap_lines hcr hend
  cases hl : lines encoded with
  | nil =>
    rw [hl] at h
    cases h
  | cons header rest =>
    rw [hl] at h hlines
    obtain ⟨⟨count, rootMode, seconds, nanoseconds⟩, _, h⟩ := except_bind_ok h
    obtain ⟨_, -, h⟩ := except_bind_ok h
    obtain ⟨⟨entries, last⟩, hentries, h⟩ := except_bind_ok h
    obtain ⟨hash, hfooter, h⟩ := except_bind_ok h
    obtain ⟨_, -, h⟩ := except_bind_ok h
    obtain ⟨_, hvalid, h⟩ := except_bind_ok h
    obtain ⟨_, hbody, h⟩ := except_bind_ok h
    cases h
    have hbody := not_not.1 (refuseIf_ok hbody)
    have hencode : encode ⟨entries, rootMode, seconds, nanoseconds, hash⟩ = encoded := by
      have hrest := (lines_of_parseEntries hentries).2
      rw [parseFooter_eq_ok hfooter] at hrest
      rw [← hlines, hrest, ← List.cons_append, List.flatMap_append, ← hbody]
      simp [encode]
    exact ⟨hencode, hvalid, by rw [hencode]; omega⟩

/-! ## Relative paths and names -/

theorem of_validateRelativePath {path : List UInt8} (h : validateRelativePath path = .ok ()) :
    path ≠ [] ∧ path.length ≤ maxRelativePathBytes ∧ ∀ part ∈ path.splitOn 47, ValidName part := by
  unfold validateRelativePath at h
  split_ifs at h with hc
  simp only [Bool.or_eq_true, not_or] at hc
  obtain ⟨⟨⟨⟨hne, hlen⟩, -⟩, -⟩, hparts⟩ := hc
  rw [Bool.not_eq_true, List.any_eq_false] at hparts
  refine ⟨by simpa using hne, by simpa using hlen, fun part hp => ?_⟩
  have hpart := hparts part hp
  simp only [Bool.or_eq_true, not_or, List.isEmpty_iff, beq_iff_eq] at hpart
  exact ⟨hpart.1.1, hpart.1.2, hpart.2, not_mem_of_mem_splitOn hp⟩

theorem filterMap_names {parts : List (List UInt8)} (h : ∀ part ∈ parts, ValidName part) :
    (parts.filterMap fun part => if h : ValidName part then some (⟨part, h⟩ : Name) else none).map
      Name.bytes = parts := by
  induction parts with
  | nil => rfl
  | cons part parts ih =>
    have hpart := h part List.mem_cons_self
    rw [List.filterMap_cons, dif_pos hpart, List.map_cons,
      ih fun p hp => h p (List.mem_cons_of_mem _ hp)]

/-- The components of a checked path are its parts. -/
theorem bytes_pathFromBytes {path : List UInt8} (h : validateRelativePath path = .ok ()) :
    (pathFromBytes path).map Name.bytes = path.splitOn 47 :=
  filterMap_names (of_validateRelativePath h).2.2

theorem joined_pathFromBytes {path : List UInt8} (h : validateRelativePath path = .ok ()) :
    Path.joined (pathFromBytes path) = path := by
  rw [Path.joined, bytes_pathFromBytes h, List.intercalate_splitOn]

theorem pathFromBytes_ne_nil {path : List UInt8} (h : validateRelativePath path = .ok ()) :
    pathFromBytes path ≠ [] := by
  intro he
  have hb := bytes_pathFromBytes h
  rw [he, List.map_nil] at hb
  exact List.splitOn_ne_nil _ _ hb.symm

/-- Names are read back from their path. -/
theorem pathFromBytes_joined {names : List Name} (h : names ≠ []) :
    pathFromBytes (Path.joined names) = names := by
  have hsplit : (Path.joined names).splitOn 47 = names.map Name.bytes := by
    refine List.splitOn_intercalate 47 ?_ (by simpa using h)
    intro l hl
    obtain ⟨n, -, rfl⟩ := List.mem_map.1 hl
    exact n.valid.2.2.2
  rw [pathFromBytes, hsplit, List.filterMap_map]
  refine (List.filterMap_congr fun n _ => ?_).trans List.filterMap_some
  exact dif_pos n.valid

theorem joined_append {init rest : List Name} (h : init ≠ []) (h' : rest ≠ []) :
    Path.joined (init ++ rest) = Path.joined init ++ 47 :: Path.joined rest := by
  induction init with
  | nil => exact absurd rfl h
  | cons n init ih =>
    obtain ⟨m, rest, rfl⟩ := List.exists_cons_of_ne_nil h'
    cases init with
    | nil => simp [Path.joined, List.intercalate_cons_cons]
    | cons k init =>
      have hih := ih (by simp)
      simp only [Path.joined, List.cons_append, List.map_cons, List.intercalate_cons_cons] at hih ⊢
      rw [hih]
      simp

theorem length_le_joined (names : List Name) : names.length ≤ (Path.joined names).length := by
  induction names with
  | nil => exact Nat.zero_le _
  | cons n names ih =>
    have hn := List.length_pos_of_ne_nil n.valid.1
    cases names with
    | nil =>
      have hone : Path.joined [n] = n.bytes := by simp [Path.joined]
      rw [hone]
      exact hn
    | cons m names =>
      have hj : Path.joined (n :: m :: names) = Path.joined [n] ++ 47 :: Path.joined (m :: names) :=
        joined_append (List.cons_ne_nil n []) (List.cons_ne_nil m names)
      rw [hj, List.length_append, List.length_cons, List.length_cons (a := 47)]
      have hone : Path.joined [n] = n.bytes := by simp [Path.joined]
      rw [hone]
      omega

theorem mem_parents {path : List UInt8} {i : Nat} (h : path[i]? = some 47) :
    path.take i ∈ parents path := by
  refine List.mem_map.2 ⟨i, List.mem_filter.2 ⟨List.mem_range.2 ?_, by simpa using h⟩, rfl⟩
  exact (List.getElem?_eq_some_iff.1 h).1

/-- The directories above a path are among its parents. -/
theorem joined_mem_parents {init rest : List Name} (h : init ≠ []) (h' : rest ≠ []) :
    Path.joined init ∈ parents (Path.joined (init ++ rest)) := by
  rw [joined_append h h']
  have hi : (Path.joined init ++ 47 :: Path.joined rest)[(Path.joined init).length]? = some 47 := by
    simp
  have hmem := mem_parents hi
  rwa [List.take_left] at hmem

/-! ## Valid entries -/

/-- What the checks of the entries promise. -/
structure WellFormed (entries : List ManifestEntry) : Prop where
  path : ∀ e ∈ entries, validateRelativePath e.path = .ok ()
  sorted : entries.Pairwise fun a b => a.path < b.path
  nanoseconds : ∀ e ∈ entries, 0 ≤ e.modifiedNanoseconds ∧ e.modifiedNanoseconds < 1000000000
  file_hash : ∀ e ∈ entries, e.kind = .file → ∃ h, e.hash = some h
  parent : ∀ pre e post, entries = pre ++ e :: post → ∀ p ∈ parents e.path,
    ∃ d ∈ pre, d.path = p ∧ d.kind = .directory

theorem mem_of_lookup {kinds : List (List UInt8 × EntryKind)} {p : List UInt8} {k : EntryKind}
    (h : kinds.lookup p = some k) : (p, k) ∈ kinds := by
  induction kinds with
  | nil => cases h
  | cons first kinds ih =>
    obtain ⟨q, l⟩ := first
    rw [List.lookup_cons] at h
    split at h
    next hq =>
      cases h
      rw [beq_iff_eq] at hq
      rw [hq]
      exact List.mem_cons_self
    next => exact List.mem_cons_of_mem _ (ih h)

theorem of_validateEntry {previous : Option (List UInt8)} {kinds : List (List UInt8 × EntryKind)}
    {entry : ManifestEntry} (h : validateEntry previous kinds entry = .ok ()) :
    validateRelativePath entry.path = .ok () ∧ (∀ value, previous = some value → value < entry.path) ∧
      (0 ≤ entry.modifiedNanoseconds ∧ entry.modifiedNanoseconds < 1000000000) ∧
      (entry.kind = .file → ∃ hash, entry.hash = some hash) ∧
      ∀ p ∈ parents entry.path, (p, EntryKind.directory) ∈ kinds := by
  obtain ⟨_, hpath, h⟩ := except_bind_ok h
  obtain ⟨_, hsorted, h⟩ := except_bind_ok h
  obtain ⟨_, hnano, h⟩ := except_bind_ok h
  obtain ⟨_, -, h⟩ := except_bind_ok h
  obtain ⟨_, -, h⟩ := except_bind_ok h
  obtain ⟨_, hhash, h⟩ := except_bind_ok h
  have hsorted := refuseIf_ok hsorted
  have hnano := refuseIf_ok hnano
  have hhash := refuseIf_ok hhash
  have hparents := refuseIf_ok h
  refine ⟨hpath, ?_, ⟨by omega, by omega⟩, ?_, ?_⟩
  · rintro value rfl
    simpa using hsorted
  · intro hk
    exact Option.ne_none_iff_exists'.1 fun hn => hhash ⟨hk, by simp [hn]⟩
  · intro p hp
    rw [Bool.not_eq_true, List.any_eq_false] at hparents
    have hlookup := hparents p hp
    rw [bne_iff_ne, not_not] at hlookup
    exact mem_of_lookup hlookup

theorem wellFormed_from {previous : Option (List UInt8)} {kinds : List (List UInt8 × EntryKind)}
    {before entries : List ManifestEntry}
    (hkinds : ∀ p k, (p, k) ∈ kinds → ∃ d ∈ before, d.path = p ∧ d.kind = k)
    (hprevious : ∀ d ∈ before, ∃ value, previous = some value ∧ (d.path < value ∨ d.path = value))
    (h : validateEntriesFrom previous kinds entries = .ok ()) :
    (∀ e ∈ entries, validateRelativePath e.path = .ok ()) ∧
      (entries.Pairwise fun a b => a.path < b.path) ∧
      (∀ d ∈ before, ∀ e ∈ entries, d.path < e.path) ∧
      (∀ e ∈ entries, 0 ≤ e.modifiedNanoseconds ∧ e.modifiedNanoseconds < 1000000000) ∧
      (∀ e ∈ entries, e.kind = .file → ∃ h, e.hash = some h) ∧
      ∀ pre e post, entries = pre ++ e :: post → ∀ p ∈ parents e.path,
        ∃ d ∈ before ++ pre, d.path = p ∧ d.kind = .directory := by
  induction entries generalizing previous kinds before with
  | nil => simp
  | cons entry entries ih =>
    obtain ⟨_, hentry, hrest⟩ := except_bind_ok h
    obtain ⟨hpath, hsorted, hnano, hhash, hparents⟩ := of_validateEntry hentry
    have hlt : ∀ d ∈ before, d.path < entry.path := by
      intro d hd
      obtain ⟨value, hv, hle⟩ := hprevious d hd
      have hval := hsorted value hv
      rcases hle with hle | hle
      · exact List.lt_trans hle hval
      · exact hle ▸ hval
    have hkinds' : ∀ p k, (p, k) ∈ (entry.path, entry.kind) :: kinds →
        ∃ d ∈ before ++ [entry], d.path = p ∧ d.kind = k := by
      intro p k hm
      rcases List.mem_cons.1 hm with hm | hm
      · cases hm
        exact ⟨entry, by simp, rfl, rfl⟩
      · obtain ⟨d, hd, hdk⟩ := hkinds p k hm
        exact ⟨d, List.mem_append_left _ hd, hdk⟩
    have hprevious' : ∀ d ∈ before ++ [entry],
        ∃ value, some entry.path = some value ∧ (d.path < value ∨ d.path = value) := by
      intro d hd
      refine ⟨entry.path, rfl, ?_⟩
      rcases List.mem_append.1 hd with hd | hd
      · exact Or.inl (hlt d hd)
      · exact Or.inr (by rw [List.mem_singleton.1 hd])
    obtain ⟨h1, h2, h3, h4, h5, h6⟩ := ih hkinds' hprevious' hrest
    refine ⟨?_, ?_, ?_, ?_, ?_, ?_⟩
    · exact List.forall_mem_cons.2 ⟨hpath, h1⟩
    · exact List.pairwise_cons.2 ⟨fun e he => h3 entry (by simp) e he, h2⟩
    · intro d hd e he
      rcases List.mem_cons.1 he with rfl | he
      · exact hlt d hd
      · exact h3 d (List.mem_append_left _ hd) e he
    · exact List.forall_mem_cons.2 ⟨hnano, h4⟩
    · exact List.forall_mem_cons.2 ⟨hhash, h5⟩
    · intro pre e post he p hp
      cases pre with
      | nil =>
        cases he
        obtain ⟨d, hd, hdk⟩ := hkinds p .directory (hparents p hp)
        exact ⟨d, by simpa using hd, hdk⟩
      | cons first pre =>
        cases he
        obtain ⟨d, hd, hdk⟩ := h6 pre e post rfl p hp
        exact ⟨d, by simpa using hd, hdk⟩

theorem wellFormed_of_validateEntries {entries : List ManifestEntry} (h : validateEntries entries = .ok ()) :
    WellFormed entries := by
  obtain ⟨_, -, hfrom⟩ := except_bind_ok h
  obtain ⟨h1, h2, -, h4, h5, h6⟩ :=
    wellFormed_from (fun p k hm => by cases hm) (fun d (hd : d ∈ []) => by cases hd) hfrom
  exact ⟨h1, h2, h4, h5, fun pre e post he p hp => by simpa using h6 pre e post he p hp⟩

theorem Accepted.wellFormed {manifest : Manifest} (h : Accepted manifest) : WellFormed manifest.entries :=
  wellFormed_of_validateEntries h.valid

/-- Sorted entries are told apart by their paths. -/
theorem eq_of_sorted {entries : List ManifestEntry} (hs : entries.Pairwise fun a b => a.path < b.path)
    {d e : ManifestEntry} (hd : d ∈ entries) (he : e ∈ entries) (hp : d.path = e.path) : d = e := by
  induction entries with
  | nil => cases hd
  | cons first rest ih =>
    obtain ⟨hfirst, hrest⟩ := List.pairwise_cons.1 hs
    rcases List.mem_cons.1 hd with hd | hd <;> rcases List.mem_cons.1 he with he | he
    · rw [hd, he]
    · exact absurd (hp ▸ hd ▸ hfirst e he) (List.lt_irrefl _)
    · exact absurd (hp ▸ he ▸ hfirst d hd) (List.lt_irrefl _)
    · exact ih hrest hd he

namespace WellFormed

variable {entries : List ManifestEntry} (h : WellFormed entries)

include h

theorem names_ne_nil {e : ManifestEntry} (he : e ∈ entries) : pathFromBytes e.path ≠ [] :=
  pathFromBytes_ne_nil (h.path e he)

theorem joined_names {e : ManifestEntry} (he : e ∈ entries) :
    Path.joined (pathFromBytes e.path) = e.path :=
  joined_pathFromBytes (h.path e he)

/-- The directories above an entry are entries before it. -/
theorem parent_before {pre post : List ManifestEntry} {e : ManifestEntry}
    (he : entries = pre ++ e :: post) {init rest : List Name} (hi : init ≠ []) (hr : rest ≠ [])
    (hn : pathFromBytes e.path = init ++ rest) :
    ∃ d ∈ pre, d.kind = .directory ∧ pathFromBytes d.path = init := by
  have hmem : e ∈ entries := by simp [he]
  have hp := joined_mem_parents hi hr
  rw [← hn, h.joined_names hmem] at hp
  obtain ⟨d, hd, hpath, hk⟩ := h.parent pre e post he _ hp
  refine ⟨d, hd, hk, ?_⟩
  rw [hpath, pathFromBytes_joined hi]

end WellFormed

end PacketTide
