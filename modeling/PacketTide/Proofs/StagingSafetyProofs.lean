import PacketTide.Proofs.PrepareProofs

/-!
# What preparing promises

However calls fail, and wherever it is killed, `prepare_staging` touches nothing but the staging
directory; when it succeeds, that directory holds what the manifest allows and nothing else.
-/

namespace PacketTide

open Effects FileSystem Prog Text FS

variable {home : Loc} {v w : View} {fs t : FS} {root path : Path} {m : Manifest}
  {base : Option (List UInt8)} {name : Name} {entries : List ManifestEntry}

/-- Neither of two names in one directory is below the other. -/
theorem siblings_apart {a b : Name} (hne : a ≠ b) : ¬home ++ [a] <+: home ++ [b] := by
  rw [List.prefix_append_right_inj]
  intro hbelow
  exact hne (List.cons.inj (hbelow.eq_of_length rfl)).1

/-! ## Calls that fail -/

theorem Strict.other {α : Type} {p : FsProg α} (h : p.Strict refuse) : p.Strict refuseOther := by
  induction p with
  | done r => exact trivial
  | call c next ih => exact ⟨fun e => h.1 e.1, fun r => ih r (h.2 r)⟩

/-- The program goes on after a look at a path only if it has seen something or nothing is there. -/
theorem strict_tryLstat {α : Type} {f : Except Errno Metadata → FsProg α}
    (hf : ∀ r, (f r).Strict refuseOther)
    (herror : ∀ e, e ≠ .notFound → ∃ stop, f (.error e) = .done (.error stop)) :
    (tryLstat path >>= f).Strict refuseOther :=
  ⟨fun e => herror e.1 e.2, hf⟩

theorem strict_requireAbsent {message : String} : (requireAbsent path message).Strict refuseOther := by
  refine strict_tryLstat (fun r => ?_) fun e he => ?_
  · rcases r with _ | _
    · cases ‹Errno› <;> exact trivial
    · exact trivial
  · cases e <;> first | exact absurd rfl he | exact ⟨_, rfl⟩

theorem strict_requireRealDirectory : (requireRealDirectory path).Strict refuse :=
  strict_ask.bind fun _ => strict_ite (strict_done _) strict_failWith

theorem strict_readNofollow : (readNofollow path).Strict refuse :=
  strict_ask.bind fun _ => strict_ask.bind fun _ => strict_ite strict_failWith (strict_done _)

theorem strict_enterStaging {encoded : Str} : (enterStaging root encoded).Strict refuseOther := by
  refine strict_tryLstat (fun r => ?_) fun e he => ?_
  · rcases r with e | metadata
    · cases e
      case notFound =>
        exact Strict.other (strict_ask.bind fun _ => strict_ask.bind fun _ => strict_ask.bind fun _ =>
          strict_ask)
      all_goals exact trivial
    · exact Strict.other (strict_ite (strict_readNofollow.bind fun _ =>
        strict_ite (strict_done _) strict_failWith) strict_failWith)
  · cases e <;> first | exact absurd rfl he | exact ⟨_, rfl⟩

theorem strict_ensureDirectory : (ensureDirectory path).Strict refuseOther := by
  refine strict_tryLstat (fun r => ?_) fun e he => ?_
  · rcases r with e | metadata
    · cases e
      case notFound => exact Strict.other strict_ask
      all_goals exact trivial
    · exact Strict.other (strict_ite (strict_done _) strict_failWith)
  · cases e <;> first | exact absurd rfl he | exact ⟨_, rfl⟩

theorem strict_eachDirectory {E : Type} {other : (c : FsCall) → E → FsReply c}
    {check : ManifestEntry → FsProg Unit} (h : ∀ e, (check e).Strict other) :
    ∀ entries, (eachDirectory check entries).Strict other
  | [] => strict_done _
  | _ :: entries => strict_ite ((h _).bind fun _ => strict_eachDirectory h entries)
      (strict_eachDirectory h entries)

theorem strict_validateChild {allowed : Allowed} {visit : List Name → FsProg Unit}
    (h : ∀ relative, (visit relative).Strict refuse) (relative : List Name) :
    (validateChild root allowed visit relative).Strict refuse := by
  refine strict_ask.bind fun metadata => ?_
  cases metadata.fileType with
  | symlink => exact strict_failWith
  | dir => exact strict_ite (h _) strict_failWith
  | file => exact strict_ite (strict_done _) strict_failWith
  | special => exact strict_failWith

theorem strict_validateChildren {allowed : Allowed} {visit : List Name → FsProg Unit}
    (h : ∀ relative, (visit relative).Strict refuse) (relative : List Name) :
    ∀ children, (validateChildren root allowed visit relative children).Strict refuse
  | [] => strict_done _
  | _ :: children => (strict_validateChild h _).bind fun _ =>
      strict_validateChildren h relative children

theorem strict_validateStagingDirectory {allowed : Allowed} (depth : Nat) (relative : List Name) :
    (validateStagingDirectory root allowed depth relative).Strict refuse := by
  induction depth generalizing relative with
  | zero => exact strict_failWith
  | succ depth ih => exact strict_ask.bind fun children => strict_validateChildren ih relative children

theorem strict_validateStagingTree {b : Bool} : (validateStagingTree m root b).Strict refuse :=
  strict_requireRealDirectory.bind fun _ =>
    (strict_eachDirectory (fun _ => strict_requireRealDirectory) _).bind fun _ =>
      strict_validateStagingDirectory _ _

/-- Preparing stops at the first call that fails. -/
theorem strict_prepareStaging [Sha256] {destination : Path} :
    (prepareStaging m destination).Strict refuseOther :=
  strict_requireAbsent.bind fun _ => (Strict.other strict_requireRealDirectory).bind fun _ =>
    strict_enterStaging.bind fun _ =>
      ((strict_eachDirectory (fun _ => strict_ensureDirectory) _).bind fun _ =>
        Strict.other strict_validateStagingTree).bind fun _ => strict_done _

/-! ## What stays as it is -/

theorem Entered.agreeOutside (h : Entered home root m v w) :
    AgreeOutside (home ++ root.names) v w := fun _ hq => h.eq_of_not_below hq

theorem Grown.agreeOutside {p : Loc} (h : Grown p entries v w) : AgreeOutside p v w := by
  intro q hq
  rcases h q with heq | ⟨-, -, e, -, -, rfl⟩
  · exact heq
  · exact absurd (List.prefix_append _ _) hq

theorem AgreeOutside.trans {p : Loc} {u : View} (h : AgreeOutside p v w) (h' : AgreeOutside p w u) :
    AgreeOutside p v u := fun q hq => (h' q hq).trans (h q hq)

/-- A kill at any point leaves everything outside the staging directory as it was. -/
theorem agreeOutside_of_cut [Sha256] (ha : Accepted m)
    (hc : Cut machine (prepareStaging m ⟨base, [name]⟩) fs t) :
    t.home = fs.home ∧
      AgreeOutside (fs.home ++ (stagingPath m ⟨base, [name]⟩).names) fs.view t.view := by
  have hnames := stagingPath_names m base name
  have hsame : ∀ {t : FS}, t.Looks fs.home fs.view → t.home = fs.home ∧
      AgreeOutside (fs.home ++ (stagingPath m ⟨base, [name]⟩).names) fs.view t.view :=
    fun hl => ⟨hl.home_eq, fun _ _ => by rw [hl.view_eq]⟩
  unfold prepareStaging at hc
  rcases cut_bind hc with hc | ⟨_, t₁, ht₁, hc⟩
  · exact hsame (looks_of_cut keeps_requireAbsent fs.looks_self hc)
  have hl₁ := looks_of_succeeds keeps_requireAbsent fs.looks_self (Succeeds.of_run ht₁)
  rcases cut_bind hc with hc | ⟨_, t₂, ht₂, hc⟩
  · exact hsame (looks_of_cut keeps_requireRealDirectory hl₁ hc)
  have hl₂ := looks_of_succeeds keeps_requireRealDirectory hl₁ (Succeeds.of_run ht₂)
  have hdir : fs.view fs.home = some .dir := (requireParent_ok_iff base name hl₁).1 (by rw [ht₂])
  have hn : (stagingPath m ⟨base, [name]⟩).names ≠ [] := by simp [hnames]
  have hd : DirsTo fs.home fs.view (stagingPath m ⟨base, [name]⟩).names := by
    rw [hnames]
    exact dirsTo_singleton.2 hdir
  obtain ⟨hcut, hrun⟩ := safe_enterStaging hn hd hl₂ ha.length_le
  rcases cut_bind hc with hc | ⟨_, t₃, ht₃, hc⟩
  · obtain ⟨w, hlw, rfl | ⟨-, hout⟩ | hentered⟩ := hcut t hc
    · exact hsame hlw
    · exact ⟨hlw.home_eq, hlw.view_eq ▸ hout⟩
    · exact ⟨hlw.home_eq, hlw.view_eq ▸ hentered.agreeOutside⟩
  obtain ⟨u, hlu, hentered, -⟩ := hrun
  rw [ht₃] at hlu hentered
  have hu := hentered rfl
  obtain ⟨hfill, -⟩ := safe_fillStaging ha.wellFormed (hu.realRoot hn hd) hlu
  have hgrown : ∀ {t : FS}, (∃ w, t.Looks fs.home w ∧
      Grown (fs.home ++ (stagingPath m ⟨base, [name]⟩).names) m.entries u w) → t.home = fs.home ∧
        AgreeOutside (fs.home ++ (stagingPath m ⟨base, [name]⟩).names) fs.view t.view := by
    rintro t ⟨w, hlw, hg⟩
    exact ⟨hlw.home_eq, hlw.view_eq ▸ hu.agreeOutside.trans hg.agreeOutside⟩
  rcases cut_bind hc with hc | ⟨_, t₄, ht₄, hc⟩
  · exact hgrown (hfill t hc)
  · rw [cut_done hc]
    exact hgrown (hfill t₄ (by rw [show t₄ = _ from (congrArg Prod.snd ht₄).symm]; exact Cut.of_run _ _))

/-! ## What is there in the end -/

theorem plain_of_allowedAt {allowed : Allowed} {names : List Name} {s : Shape}
    (h : AllowedAt allowed names s) : s = .dir ∨ ∃ content, s = .file content := by
  cases s with
  | dir => exact .inl rfl
  | file content => exact .inr ⟨content, rfl⟩
  | link target => exact absurd h id
  | special => exact absurd h id

/-- What is allowed in a staging tree and is not the marker belongs to an entry. -/
theorem belongsTo_of_allowedAt {names : List Name} {s : Shape} (hne : names ≠ [])
    (hmarker : names ≠ [markerName]) (h : AllowedAt (allowedIn m true) names s) :
    ∃ e ∈ m.entries, BelongsTo e names s := by
  cases s with
  | dir =>
    obtain ⟨e, he, hpath⟩ := List.mem_map.1 h
    obtain ⟨he, hk⟩ := List.mem_filter.1 he
    exact ⟨e, he, of_decide_eq_true hk, hpath.symm⟩
  | file content =>
    rcases h with h | h | h
    · obtain ⟨e, he, hpath⟩ := List.mem_map.1 h
      obtain ⟨he, hk⟩ := List.mem_filter.1 he
      exact ⟨e, he, of_decide_eq_true hk, .inl hpath.symm⟩
    · refine absurd ?_ hmarker
      rw [← pathFromBytes_joined hne, h, pathFromBytes_marker]
    · obtain ⟨file, hfile, hpart⟩ := List.mem_flatMap.1 h
      obtain ⟨e, he, rfl⟩ := List.mem_map.1 hfile
      obtain ⟨he, hk⟩ := List.mem_filter.1 he
      simp only [List.mem_cons, List.not_mem_nil, or_false] at hpart
      exact ⟨e, he, of_decide_eq_true hk, .inr hpart⟩
  | link target => exact absurd h id
  | special => exact absurd h id

/-- The name of a staging directory spells the digest of the destination. -/
theorem stagingName_ne [Sha256] (h : DigestUnforeseen (Path.bytes ⟨base, [name]⟩)) :
    stagingName m ⟨base, [name]⟩ ≠ name := by
  intro heq
  refine h ?_
  have hname : hex (Sha256.digest (Path.bytes ⟨base, [name]⟩)).bytes <:+: name.bytes := by
    conv_rhs => rw [← heq]
    have hslash : ∀ bytes, 47 ∉ hex bytes := fun _ => not_mem_hex (by decide)
    have hsuffix : 47 ∉ hex m.hash.bytes ++ ascii "-" ++
        hex (Sha256.digest (Path.bytes ⟨base, [name]⟩)).bytes ++ ascii ".part" := by
      simp only [List.mem_append, hslash, false_or]
      decide
    rw [stagingName, Name.bytes_append hsuffix]
    exact ⟨ascii ".packet-tide-" ++ (hex m.hash.bytes ++ ascii "-"), ascii ".part", by
      simp only [List.append_assoc]⟩
  have hbytes : name.bytes <:+: Path.bytes ⟨base, [name]⟩ := by
    cases base with
    | none => exact ⟨[], [], by simp [Path.bytes, Path.joined]⟩
    | some b => exact ⟨b ++ [47], [], by simp [Path.bytes, Path.joined]⟩
  exact hname.trans hbytes

/-- Where preparing has succeeded, the destination is absent and the staging directory holds its marker,
the directories of the manifest, and otherwise nothing but what belongs to an entry. However calls fail,
and at every point, nothing outside the staging directory has been made or changed. -/
theorem prepare_staging_safe [Sha256] {encoded : Str} (hm : parse encoded = .ok m)
    (base : Option (List UInt8)) (name : Name)
    (hdigest : DigestUnforeseen (Path.bytes ⟨base, [name]⟩)) (fs : FS) :
    (∀ staging t, Succeeds machine refuseOther (prepareStaging m ⟨base, [name]⟩) fs staging t →
      staging = stagingPath m ⟨base, [name]⟩ ∧
        Prepared fs.home staging ⟨base, [name]⟩ m t.view) ∧
      ∀ t, Visits machine refuseOther (prepareStaging m ⟨base, [name]⟩) fs t →
        AgreeOutside (fs.home ++ (stagingPath m ⟨base, [name]⟩).names) fs.view t.view := by
  have ha := (encode_of_parse hm).2
  refine ⟨fun staging t hs => ?_, fun t hv =>
    (agreeOutside_of_cut ha (strict_prepareStaging.cut_of_visits hv)).2⟩
  have hrun := strict_prepareStaging.run_of_succeeds hs
  have hcut := agreeOutside_of_cut ha (t := t) (by
    have hend := Cut.of_run (M := machine) (prepareStaging m ⟨base, [name]⟩) fs
    rwa [hrun] at hend)
  obtain ⟨-, hroot, hiff, hready⟩ := @safe_prepareStaging _ _ _ _ base name _ ha fs.looks_self
  rw [hrun] at hroot hiff hready
  obtain rfl := hroot staging rfl
  have hprep := hiff.1 rfl
  obtain ⟨u, w, hlw, hentered, hgrown, hstaged⟩ := hready hprep
  rw [hlw.view_eq] at hcut ⊢
  refine ⟨rfl, ?_, hstaged.dir, hgrown.eq_of_some hentered.marker, hstaged.directories, ?_, ?_⟩
  · rw [hcut.2, hprep.absent]
    rw [stagingPath_names]
    exact siblings_apart (stagingName_ne hdigest)
  · intro names s hs
    rcases names with _ | ⟨first, names⟩
    · rw [List.append_nil, hstaged.dir] at hs
      exact .inl (Option.some.inj hs).symm
    · exact plain_of_allowedAt (hstaged.allowed (first :: names) (List.cons_ne_nil _ _) s hs)
  · intro names s hne hmarker hs
    exact belongsTo_of_allowedAt hne hmarker (hstaged.allowed names hne s hs)

section Example

open Sample

/-- The promise, for a tree of one file at `./d`. -/
theorem prepare_staging_safe_oneFile :
    (∀ staging t, Succeeds machine refuseOther (prepareStaging oneFile here) FS.empty staging t →
      staging = stagingPath oneFile here ∧ Prepared FS.empty.home staging here oneFile t.view) ∧
      ∀ t, Visits machine refuseOther (prepareStaging oneFile here) FS.empty t →
        AgreeOutside (FS.empty.home ++ (stagingPath oneFile here).names) FS.empty.view t.view :=
  prepare_staging_safe parse_oneFile _ _ (fun h => absurd h.length_le (by decide)) FS.empty

end Example

end PacketTide
