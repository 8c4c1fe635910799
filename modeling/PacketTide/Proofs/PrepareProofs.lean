import PacketTide.Proofs.InstalledProofs

/-!
# When preparing succeeds

`prepare_staging` succeeds exactly when nothing is in its way: the destination is absent, and the
staging directory is absent too or is one of this manifest. Everything it does keeps this so, except
that a staging directory without its complete marker is refused.
-/

namespace PacketTide

open Effects FileSystem Prog Text FS

variable {home : Loc} {v w : View} {fs t : FS} {root path : Path} {m : Manifest}
  {base : Option (List UInt8)} {name : Name} {entries : List ManifestEntry}

/-! ## Directories that are added -/

/-- Below a place some directories of the entries have been added where nothing was. -/
def Grown (p : Loc) (entries : List ManifestEntry) (v w : View) : Prop :=
  ∀ q, w q = v q ∨ v q = none ∧ w q = some .dir ∧
    ∃ e ∈ entries, e.kind = .directory ∧ q = p ++ pathFromBytes e.path

/-- No directory of the entries is blocked by something else. -/
def Unblocked (v : View) (p : Loc) (entries : List ManifestEntry) : Prop :=
  ∀ e ∈ entries, e.kind = .directory →
    v (p ++ pathFromBytes e.path) = none ∨ v (p ++ pathFromBytes e.path) = some .dir

theorem unblocked_singleton {p : Loc} {e : ManifestEntry} (hk : e.kind = .directory) :
    Unblocked v p [e] ↔
      v (p ++ pathFromBytes e.path) = none ∨ v (p ++ pathFromBytes e.path) = some .dir := by
  constructor
  · intro h
    exact h e (List.mem_singleton_self e) hk
  · intro h d hd _
    rw [List.mem_singleton.1 hd]
    exact h

theorem unblocked_cons {p : Loc} {e : ManifestEntry} {l : List ManifestEntry} :
    Unblocked v p (e :: l) ↔ Unblocked v p [e] ∧ Unblocked v p l := by
  constructor
  · intro h
    exact ⟨fun d hd => h d (by rw [List.mem_singleton.1 hd]; exact List.mem_cons_self),
      fun d hd => h d (List.mem_cons_of_mem e hd)⟩
  · rintro ⟨he, hl⟩ d hd
    rcases List.mem_cons.1 hd with rfl | hd
    · exact he d (List.mem_singleton_self d)
    · exact hl d hd

namespace Grown

variable {p : Loc} {u : View}

theorem refl (p : Loc) (entries : List ManifestEntry) (v : View) : Grown p entries v v :=
  fun _ => Or.inl rfl

theorem trans (h : Grown p entries v w) (h' : Grown p entries w u) : Grown p entries v u := by
  intro q
  rcases h q with h | ⟨hv, hw, he⟩
  · rw [← h]
    exact h' q
  · rcases h' q with h' | ⟨hw', -, -⟩
    · exact Or.inr ⟨hv, h'.trans hw, he⟩
    · cases hw.symm.trans hw'

theorem eq_of_some (h : Grown p entries v w) {q : Loc} {s : Shape} (hv : v q = some s) :
    w q = some s := by
  rcases h q with h | ⟨hn, -, -⟩
  · rw [h, hv]
  · cases hn.symm.trans hv

/-- What is not in the directory that grows stays as it is. -/
theorem eq_of_not_below (h : Grown p entries v w) (hw : WellFormed entries) {q : Loc}
    (hq : q.length ≤ p.length) : w q = v q := by
  rcases h q with h | ⟨-, -, e, he, -, rfl⟩
  · exact h
  · have hpos := List.length_pos_of_ne_nil (hw.names_ne_nil he)
    rw [List.length_append] at hq
    omega

theorem unblocked_iff (h : Grown p entries v w) (l : List ManifestEntry) :
    Unblocked w p l ↔ Unblocked v p l := by
  have hq : ∀ q, (w q = none ∨ w q = some .dir) ↔ (v q = none ∨ v q = some .dir) := by
    intro q
    rcases h q with h | ⟨hv, hw, -⟩
    · rw [h]
    · simp [hv, hw]
  unfold Unblocked
  simp only [hq]

theorem realRoot (h : Grown (home ++ root.names) entries v w) (hr : RealRoot home v root) :
    RealRoot home w root :=
  ⟨hr.names_ne, fun k hk => h.eq_of_some (hr.dirs k hk), h.eq_of_some hr.dir⟩

end Grown

/-- Make the directory of an entry, if it is not blocked. -/
theorem safe_ensureDirectory {e : ManifestEntry} (hr : RealRoot home v root) (hl : fs.Looks home v)
    (he : e ∈ entries) (hk : e.kind = .directory) (hne : pathFromBytes e.path ≠ [])
    (hd : DirsTo (home ++ root.names) v (pathFromBytes e.path)) :
    Safe machine (fun t => ∃ w, t.Looks home w ∧ Grown (home ++ root.names) entries v w)
      (ensureDirectory (entryPath root e))
      (fun r t => ∃ w, t.Looks home w ∧ Grown (home ++ root.names) entries v w ∧
        (r = .ok () ↔ Unblocked v (home ++ root.names) [e]) ∧
        (r = .ok () → w (home ++ root.names ++ pathFromBytes e.path) = some .dir)) fs := by
  have hself : ∃ w, fs.Looks home w ∧ Grown (home ++ root.names) entries v w :=
    ⟨v, hl, .refl _ _ _⟩
  have hlstat := exec_lstat_dirs hl (hr.join_ne _) (hr.join_dirs hd)
  rw [place_join] at hlstat
  unfold ensureDirectory tryLstat
  cases hv : v (home ++ root.names ++ pathFromBytes e.path) with
  | some s =>
    obtain ⟨metadata, hm, htype, -⟩ := metadataAt_some (hl.view_eq ▸ hv)
    rw [hm] at hlstat
    refine safe_request hlstat hself (fun _ htorn => by cases htorn) ?_
    by_cases hs : s = .dir
    · subst hs
      have htype' : metadata.fileType = .dir := htype
      dsimp only
      rw [if_pos htype']
      refine safe_done hself ⟨v, hl, .refl _ _ _, ?_, fun _ => hv⟩
      rw [unblocked_singleton hk, hv]
      simp
    · have htype' : metadata.fileType ≠ .dir := by
        rw [htype]
        cases s <;> first | exact absurd rfl hs | simp [typeOf]
      dsimp only
      rw [if_neg htype']
      refine safe_done hself ⟨v, hl, .refl _ _ _, ?_, fun hok => by cases hok⟩
      rw [unblocked_singleton hk, hv]
      simp [hs]
  | none =>
    rw [metadataAt_none (hl.view_eq ▸ hv)] at hlstat
    refine safe_request hlstat hself (fun _ htorn => by cases htorn) ?_
    dsimp only
    have hres := resolve_dirs hl (hr.join_ne _) (hr.join_dirs hd)
    rw [place_join] at hres
    have hparent : fs.view (home ++ root.names ++ pathFromBytes e.path).dropLast = some .dir := by
      have hp := parent_of_dirs (hr.join_ne _) (hr.join_dirs hd)
      rwa [place_join, ← hl.view_eq] at hp
    obtain ⟨t, ht, hhome, hview⟩ := exec_createDir hres (by simp [hne]) hparent (hl.view_eq ▸ hv)
    rw [hl.view_eq] at hview
    have hgrown : Grown (home ++ root.names) entries v t.view := by
      intro q
      rw [hview]
      by_cases hq : q = home ++ root.names ++ pathFromBytes e.path
      · subst hq
        exact Or.inr ⟨hv, Function.update_self _ _ _, e, he, hk, rfl⟩
      · exact Or.inl (Function.update_of_ne hq _ _)
    have hlt : t.Looks home t.view := ⟨hhome.trans hl.home_eq, rfl⟩
    refine safe_ask_last ht hself (fun _ htorn => by cases htorn) ⟨_, hlt, hgrown⟩ ⟨_, hlt, hgrown, ?_, fun _ => ?_⟩
    · rw [unblocked_singleton hk, hv]
      simp
    · rw [hview, Function.update_self]

/-- Make the directories of the entries. The induction keeps that those of the entries before are
there, so that each one is reached through real directories. -/
theorem safe_ensureDirectories {pre post : List ManifestEntry} (hw : WellFormed entries)
    (he : entries = pre ++ post) (hr : RealRoot home v root) (hl : fs.Looks home v)
    (hpre : ∀ d ∈ pre, d.kind = .directory →
      v (home ++ root.names ++ pathFromBytes d.path) = some .dir) :
    Safe machine (fun t => ∃ w, t.Looks home w ∧ Grown (home ++ root.names) entries v w)
      (eachDirectory (fun entry => ensureDirectory (entryPath root entry)) post)
      (fun r t => ∃ w, t.Looks home w ∧ Grown (home ++ root.names) entries v w ∧
        (r = .ok () ↔ Unblocked v (home ++ root.names) post) ∧
        (r = .ok () → ∀ d ∈ entries, d.kind = .directory →
          w (home ++ root.names ++ pathFromBytes d.path) = some .dir)) fs := by
  induction post generalizing pre v fs with
  | nil =>
    rw [List.append_nil] at he
    refine safe_done ⟨v, hl, .refl _ _ _⟩ ⟨v, hl, .refl _ _ _, ?_, fun _ => he ▸ hpre⟩
    exact ⟨fun _ => by simp [Unblocked], fun _ => rfl⟩
  | cons e post ih =>
    have hmem : e ∈ entries := by simp [he]
    unfold eachDirectory
    by_cases hk : e.kind = .directory
    · rw [if_pos hk]
      refine safe_bind (fun _ t => ∃ w, t.Looks home w ∧ Grown (home ++ root.names) entries v w ∧
        Unblocked v (home ++ root.names) [e] ∧
        w (home ++ root.names ++ pathFromBytes e.path) = some .dir) ?_ ?_
      · refine (safe_ensureDirectory hr hl hmem hk (hw.names_ne_nil hmem)
          (hw.dirsTo he hr.dir hpre)).mono (fun _ h => h) ?_
        rintro r t - ⟨w, hlw, hgrown, hiff, hdir⟩
        refine ⟨?_, ?_⟩
        · rintro err rfl
          refine ⟨w, hlw, hgrown, ⟨fun hok => (by cases hok), fun hu => ?_⟩, fun hok => by cases hok⟩
          cases hiff.2 (unblocked_cons.1 hu).1
        · rintro _ rfl
          exact ⟨w, hlw, hgrown, hiff.1 rfl, hdir rfl⟩
      · rintro _ t - ⟨w, hlw, hgrown, hfree, hdir⟩
        have he' : entries = (pre ++ [e]) ++ post := by simp [he]
        refine (ih he' (hgrown.realRoot hr) hlw ?_).mono ?_ ?_
        · intro d hd hkd
          rcases List.mem_append.1 hd with hd | hd
          · exact hgrown.eq_of_some (hpre d hd hkd)
          · rw [List.mem_singleton.1 hd]
            exact hdir
        · rintro t' ⟨u, hlu, hu⟩
          exact ⟨u, hlu, hgrown.trans hu⟩
        · rintro r t' - ⟨u, hlu, hu, hiff, hdirs⟩
          refine ⟨u, hlu, hgrown.trans hu, ?_, hdirs⟩
          rw [hiff, hgrown.unblocked_iff, unblocked_cons]
          exact ⟨fun h => ⟨hfree, h⟩, fun h => h.2⟩
    · rw [if_neg hk]
      have hskip : Unblocked v (home ++ root.names) [e] :=
        fun d hd hkd => absurd (List.mem_singleton.1 hd ▸ hkd) hk
      have he' : entries = (pre ++ [e]) ++ post := by simp [he]
      refine (ih he' hr hl ?_).mono (fun _ h => h) ?_
      · intro d hd hkd
        rcases List.mem_append.1 hd with hd | hd
        · exact hpre d hd hkd
        · exact absurd (List.mem_singleton.1 hd ▸ hkd) hk
      · rintro r t - ⟨w, hlw, hgrown, hiff, hdirs⟩
        refine ⟨w, hlw, hgrown, ?_, hdirs⟩
        rw [hiff, unblocked_cons]
        exact ⟨fun h => ⟨hskip, h⟩, fun h => h.2⟩

/-! ## An existing staging directory -/

/-- A staging directory that can be entered: it has the complete marker of the manifest, and what is
in it is allowed and blocks no directory. -/
structure Enterable (v : View) (p : Loc) (m : Manifest) : Prop where
  dir : v p = some .dir
  marker : v (p ++ [markerName]) = some (.file (encode m))
  unblocked : Unblocked v p m.entries
  allowed : AllowedBelow v p (allowedIn m true) []

theorem mem_directories {e : ManifestEntry} (he : e ∈ m.entries) (hk : e.kind = .directory) :
    e.path ∈ m.directories :=
  List.mem_map.2 ⟨e, List.mem_filter.2 ⟨he, by simp [hk]⟩, rfl⟩

theorem Grown.allowed {p : Loc} {b : Bool} (h : Grown p m.entries v w) (hw : WellFormed m.entries) :
    AllowedBelow w p (allowedIn m b) [] ↔ AllowedBelow v p (allowedIn m b) [] := by
  constructor
  · intro ha below hb s hs
    exact ha below hb s (h.eq_of_some hs)
  · intro ha below hb s hs
    rcases h (p ++ ([] ++ below)) with heq | ⟨-, hdir, e, he, hk, hq⟩
    · exact ha below hb s (heq ▸ hs)
    · rw [hdir] at hs
      cases hs
      have hnames : [] ++ below = pathFromBytes e.path := List.append_cancel_left hq
      rw [hnames]
      show Path.joined (pathFromBytes e.path) ∈ m.directories
      rw [hw.joined_names he]
      exact mem_directories he hk

theorem validateStagingTree_ok_iff {b : Bool} (hw : WellFormed m.entries) (hn : root.names ≠ [])
    (hd : DirsTo home v root.names) (hl : fs.Looks home v) :
    ((validateStagingTree m root b).run machine fs).1 = .ok () ↔
      StagedTree v (home ++ root.names) m b := by
  constructor
  · intro h
    exact (stagedTree_of_validate (t := ((validateStagingTree m root b).run machine fs).2) hw hn hd
      hl (Succeeds.of_fst h)).2
  · intro h
    rw [run_validateStagingTree hw hn hd hl h]

/-- Filling a staging directory makes the missing directories, and it succeeds if the directory can
be entered. -/
theorem safe_fillStaging (hw : WellFormed m.entries) (hr : RealRoot home v root)
    (hl : fs.Looks home v) :
    Safe machine (fun t => ∃ w, t.Looks home w ∧ Grown (home ++ root.names) m.entries v w)
      (fillStaging m root)
      (fun r t => ∃ w, t.Looks home w ∧ Grown (home ++ root.names) m.entries v w ∧
        (r = .ok () ↔ Unblocked v (home ++ root.names) m.entries ∧
          AllowedBelow v (home ++ root.names) (allowedIn m true) []) ∧
        (r = .ok () → StagedTree w (home ++ root.names) m true)) fs := by
  refine safe_bind (fun _ t => ∃ w, t.Looks home w ∧ Grown (home ++ root.names) m.entries v w ∧
    Unblocked v (home ++ root.names) m.entries ∧ ∀ d ∈ m.entries, d.kind = .directory →
      w (home ++ root.names ++ pathFromBytes d.path) = some .dir) ?_ ?_
  · refine (safe_ensureDirectories hw (List.nil_append _).symm hr hl (by simp)).mono
      (fun _ h => h) ?_
    rintro r t - ⟨w, hlw, hgrown, hiff, hdirs⟩
    refine ⟨?_, ?_⟩
    · rintro e rfl
      refine ⟨w, hlw, hgrown, ⟨nofun, fun h => ?_⟩, nofun⟩
      cases hiff.2 h.1
    · rintro _ rfl
      exact ⟨w, hlw, hgrown, hiff.1 rfl, hdirs rfl⟩
  · rintro _ t - ⟨w, hlw, hgrown, hfree, hdirs⟩
    have hrw := hgrown.realRoot hr
    have hiff := validateStagingTree_ok_iff (b := true) hw hrw.names_ne hrw.dirs hlw
    have hstaged : StagedTree w (home ++ root.names) m true ↔
        AllowedBelow v (home ++ root.names) (allowedIn m true) [] := by
      rw [← hgrown.allowed hw]
      exact ⟨fun h => h.allowed, fun h => ⟨hrw.dir, hdirs, h⟩⟩
    refine ⟨fun s' hc => ⟨w, looks_of_cut keeps_validateStagingTree hlw hc, hgrown⟩,
      w, looks_of_cut keeps_validateStagingTree hlw (Cut.of_run _ t), hgrown, ?_, hiff.1⟩
    rw [hiff, hstaged]
    exact ⟨fun h => ⟨hfree, h⟩, fun h => h.2⟩

theorem readNofollow_ok_iff {b : List UInt8} (hn : path.names ≠ [])
    (hd : DirsTo home v path.names) (hl : fs.Looks home v) :
    ((readNofollow path).run machine fs).1 = .ok b ↔
      v (home ++ path.names) = some (.file b) ∧ b.length ≤ maxManifestBytes := by
  have hres : fs.resolve false path = .ok (home ++ path.names) := resolve_dirs hl hn hd
  constructor
  · intro h
    have hs : Succeeds machine refuse (readNofollow path) fs b _ := Succeeds.of_fst h
    obtain ⟨file, hopen, htail⟩ := succeeds_read (exec_openFile_snd rfl rfl rfl) hs
    obtain rfl := exec_openFile_eq_ok hres hopen
    obtain ⟨content, u, hread, hlast⟩ := succeeds_bind htail
    have hview := view_of_readToEnd (succeeds_ask hread)
    by_cases hlen : content.length > maxManifestBytes
    · rw [if_pos hlen] at hlast
      exact absurd hlast not_succeeds_failWith
    · rw [if_neg hlen] at hlast
      cases (succeeds_done hlast).1
      exact ⟨hl.view_eq ▸ hview, by omega⟩
  · rintro ⟨hv, hlen⟩
    rw [← hl.view_eq] at hv
    unfold readNofollow
    rw [run_ask_ok (exec_openFile_keep rfl rfl rfl hres hv), run_ask_ok (exec_readToEnd hv),
      if_neg (by omega)]
    rfl

/-- An existing staging directory is accepted if it has the complete marker. -/
theorem checkStaging_ok_iff {metadata : Metadata} {encoded : Str} (hr : RealRoot home v root)
    (hl : fs.Looks home v) (hlen : encoded.length ≤ maxManifestBytes)
    (hdir : metadata.fileType = .dir) :
    ((checkStaging root metadata encoded).run machine fs).1 = .ok () ↔
      v (home ++ root.names ++ [markerName]) = some (.file encoded) := by
  have hd : DirsTo (home ++ root.names) v [markerName] := dirsTo_singleton.2 hr.dir
  have hread := fun b => readNofollow_ok_iff (b := b) (hr.join_ne [markerName]) (hr.join_dirs hd) hl
  unfold checkStaging markerPath
  rw [if_pos hdir, run_bind]
  rw [place_join] at hread
  rcases hrun : (readNofollow (root.join [markerName])).run machine fs with ⟨e | b, u⟩
  · dsimp only
    constructor
    · intro h
      cases h
    · intro h
      have hok := (hread encoded).2 ⟨h, hlen⟩
      rw [hrun] at hok
      cases hok
  · have hb := (hread b).1 (by rw [hrun])
    dsimp only
    rw [hb.1]
    by_cases he : b = encoded
    · rw [if_pos he, he]
      simp
    · rw [if_neg he]
      simp [failWith, he]

theorem keeps_checkStaging {metadata : Metadata} {encoded : Str} :
    (checkStaging root metadata encoded).Only FsCall.KeepsView :=
  only_ite (keeps_readNofollow.bind fun _ => only_ite (only_done _) only_failWith) only_failWith

/-! ## A new staging directory -/

/-- The staging directory has been made, with the complete marker in it. -/
def made (home : Loc) (root : Path) (m : Manifest) (v : View) : View :=
  Function.update (Function.update v (home ++ root.names) (some .dir))
    (home ++ root.names ++ [markerName]) (some (.file (encode m)))

theorem AgreeOutside.update {p q : Loc} {s : Option Shape} (h : AgreeOutside p v w) (hq : p <+: q) :
    AgreeOutside p v (Function.update w q s) := by
  intro x hx
  rw [Function.update_of_ne, h x hx]
  rintro rfl
  exact hx hq

/-- The staging directory is there, but not its complete marker. -/
def HalfMade (p : Loc) (m : Manifest) (w : View) : Prop :=
  w p = some .dir ∧ w (p ++ [markerName]) ≠ some (.file (encode m))

theorem exec_openMarker (hr : RealRoot home v root) (hl : fs.Looks home v)
    (hv : v (home ++ root.names ++ [markerName]) = none) :
    ∃ t, FS.exec (.openFile (markerPath root)
        { write := true, createNew := true, nofollow := true, mode := 0o600 }) fs =
      (.ok (home ++ root.names ++ [markerName]), t) ∧
      t.Looks home (Function.update v (home ++ root.names ++ [markerName]) (some (.file []))) := by
  have hd : DirsTo (home ++ root.names) v [markerName] := dirsTo_singleton.2 hr.dir
  have hres := resolve_dirs hl (hr.join_ne [markerName]) (hr.join_dirs hd)
  rw [place_join] at hres
  have hparent : fs.view (home ++ root.names ++ [markerName]).dropLast = some .dir := by
    rw [List.dropLast_concat, hl.view_eq]
    exact hr.dir
  obtain ⟨t, ht, hh, hw⟩ := exec_openFile_new
    (o := { write := true, createNew := true, nofollow := true, mode := 0o600 }) rfl hres
    (by simp) hparent (hl.view_eq ▸ hv)
  exact ⟨t, ht, hh.trans hl.home_eq, hl.view_eq ▸ hw⟩

/-- Making the staging directory: until the marker is written completely, it is half made. -/
theorem safe_createStaging (hn : root.names ≠ []) (hd : DirsTo home v root.names)
    (hl : fs.Looks home v) (hv : v (home ++ root.names) = none) :
    Safe machine
      (fun t => ∃ w, t.Looks home w ∧
        (w = v ∨ (HalfMade (home ++ root.names) m w ∧ AgreeOutside (home ++ root.names) v w) ∨
          w = made home root m v))
      (createStaging root (encode m))
      (fun r t => r = .ok () ∧ t.Looks home (made home root m v)) fs := by
  have hres := resolve_dirs hl hn hd
  have hparent : fs.view (home ++ root.names).dropLast = some .dir := by
    rw [hl.view_eq]
    exact parent_of_dirs hn hd
  obtain ⟨t₁, ht₁, hh₁, hw₁⟩ := exec_createDir hres
    (List.append_ne_nil_of_right_ne_nil _ hn) hparent (hl.view_eq ▸ hv)
  rw [hl.view_eq] at hw₁
  have hl₁ : t₁.Looks home (Function.update v (home ++ root.names) (some .dir)) :=
    ⟨hh₁.trans hl.home_eq, hw₁⟩
  have hr₁ : RealRoot home (Function.update v (home ++ root.names) (some .dir)) root :=
    ⟨hn, dirs_update hd (by simp [hv]), Function.update_self _ _ _⟩
  have hbelow : v (home ++ root.names ++ [markerName]) = none := by
    rw [← hl.view_eq] at hv ⊢
    exact view_below_none (by simp [hv]) (by simp)
  have hnew : Function.update v (home ++ root.names) (some .dir)
      (home ++ root.names ++ [markerName]) = none := by
    rw [Function.update_of_ne (by simp), hbelow]
  obtain ⟨t₂, ht₂, hl₂⟩ := exec_openMarker hr₁ hl₁ hnew
  have hfile : ∀ b, Function.update (Function.update v (home ++ root.names) (some .dir))
      (home ++ root.names ++ [markerName]) (some (.file b)) (home ++ root.names ++ [markerName]) =
      some (.file b) := fun b => Function.update_self _ _ _
  have hroot : ∀ s, Function.update (Function.update v (home ++ root.names) (some .dir))
      (home ++ root.names ++ [markerName]) s (home ++ root.names) = some .dir := by
    intro s
    rw [Function.update_of_ne (by simp), Function.update_self]
  obtain ⟨t₃, ht₃, hl₃⟩ := exec_write_file hl₂ (hfile []) (encode m)
  rw [Function.update_idem] at hl₃
  have hnonempty : encode m ≠ [] := by simp [encode]
  have hhalf₁ : HalfMade (home ++ root.names) m
      (Function.update v (home ++ root.names) (some .dir)) :=
    ⟨Function.update_self _ _ _, by rw [hnew]; simp⟩
  have hhalf : ∀ b, b ≠ encode m → HalfMade (home ++ root.names) m
      (Function.update (Function.update v (home ++ root.names) (some .dir))
        (home ++ root.names ++ [markerName]) (some (.file b))) :=
    fun b hb => ⟨hroot _, by rw [hfile]; simpa using hb⟩
  have hsame₁ : AgreeOutside (home ++ root.names) v
      (Function.update v (home ++ root.names) (some .dir)) :=
    AgreeOutside.update (fun _ _ => rfl) (List.prefix_refl _)
  have hsame : ∀ b, AgreeOutside (home ++ root.names) v
      (Function.update (Function.update v (home ++ root.names) (some .dir))
        (home ++ root.names ++ [markerName]) (some (.file b))) :=
    fun b => hsame₁.update (List.prefix_append _ _)
  unfold createStaging
  refine safe_ask ht₁ ⟨v, hl, Or.inl rfl⟩ (fun _ htorn => by cases htorn) ?_
  refine safe_ask ht₂ ⟨_, hl₁, Or.inr (Or.inl ⟨hhalf₁, hsame₁⟩)⟩ (fun _ htorn => by cases htorn) ?_
  refine safe_ask ht₃ ⟨_, hl₂, Or.inr (Or.inl ⟨hhalf [] hnonempty.symm, hsame []⟩)⟩ ?_ ?_
  · intro t' htorn
    cases htorn with
    | write _ _ n _ =>
      refine ⟨_, ⟨(home_store _ _ _).trans hl₂.home_eq, view_store
        (hl₂.view_eq ▸ hfile []) _⟩, ?_⟩
      rw [hl₂.view_eq, Function.update_idem, List.nil_append]
      by_cases hb : (encode m).take n = encode m
      · rw [hb]
        exact Or.inr (Or.inr rfl)
      · exact Or.inr (Or.inl ⟨hhalf _ hb, hsame _⟩)
  · exact safe_ask_last rfl ⟨_, hl₃, Or.inr (Or.inr rfl)⟩ (fun _ htorn => by cases htorn) ⟨_, hl₃, Or.inr (Or.inr rfl)⟩
      ⟨rfl, hl₃⟩

/-! ## Entering -/

/-- How a staging directory is entered: it has the complete marker, or it is made. -/
def Entered (home : Loc) (root : Path) (m : Manifest) (v w : View) : Prop :=
  v (home ++ root.names) = some .dir ∧
      v (home ++ root.names ++ [markerName]) = some (.file (encode m)) ∧ w = v ∨
    v (home ++ root.names) = none ∧ w = made home root m v

namespace Entered

theorem realRoot (h : Entered home root m v w) (hn : root.names ≠ [])
    (hd : DirsTo home v root.names) : RealRoot home w root := by
  rcases h with ⟨hdir, -, rfl⟩ | ⟨hnone, rfl⟩
  · exact ⟨hn, hd, hdir⟩
  · have hd' := dirs_update (s := some .dir) hd (q := home ++ root.names) (by simp [hnone])
    refine ⟨hn, fun k hk => ?_, ?_⟩
    · unfold made
      rw [Function.update_of_ne, hd' k hk]
      intro he
      have hlen := congrArg List.length he
      simp only [List.length_append, List.length_take, List.length_singleton] at hlen
      omega
    · unfold made
      rw [Function.update_of_ne (by simp), Function.update_self]

theorem marker (h : Entered home root m v w) :
    w (home ++ root.names ++ [markerName]) = some (.file (encode m)) := by
  rcases h with ⟨-, hmark, rfl⟩ | ⟨-, rfl⟩
  · exact hmark
  · exact Function.update_self _ _ _

/-- Outside the staging directory nothing has happened. -/
theorem eq_of_not_below (h : Entered home root m v w) {q : Loc} (hq : ¬ home ++ root.names <+: q) :
    w q = v q := by
  rcases h with ⟨-, -, rfl⟩ | ⟨-, rfl⟩
  · rfl
  · unfold made
    rw [Function.update_of_ne, Function.update_of_ne]
    · rintro rfl
      exact hq (List.prefix_refl _)
    · rintro rfl
      exact hq (List.prefix_append _ _)

end Entered

theorem metadata_of_dir {metadata : Metadata} {p : Loc} (h : fs.metadataAt p = .ok metadata) :
    metadata.fileType = .dir ↔ fs.view p = some .dir := by
  obtain ⟨s, hs, htype, -⟩ := metadataAt_eq_ok h
  rw [htype, hs]
  cases s <;> simp [typeOf]

theorem safe_enterStaging (hn : root.names ≠ []) (hd : DirsTo home v root.names)
    (hl : fs.Looks home v) (hlen : (encode m).length ≤ maxManifestBytes) :
    Safe machine
      (fun t => ∃ w, t.Looks home w ∧
        (w = v ∨ (HalfMade (home ++ root.names) m w ∧ AgreeOutside (home ++ root.names) v w) ∨
          Entered home root m v w))
      (enterStaging root (encode m))
      (fun r t => ∃ w, t.Looks home w ∧ (r = .ok () → Entered home root m v w) ∧
        ((∃ u, Entered home root m v u) → r = .ok ())) fs := by
  have hlstat := exec_lstat_dirs hl hn hd
  unfold enterStaging tryLstat
  cases hv : v (home ++ root.names) with
  | none =>
    rw [metadataAt_none (hl.view_eq ▸ hv)] at hlstat
    refine safe_request hlstat ⟨v, hl, Or.inl rfl⟩ (by nofun) ?_
    refine (safe_createStaging hn hd hl hv).mono ?_ ?_
    · rintro t ⟨w, hlw, rfl | hhalf | rfl⟩
      · exact ⟨w, hlw, Or.inl rfl⟩
      · exact ⟨w, hlw, Or.inr (Or.inl hhalf)⟩
      · exact ⟨_, hlw, Or.inr (Or.inr (Or.inr ⟨hv, rfl⟩))⟩
    · rintro r t - ⟨rfl, hlt⟩
      exact ⟨_, hlt, fun _ => Or.inr ⟨hv, rfl⟩, fun _ => rfl⟩
  | some s =>
    obtain ⟨metadata, hm, -, -⟩ := metadataAt_some (hl.view_eq ▸ hv)
    rw [hm] at hlstat
    have htype := metadata_of_dir hm
    rw [hl.view_eq, hv] at htype
    refine safe_request hlstat ⟨v, hl, Or.inl rfl⟩ (by nofun) ?_
    dsimp only
    refine ⟨fun t hc => ⟨v, looks_of_cut keeps_checkStaging hl hc, Or.inl rfl⟩,
      v, looks_of_cut keeps_checkStaging hl (Cut.of_run _ fs), ?_, ?_⟩
    · intro hok
      have hdir : metadata.fileType = .dir := by
        by_contra hne
        unfold checkStaging at hok
        rw [if_neg hne] at hok
        cases hok
      have hs := htype.1 hdir
      have hr : RealRoot home v root := ⟨hn, hd, hv.trans hs⟩
      exact Or.inl ⟨hv.trans hs, (checkStaging_ok_iff hr hl hlen hdir).1 hok, rfl⟩
    · rintro ⟨u, ⟨hdir, hmark, -⟩ | ⟨hnone, -⟩⟩
      · have hr : RealRoot home v root := ⟨hn, hd, hdir⟩
        exact (checkStaging_ok_iff hr hl hlen (htype.2 (hv.symm.trans hdir))).2 hmark
      · cases hv.symm.trans hnone

/-! ## The whole preparation -/

theorem requireAbsent_ok_iff {message : String} (hn : path.names ≠ [])
    (hd : DirsTo home v path.names) (hl : fs.Looks home v) :
    ((requireAbsent path message).run machine fs).1 = .ok () ↔ v (home ++ path.names) = none := by
  have hlstat := exec_lstat_dirs hl hn hd
  unfold requireAbsent tryLstat
  rw [request_bind, run_call, exec_machine, hlstat, ← hl.view_eq]
  cases hm : fs.metadataAt (home ++ path.names) with
  | ok metadata =>
    obtain ⟨s, hs, -⟩ := metadataAt_eq_ok hm
    simp [hs, failWith]
  | error e =>
    obtain ⟨rfl, hnone⟩ := metadataAt_eq_error hm
    simp [hnone]

theorem requireParent_ok_iff (base : Option (List UInt8)) (name : Name) (hl : fs.Looks home v) :
    ((requireRealDirectory (parentOf ⟨base, [name]⟩)).run machine fs).1 = .ok () ↔
      v home = some .dir := by
  obtain ⟨hnames, hne⟩ := parentOf_eq base name
  have hres : fs.resolve false (parentOf ⟨base, [name]⟩) = .ok fs.home := by
    have hdirs : DirsTo fs.home fs.view (parentOf ⟨base, [name]⟩).names := by
      rw [hnames]
      exact dirsTo_nil _
    have hreal : fs.resolve false (parentOf ⟨base, [name]⟩) =
        .ok (fs.home ++ (parentOf ⟨base, [name]⟩).names) := resolve_real hne hdirs (by simp)
    rwa [hnames, List.append_nil] at hreal
  unfold requireRealDirectory
  rw [ask_bind, run_call, exec_machine, exec_lstat hres, ← hl.view_eq, ← hl.home_eq]
  cases hm : fs.metadataAt fs.home with
  | ok metadata =>
    rw [← metadata_of_dir hm]
    dsimp only
    by_cases hdir : metadata.fileType = .dir
    · simp [hdir]
    · simp [hdir, failWith]
  | error e =>
    obtain ⟨rfl, hnone⟩ := metadataAt_eq_error hm
    simp [hnone]

/-- Nothing is in the way of preparing a staging directory. -/
structure Preparable (home : Loc) (root : Path) (m : Manifest) (name : Name) (v : View) : Prop where
  home_dir : v home = some .dir
  absent : v (home ++ [name]) = none
  enterable : ∃ w, Entered home root m v w ∧ Enterable w (home ++ root.names) m

/-- The views that preparing goes through. -/
def Preparing (home : Loc) (root : Path) (m : Manifest) (v w : View) : Prop :=
  w = v ∨ HalfMade (home ++ root.names) m w ∨
    ∃ u, Entered home root m v u ∧ Grown (home ++ root.names) m.entries u w

theorem Entered.unique {u : View} (h : Entered home root m v w) (h' : Entered home root m v u) :
    w = u := by
  rcases h with ⟨hdir, -, rfl⟩ | ⟨hnone, rfl⟩ <;> rcases h' with ⟨hdir', -, rfl⟩ | ⟨hnone', rfl⟩
  · rfl
  · cases hdir.symm.trans hnone'
  · cases hdir'.symm.trans hnone
  · rfl

theorem safe_prepareStaging [Sha256] (ha : Accepted m) (hl : fs.Looks home v) :
    Safe machine
      (fun t => ∃ w, t.Looks home w ∧ Preparing home (stagingPath m ⟨base, [name]⟩) m v w)
      (prepareStaging m ⟨base, [name]⟩)
      (fun r t => (∀ p, r = .ok p → p = stagingPath m ⟨base, [name]⟩) ∧
        (r = .ok (stagingPath m ⟨base, [name]⟩) ↔
          Preparable home (stagingPath m ⟨base, [name]⟩) m name v) ∧
        (Preparable home (stagingPath m ⟨base, [name]⟩) m name v →
          ∃ u w, t.Looks home w ∧ Entered home (stagingPath m ⟨base, [name]⟩) m v u ∧
            Grown (home ++ (stagingPath m ⟨base, [name]⟩).names) m.entries u w ∧
            StagedTree w (home ++ (stagingPath m ⟨base, [name]⟩).names) m true)) fs := by
  have hw := ha.wellFormed
  have hnames := stagingPath_names m base name
  generalize hroot : stagingPath m ⟨base, [name]⟩ = root
  rw [hroot] at hnames
  have hn : root.names ≠ [] := by simp [hnames]
  have hstay : ∀ t : FS, t.Looks home v → ∃ w, t.Looks home w ∧ Preparing home root m v w :=
    fun t ht => ⟨v, ht, Or.inl rfl⟩
  have herror : ∀ (e : AnyError) (t : FS), ¬ Preparable home root m name v →
      (∀ p, (Except.error e : Except AnyError Path) = .ok p → p = root) ∧
        ((Except.error e : Except AnyError Path) = .ok root ↔ Preparable home root m name v) ∧
        (Preparable home root m name v → ∃ u w, t.Looks home w ∧ Entered home root m v u ∧
          Grown (home ++ root.names) m.entries u w ∧
            StagedTree w (home ++ root.names) m true) :=
    fun e t hno => ⟨nofun, ⟨nofun, fun h => absurd h hno⟩, fun h => absurd h hno⟩
  have hiff : v home = some .dir →
      (((requireAbsent ⟨base, [name]⟩ "directory destination already exists").run machine fs).1 =
        .ok () ↔ v (home ++ [name]) = none) :=
    fun hdir => requireAbsent_ok_iff (by simp) (dirsTo_singleton.2 hdir) hl
  unfold prepareStaging
  rw [hroot]
  -- the destination is absent, as far as the directory that holds it is one
  refine safe_bind (fun _ t => t.Looks home v ∧ (v home = some .dir → v (home ++ [name]) = none))
    ?_ ?_
  · refine (safe_of_keeps keeps_requireAbsent hl).mono hstay ?_
    rintro r t - ⟨hlt, hr⟩
    refine ⟨?_, ?_⟩
    · rintro e rfl
      refine herror e t fun hprep => ?_
      have hok := (hiff hprep.home_dir).2 hprep.absent
      cases hr.trans hok
    · rintro _ rfl
      exact ⟨hlt, fun hdir => (hiff hdir).1 hr.symm⟩
  · rintro _ t - ⟨hlt, habsent⟩
    refine safe_bind (fun _ t => t.Looks home v ∧ v home = some .dir) ?_ ?_
    · refine (safe_of_keeps keeps_requireRealDirectory hlt).mono hstay ?_
      rintro r t' - ⟨hlt', hr⟩
      refine ⟨?_, ?_⟩
      · rintro e rfl
        refine herror e t' fun hprep => ?_
        cases hr.trans ((requireParent_ok_iff base name hlt).2 hprep.home_dir)
      · rintro _ rfl
        exact ⟨hlt', (requireParent_ok_iff base name hlt).1 hr.symm⟩
    · rintro _ t₂ - ⟨hlt₂, hdir⟩
      have hd : DirsTo home v root.names := by
        rw [hnames]
        exact dirsTo_singleton.2 hdir
      refine safe_bind (fun _ t => ∃ u, t.Looks home u ∧ Entered home root m v u) ?_ ?_
      · refine (safe_enterStaging hn hd hlt₂ ha.length_le).mono ?_ ?_
        · rintro t' ⟨w, hlw, rfl | hhalf | hentered⟩
          · exact ⟨w, hlw, Or.inl rfl⟩
          · exact ⟨w, hlw, Or.inr (Or.inl hhalf.1)⟩
          · exact ⟨w, hlw, Or.inr (Or.inr ⟨w, hentered, .refl _ _ _⟩)⟩
        · rintro r t' - ⟨w, hlw, hok, hentered⟩
          refine ⟨?_, ?_⟩
          · rintro e rfl
            refine herror e t' fun hprep => ?_
            obtain ⟨u, hu, -⟩ := hprep.enterable
            cases hentered ⟨u, hu⟩
          · rintro _ rfl
            exact ⟨w, hlw, hok rfl⟩
      · rintro _ t₃ - ⟨u, hlu, hu⟩
        have hr := hu.realRoot hn hd
        refine safe_bind (fun _ t => ∃ w, t.Looks home w ∧ Grown (home ++ root.names) m.entries u w ∧
          StagedTree w (home ++ root.names) m true ∧ Unblocked u (home ++ root.names) m.entries ∧
          AllowedBelow u (home ++ root.names) (allowedIn m true) []) ?_ ?_
        · refine (safe_fillStaging hw hr hlu).mono ?_ ?_
          · rintro t' ⟨w, hlw, hgrown⟩
            exact ⟨w, hlw, Or.inr (Or.inr ⟨u, hu, hgrown⟩)⟩
          · rintro r t' - ⟨w, hlw, hgrown, hiff, hstaged⟩
            refine ⟨?_, ?_⟩
            · rintro e rfl
              refine herror e t' fun hprep => ?_
              obtain ⟨u', hu', henter⟩ := hprep.enterable
              obtain rfl := hu.unique hu'
              cases hiff.2 ⟨henter.unblocked, henter.allowed⟩
            · rintro _ rfl
              exact ⟨w, hlw, hgrown, hstaged rfl, hiff.1 rfl⟩
        · rintro _ t₄ hI ⟨w, hlw, hgrown, hstaged, hfree, hallowed⟩
          have hprep : Preparable home root m name v :=
            ⟨hdir, habsent hdir, u, hu, hr.dir, hu.marker, hfree, hallowed⟩
          refine safe_done hI ⟨?_, ⟨fun _ => hprep, fun _ => rfl⟩, fun _ =>
            ⟨u, w, hlw, hu, hgrown, hstaged⟩⟩
          intro p hp
          cases hp
          rfl

end PacketTide
