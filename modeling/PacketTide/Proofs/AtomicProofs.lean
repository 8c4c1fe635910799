import PacketTide.Proofs.InstalledProofs

/-!
# Installing or leaving nothing

Until the rename nothing is at the destination, and the rename itself is all or nothing. What
follows the rename may still fail, and then the tree is there although `install` reports an error.
-/

namespace PacketTide

open Effects FileSystem Prog Text FS

variable {home : Loc} {v : View} {fs t : FS} {m : Manifest} {base : Option (List UInt8)}
  {name : Name}

/-! ## Up to the rename -/

/-- Calls that keep the view, or remove a file. -/
def MakesNothing (c : FsCall) : Prop := c.KeepsView ∨ ∃ path, c = .removeFile path

theorem only_finishTree [Sha256] {staging destination : Path} :
    (finishTree m staging destination).Only MakesNothing :=
  (Only.imp (fun _ => Or.inl) keeps_finishEntries).bind fun _ =>
    (only_ask (Or.inr ⟨_, rfl⟩)).bind fun _ => Only.imp (fun _ => Or.inl) keeps_finishRoot

theorem exec_makesNothing {c : FsCall} {p : Loc} (hc : MakesNothing c) (h : fs.view p = none) :
    (FS.exec c fs).2.view p = none := by
  rcases hc with hc | ⟨path, rfl⟩
  · rw [(looks_exec hc fs.looks_self).view_eq, h]
  · exact exec_removeFile_none h

/-- Whichever calls fail, there is nothing at the destination before the rename. -/
theorem absent_finishTree [Sha256] {staging destination : Path} {p : Loc} (h : fs.view p = none)
    (plan : List (Option Errno)) :
    ((finishTree m staging destination).runPlan machine refuse plan fs).2.1.view p = none :=
  only_finishTree.runPlan (I := fun u => u.view p = none)
    (fun _ _ hc hu => exec_makesNothing hc hu) plan fs h

theorem runPlan_rename_error {source target : Path} {e : AnyError}
    {plan rest : List (Option Errno)}
    (h : (ask (.rename source target)).runPlan machine refuse plan fs = (.error e, t, rest)) :
    t = fs := by
  have hanswered : (∀ e, plan.head? ≠ some (some e)) → t = fs := by
    intro hp
    rw [runPlan_ask hp] at h
    rcases hx : FS.exec (.rename source target) fs with ⟨_ | _, w⟩
    · rw [hx] at h
      cases h
      exact exec_rename_error hx
    · rw [hx] at h
      cases h
  rcases plan with _ | ⟨_ | e', plan⟩
  · exact hanswered (by simp)
  · exact hanswered (by simp)
  · rw [runPlan_ask_refused] at h
    cases h
    rfl

theorem absent_moveTree [Sha256] {staging destination : Path} {p : Loc} {e : AnyError}
    {plan rest : List (Option Errno)} (h : fs.view p = none)
    (hrun : (moveTree m staging destination).runPlan machine refuse plan fs = (.error e, t, rest)) :
    t.view p = none := by
  have habsent : ((finishTree m staging destination).runPlan machine refuse plan fs).2.1.view p =
      none := absent_finishTree h plan
  have hsplit := (runPlan_bind (finishTree m staging destination)
    (fun _ => ask (.rename staging destination)) plan fs).symm.trans hrun
  rcases hf : (finishTree m staging destination).runPlan machine refuse plan fs with
    ⟨_ | _, u, mid⟩
  · rw [hf] at hsplit habsent
    cases hsplit
    exact habsent
  · rw [hf] at hsplit habsent
    rw [runPlan_rename_error hsplit]
    exact habsent

/-- A rename that is carried out has moved the staged tree without its marker. -/
theorem renamed_moveTree [Sha256] {staging : Path} {n : Name} (hw : WellFormed m.entries)
    (hn : staging.names = [n]) (hl : fs.Looks home v) (ha : v (home ++ [name]) = none)
    (h : Succeeds machine refuse (moveTree m staging ⟨base, [name]⟩) fs () t) :
    t.home = home ∧ t.view home = some .dir ∧ v (home ++ staging.names) = some .dir ∧
      Renamed v t.view (home ++ staging.names) (home ++ [name]) := by
  obtain ⟨_, t₁, hfinish, hrename⟩ := succeeds_bind h
  have hhome : v home = some .dir := by
    have hdir := home_dir_of_finishTree hn hfinish
    rwa [hl.home_eq, hl.view_eq] at hdir
  have hne : staging.names ≠ [] := by simp [hn]
  obtain ⟨hl₁, hstaged, -, -⟩ := succeeds_finishTree hw hne
    (by rw [hn]; exact dirsTo_singleton.2 hhome) hl hfinish
  have hkeep : ∀ q, q ≠ home ++ staging.names ++ [markerName] → unmarked home staging v q = v q :=
    fun q hq => Function.update_of_ne hq _ _
  have hhome₁ : t₁.view home = some .dir := by rw [hl₁.view_eq, hkeep _ (by simp), hhome]
  have hdir₁ : t₁.view (home ++ staging.names) = some .dir := by
    rw [hl₁.view_eq, hkeep _ (by simp), hstaged.dir]
  have hnames : n ≠ name := by
    rintro rfl
    rw [← hn, hstaged.dir] at ha
    cases ha
  have habsent₁ : t₁.view (home ++ [name]) = none := by
    rw [hl₁.view_eq, hkeep _ (by simp [hn]), ha]
  have hsource : t₁.resolve false staging = .ok (home ++ staging.names) := by
    refine resolve_dirs hl₁ hne ?_
    rw [hn, ← hl₁.view_eq]
    exact dirsTo_singleton.2 hhome₁
  have htarget : t₁.resolve false ⟨base, [name]⟩ = .ok (home ++ [name]) := by
    refine resolve_dirs hl₁ (List.cons_ne_nil _ _) ?_
    rw [← hl₁.view_eq]
    exact dirsTo_singleton.2 hhome₁
  obtain ⟨t', hexec, hhome', hview⟩ := exec_rename_dir hsource htarget
    (List.append_ne_nil_of_right_ne_nil _ hne) (by simp) (by simpa using hhome₁) hdir₁ habsent₁
    (by simpa [hn] using hnames)
  obtain rfl : t' = t := by
    have hren := succeeds_ask hrename
    rw [hexec] at hren
    cases hren
    rfl
  have hshort : ∀ k, ¬ home ++ [k] <+: home := by
    intro k hpre
    have hlen := hpre.length_le
    rw [List.length_append, List.length_singleton] at hlen
    omega
  refine ⟨hhome'.trans hl₁.home_eq, ?_, hstaged.dir, fun names => ?_, ?_⟩
  · rw [hview, if_neg (hshort name), hn, if_neg (hshort n), hhome₁]
  · rw [hview, if_pos (List.prefix_append _ _), List.drop_left, hl₁.view_eq]
    by_cases hm : names = [markerName]
    · rw [if_pos hm, hm, unmarked, Function.update_self]
    · rw [if_neg hm, hkeep _ (by simpa using hm)]
  · rw [hview, if_neg (by simpa [hn] using hnames.symm), if_pos (List.prefix_refl _)]

/-! ## After the rename -/

theorem runPlan_sync_ok_iff (h : Loc) (plan : List (Option Errno)) :
    ((ask (.sync h)).runPlan machine refuse plan fs).1 = .ok () ↔ ∀ e, plan.head? ≠ some (some e) := by
  rcases plan with _ | ⟨_ | e, plan⟩
  · rw [runPlan_ask (by simp)]
    simp [FS.exec, Except.mapError]
  · rw [runPlan_ask (by simp)]
    simp [FS.exec, Except.mapError]
  · rw [runPlan_ask_refused]
    simp

theorem runPlan_openDirectory_ok_iff {directory : Loc} {rest : List (Option Errno)}
    (hd : fs.view fs.home = some .dir) (plan : List (Option Errno)) :
    (openDirectory ⟨base, []⟩).runPlan machine refuse plan fs = (.ok directory, t, rest) ↔
      (base ≠ none ∧ ∀ e, plan.head? ≠ some (some e)) ∧ directory = fs.home ∧ t = fs ∧
        rest = plan.tail := by
  unfold openDirectory
  by_cases hrefused : ∀ e, plan.head? ≠ some (some e)
  · rw [runPlan_ask hrefused]
    cases base with
    | none =>
      have hempty : fs.resolve false ⟨none, []⟩ = .error .notFound := resolve_empty fs false
      simp [FS.exec, hempty, Except.mapError]
    | some b =>
      have hres : fs.resolve false ⟨some b, []⟩ = .ok fs.home := by
        have hreal : fs.resolve false ⟨some b, []⟩ = .ok (fs.home ++ []) :=
          resolve_real (by simp [Path.empty]) (dirsTo_nil _) (by simp)
        rwa [List.append_nil] at hreal
      rw [exec_openFile_dir rfl hres hd]
      simp only [Except.mapError, Bool.false_eq_true, if_false, Prod.mk.injEq, Except.ok.injEq]
      constructor
      · rintro ⟨rfl, rfl, rfl⟩
        exact ⟨⟨by simp, hrefused⟩, rfl, rfl, rfl⟩
      · rintro ⟨-, rfl, rfl, rfl⟩
        exact ⟨rfl, rfl, rfl⟩
  · constructor
    · intro h
      push Not at hrefused
      obtain ⟨e, he⟩ := hrefused
      obtain ⟨plan', rfl⟩ : ∃ plan', plan = some e :: plan' := by
        cases plan with
        | nil => cases he
        | cons first plan' => exact ⟨plan', by rw [← Option.some.inj he]⟩
      rw [runPlan_ask_refused] at h
      cases h
    · rintro ⟨⟨-, h⟩, -⟩
      exact absurd h hrefused

/-- The parent directory is synced unless one of the two calls for it fails. A relative name has an
empty parent, which cannot be opened. -/
theorem syncParent_ok_iff (hd : fs.view fs.home = some .dir) (plan : List (Option Errno)) :
    ((syncParent ⟨base, [name]⟩).runPlan machine refuse plan fs).1 = .ok () ↔
      base ≠ none ∧ ∀ e, some e ∉ plan.take 2 := by
  have hparent : Path.parent ⟨base, [name]⟩ = some ⟨base, []⟩ := rfl
  have htake : (∀ e, some e ∉ plan.take 2) ↔
      (∀ e, plan.head? ≠ some (some e)) ∧ ∀ e, plan.tail.head? ≠ some (some e) := by
    rcases plan with _ | ⟨a, _ | ⟨b, plan⟩⟩ <;> simp [eq_comm, forall_and]
  unfold syncParent
  rw [hparent, htake]
  dsimp only
  rw [runPlan_bind]
  rcases ho : (openDirectory ⟨base, []⟩).runPlan machine refuse plan fs with ⟨e | directory, u, rest⟩
  · dsimp only
    constructor
    · intro h
      cases h
    · rintro ⟨hb, hhead, -⟩
      have hok := (runPlan_openDirectory_ok_iff hd plan).2 ⟨⟨hb, hhead⟩, rfl, rfl, rfl⟩
      rw [ho] at hok
      cases hok
  · obtain ⟨⟨hb, hhead⟩, rfl, rfl, rfl⟩ := (runPlan_openDirectory_ok_iff hd plan).1 ho
    dsimp only
    rw [runPlan_sync_ok_iff]
    exact ⟨fun h => ⟨hb, hhead, h⟩, fun h => h.2.2⟩

/-- With the destination absent at first, `install` installs the tree or leaves the destination
absent, if and only if no call fails after the rename and the destination is not a lone relative
name. -/
theorem installed_or_absent_iff [Sha256] {encoded : Str} {fs₀ fs₁ : FS} {staging : Path}
    (hm : parse encoded = .ok m)
    (hp : Succeeds machine refuse (prepareStaging m ⟨base, [name]⟩) fs₀ staging fs₁)
    (ha : fs.view (fs.home ++ [name]) = none) (plan : List (Option Errno)) :
    InstalledOrAbsent fs staging ⟨base, [name]⟩
        ((installTree m staging ⟨base, [name]⟩).runPlan machine refuse plan fs).1
        ((installTree m staging ⟨base, [name]⟩).runPlan machine refuse plan fs).2.1 ↔
      ∀ t rest, (moveTree m staging ⟨base, [name]⟩).runPlan machine refuse plan fs =
        (.ok (), t, rest) → base ≠ none ∧ ∀ e, some e ∉ rest.take 2 := by
  have hw := (encode_of_parse hm).2.wellFormed
  obtain rfl := succeeds_prepareStaging_eq hp
  have hnames := stagingPath_names m base name
  rw [installTree, runPlan_bind]
  rcases hmove : (moveTree m (stagingPath m ⟨base, [name]⟩) ⟨base, [name]⟩).runPlan machine refuse
    plan fs with ⟨e | _, t, rest⟩
  · constructor
    · intro _ t' rest' h
      cases h
    · intro _
      exact ⟨nofun, fun _ _ => absent_moveTree ha hmove⟩
  · obtain ⟨hhome, hdir, hstaged, hrenamed⟩ :=
      renamed_moveTree hw hnames fs.looks_self ha ⟨plan, rest, hmove⟩
    have hpresent : t.view (fs.home ++ [name]) = some .dir := by
      have hroot := hrenamed.moved []
      rwa [List.append_nil, List.append_nil, if_neg (by simp), hstaged] at hroot
    have hkeeps : (syncParent ⟨base, [name]⟩).Only FsCall.KeepsView := keeps_syncParent
    have hlooks := looks_runPlan hkeeps t.looks_self rest
    have hiff : ((syncParent ⟨base, [name]⟩).runPlan machine refuse rest t).1 = .ok () ↔
        base ≠ none ∧ ∀ e, some e ∉ rest.take 2 := syncParent_ok_iff (hhome ▸ hdir) rest
    constructor
    · intro h t' rest' heq
      cases heq
      refine hiff.1 ?_
      rcases hs : (syncParent ⟨base, [name]⟩).runPlan machine refuse rest t with ⟨e | _, u, rest''⟩
      · dsimp only at h
        rw [hs] at h hlooks
        have hgone := h.absent e rfl
        rw [hlooks.view_eq] at hgone
        cases hpresent.symm.trans hgone
      · rfl
    · intro h
      have hok := hiff.2 (h t rest rfl)
      rcases hs : (syncParent ⟨base, [name]⟩).runPlan machine refuse rest t with ⟨e | _, u, rest''⟩
      · rw [hs] at hok
        cases hok
      · dsimp only
        rw [hs] at hlooks ⊢
        refine ⟨fun _ => ?_, nofun⟩
        rw [hlooks.view_eq]
        exact hrenamed

section Example

open Sample

/-- The tree of one file has been prepared and received for a destination. -/
def Sample.staged (destination : Path) : FS :=
  ((receiveFiles (fun _ => receiveSeven) oneFile (stagingPath oneFile destination) 0
    oneFile.entries).run machine
      ((prepareStaging oneFile destination).run machine FS.empty).2).2

/-- The rule for `install`, for a tree of one file and no failing call. -/
theorem installed_or_absent_oneFile :
    InstalledOrAbsent (staged here) (stagingPath oneFile here) ⟨some (ascii "."), [d]⟩
        ((installTree oneFile (stagingPath oneFile here) ⟨some (ascii "."), [d]⟩).runPlan machine
          refuse [] (staged here)).1
        ((installTree oneFile (stagingPath oneFile here) ⟨some (ascii "."), [d]⟩).runPlan machine
          refuse [] (staged here)).2.1 ↔
      ∀ t rest, (moveTree oneFile (stagingPath oneFile here) ⟨some (ascii "."), [d]⟩).runPlan
        machine refuse [] (staged here) = (.ok (), t, rest) →
          some (ascii ".") ≠ none ∧ ∀ e, some e ∉ rest.take 2 :=
  installed_or_absent_iff parse_oneFile
    (Succeeds.of_fst (s := FS.empty) (by decide +kernel)) (by decide +kernel) []

/-- At a lone relative name the tree is installed although an error is reported. -/
theorem not_installed_or_absent :
    ¬ ∀ (encoded : Str) (m : Manifest) (destination staging : Path) (fs₀ fs₁ fs : FS)
      (plan : List (Option Errno)), parse encoded = .ok m →
      Succeeds machine refuse (prepareStaging m destination) fs₀ staging fs₁ →
      fs.view (fs.home ++ destination.names) = none →
      InstalledOrAbsent fs staging destination
        ((installTree m staging destination).runPlan machine refuse plan fs).1
        ((installTree m staging destination).runPlan machine refuse plan fs).2.1 := by
  intro h
  have hprepared : Succeeds machine refuse (prepareStaging oneFile plain) FS.empty
      (stagingPath oneFile plain) ((prepareStaging oneFile plain).run machine FS.empty).2 :=
    Succeeds.of_fst (by decide +kernel)
  have habsent : (staged plain).view ((staged plain).home ++ plain.names) = none := by
    decide +kernel
  have hbad := h (encode oneFile) oneFile plain _ _ _ (staged plain) [] parse_oneFile hprepared
    habsent
  have herror : ((installTree oneFile (stagingPath oneFile plain) plain).runPlan machine refuse []
      (staged plain)).1 = .error (.io .notFound) := by decide +kernel
  have hthere : ((installTree oneFile (stagingPath oneFile plain) plain).runPlan machine refuse []
      (staged plain)).2.1.view ((staged plain).home ++ plain.names) = some .dir := by decide +kernel
  cases hthere.symm.trans (hbad.absent _ herror)

end Example

end PacketTide
