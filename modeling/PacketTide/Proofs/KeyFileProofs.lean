import PacketTide.KeyFile
import PacketTide.FileSystem.Proofs.AttrProofs
import PacketTide.Proofs.AskProofs
import PacketTide.Proofs.ReceiptMapProofs

/-!
# The key file

Nothing is ever put in the place of something else, a key that has been made is read back, and whatever is
read was drawn once and stays.
-/

namespace PacketTide

open Effects FileSystem FS Prog Text

namespace SecretKey

variable {path : Path} {fs t u : FS} {key : Hash} {drawn : Except Errno Hash}

/-! ## Reading -/

/-- A key that is read is the content of the file. -/
theorem content_of_load (hslot : FileSlot fs.home fs.view path) (h : Succeeds machine refuse (load path) fs key t) :
    fs.view (fs.home ++ path.names) = some (.file key.bytes) := by
  obtain ⟨metadata, hstat, hrest⟩ := succeeds_read (exec_stat_snd path) h
  rw [exec_stat_slot fs.looks_self hslot] at hstat
  rcases hslot.leaf with hnone | ⟨content, hcontent⟩
  · rw [metadataAt_none hnone] at hstat
    cases hstat
  split at hrest
  · cases (succeeds_done hrest).1
  · have hopen := exec_keep_slot fs.looks_self hslot hcontent false
    have hkept : (FS.exec (.openFile path {}) fs).2 = fs := by rw [hopen]
    obtain ⟨file, hfile, hread⟩ := succeeds_read hkept hrest
    rw [hopen] at hfile
    cases hfile
    have hbytes := exec_readToEnd_file fs.looks_self hcontent
    have hleft : (FS.exec (.readToEnd (fs.home ++ path.names)) fs).2 = fs := by rw [hbytes]
    obtain ⟨bytes, hbytes', hdone⟩ := succeeds_read hleft hread
    rw [hbytes] at hbytes'
    cases hbytes'
    split at hdone
    · obtain ⟨hkey, -⟩ := succeeds_done hdone
      have hbytes : key.bytes = content := by
        cases hkey
        rfl
      rw [hcontent, hbytes]
    · cases (succeeds_done hdone).1

/-- A key in a file that only its owner may use is read. -/
theorem run_load {modified : Stamp} (hslot : FileSlot fs.home fs.view path)
    (hfile : fs.view (fs.home ++ path.names) = some (.file key.bytes))
    (hattr : fs.attrAt (fs.home ++ path.names) = some ⟨0o600, modified⟩) :
    (load path).run machine fs = (.ok key, fs) := by
  obtain ⟨attr, hget⟩ := get_of_view_file hfile
  rw [FS.attrAt, Node.attrAt, Node.observe, hget] at hattr
  have hsecret : attr = ⟨0o600, modified⟩ := Option.some.inj hattr
  have hstat : FS.exec (.stat path) fs = (.ok ⟨.file, key.bytes.length, some attr⟩, fs) := by
    rw [exec_stat_slot fs.looks_self hslot, metadataAt, hget]
    rfl
  have hmode : ¬ ((some attr).elim 0 Attr.mode &&& 0o077 ≠ 0) := by
    have hprivate : 0o600 &&& 0o077 = 0 := by decide
    rw [hsecret]
    exact fun hopen => hopen hprivate
  have hsize : key.bytes.toArray.size = keyLen := by simp [Hash.bytes, keyLen]
  rw [load, run_ask_ok hstat, if_neg hmode, run_ask_ok (exec_keep_slot fs.looks_self hslot hfile false),
    run_ask_ok (exec_readToEnd_file fs.looks_self hfile), dif_pos hsize]
  rfl

/-! ## Making -/

/-- What an attempt leaves: what was there, or a beginning of the key where nothing was; and nothing else has
changed. -/
structure Left (path : Path) (drawn : Except Errno Hash) (fs t : FS) : Prop where
  home : t.home = fs.home
  others : ∀ q, q ≠ fs.home ++ path.names → t.view q = fs.view q
  place : t.view (fs.home ++ path.names) = fs.view (fs.home ++ path.names) ∨
    fs.view (fs.home ++ path.names) = none ∧ ∃ key n, drawn = .ok key ∧
      t.view (fs.home ++ path.names) = some (.file (key.bytes.take n))

theorem Left.refl (path : Path) (drawn : Except Errno Hash) (fs : FS) : Left path drawn fs fs :=
  ⟨rfl, fun _ _ => rfl, .inl rfl⟩

theorem left_of_update {n : Nat} (hnone : fs.view (fs.home ++ path.names) = none) (hhome : t.home = fs.home)
    (hview : t.view = Function.update fs.view (fs.home ++ path.names) (some (.file (key.bytes.take n)))) :
    Left path (.ok key) fs t := by
  refine ⟨hhome, fun q hq => ?_, .inr ⟨hnone, key, n, rfl, ?_⟩⟩
  · rw [hview, Function.update_of_ne hq]
  · rw [hview, Function.update_self]

/-- The file that an attempt makes is a new one. -/
theorem exec_new (hslot : FileSlot fs.home fs.view path) {options : OpenOptions} (hnew : options.createNew = true)
    {place : Loc} (h : FS.exec (.openFile path options) fs = (.ok place, t)) :
    place = fs.home ++ path.names ∧ fs.view place = none ∧ t.home = fs.home ∧
      t.view = Function.update fs.view place (some (.file [])) ∧
      t.attrAt place = some ⟨options.mode, fs.now⟩ := by
  have hresolve : fs.resolve false path = .ok (fs.home ++ path.names) := resolve_slot fs.looks_self hslot
  rcases hslot.leaf with hnone | ⟨content, hcontent⟩
  · obtain ⟨t', hexec, hhome, hview⟩ := exec_openFile_new hnew hresolve hslot.place_ne hslot.parent hnone
    rw [hexec] at h
    cases h
    refine ⟨rfl, hnone, hhome, hview, ?_⟩
    have hmade : t = (fs.put (fs.home ++ path.names) (.file ⟨options.mode, fs.now⟩ [])).touch
        (fs.home ++ path.names).dropLast := by
      simp only [exec, hnew, Bool.or_true, Bool.not_true, hresolve, openAt, get_of_view_none hnone, if_true] at hexec
      exact (Prod.mk.inj hexec).2.symm
    have hne : fs.home ++ path.names ≠ (fs.home ++ path.names).dropLast := fun heq => by
      have hshorter := not_prefix_dropLast hslot.place_ne
      rw [← heq] at hshorter
      exact hshorter (List.prefix_refl _)
    have hparent : (fs.put (fs.home ++ path.names) (.file ⟨options.mode, fs.now⟩ [])).view
        (fs.home ++ path.names).dropLast = some .dir := by
      rw [view_put_leaf hslot.place_ne hslot.parent hslot.not_dir rfl, Function.update_of_ne hne.symm]
      exact hslot.parent
    rw [hmade, attrAt_touch_of_ne hparent hne, attrAt_put hslot.place_ne hslot.parent]
    rfl
  · obtain ⟨attr, hget⟩ := get_of_view_file hcontent
    simp only [exec, hnew, Bool.or_true, Bool.not_true, hresolve, openAt, hget, if_true] at h
    cases h

theorem exec_not_new (hslot : FileSlot fs.home fs.view path) {options : OpenOptions} (hnew : options.createNew = true)
    {e : Errno} (h : FS.exec (.openFile path options) fs = (.error e, t)) : t = fs := by
  have hresolve : fs.resolve false path = .ok (fs.home ++ path.names) := resolve_slot fs.looks_self hslot
  simp only [exec, hnew, Bool.or_true, Bool.not_true, hresolve, openAt] at h
  split at h
  · cases h
  · cases h
    rfl

/-- An attempt may be cut anywhere. -/
theorem throughout_generate (hslot : FileSlot fs.home fs.view path) :
    Throughout machine refuse (Left path drawn fs) (generate drawn path) fs := by
  have hsame := Left.refl path drawn fs
  rcases drawn with e | key
  · exact throughout_done hsame
  unfold generate
  refine throughout_ask hsame (fun t h => by cases h) ?_ ?_
  · intro e t hopen
    rw [exec_not_new hslot rfl hopen]
    exact hsame
  · intro file t hopen
    obtain ⟨rfl, hnone, hhome, hview, -⟩ := exec_new hslot rfl hopen
    have hfile : t.view (fs.home ++ path.names) = some (.file []) := by rw [hview, Function.update_self]
    -- any beginning of the key may have been written
    have hwritten : ∀ n, Left path (.ok key) fs (t.store (fs.home ++ path.names) (· ++ key.bytes.take n)) := by
      intro n
      refine @left_of_update _ _ _ _ n hnone ((home_store _ _ _).trans hhome) ?_
      rw [view_store hfile, hview, Function.update_idem]
      rfl
    have hall : Left path (.ok key) fs (t.store (fs.home ++ path.names) (· ++ key.bytes)) := by
      have hlast := hwritten key.bytes.length
      rwa [List.take_length] at hlast
    have hempty : Left path (.ok key) fs t := left_of_update (n := 0) hnone hhome hview
    refine throughout_ask hempty (fun t' htorn => ?_) (fun e t' hwrite => by cases hwrite) fun _ t' hwrite => ?_
    · cases htorn with
      | write _ _ n _ => exact hwritten n
    · cases hwrite
      exact throughout_call hall (fun t' htorn => by cases htorn) (fun e => throughout_done hall) (throughout_done hall)

/-- A key that has been made is there, and only its owner may use the file. -/
theorem returns_generate (hslot : FileSlot fs.home fs.view path) (h : Succeeds machine refuse (generate (.ok key) path) fs () t) :
    t.home = fs.home ∧ t.view = Function.update fs.view (fs.home ++ path.names) (some (.file key.bytes)) ∧
      ∃ modified, t.attrAt (fs.home ++ path.names) = some ⟨0o600, modified⟩ := by
  obtain ⟨_, w, hdrawn, hopening⟩ := succeeds_bind h
  obtain ⟨hdrawn, hsame⟩ := succeeds_done hdrawn
  cases hdrawn
  rw [hsame] at hopening
  obtain ⟨file, u, hopen, hwriting⟩ := succeeds_bind hopening
  obtain ⟨rfl, hnone, hhome, hview, hattr⟩ := exec_new hslot rfl (succeeds_ask hopen)
  obtain ⟨_, v, hwrite, hsyncing⟩ := succeeds_bind hwriting
  have hwritten := succeeds_ask hwrite
  have hsynced := succeeds_ask hsyncing
  cases hwritten
  cases hsynced
  have hfile : u.view (fs.home ++ path.names) = some (.file []) := by rw [hview, Function.update_self]
  obtain ⟨attr, hget⟩ := get_of_view_file hfile
  have hparent : u.view (fs.home ++ path.names).dropLast = some .dir :=
    view_dropLast_of_ne_none hslot.place_ne (by rw [hfile]; exact Option.some_ne_none _)
  refine ⟨(home_store _ _ _).trans hhome, ?_, u.now, ?_⟩
  · rw [view_store hfile, hview, Function.update_idem]
    rfl
  · rw [FS.attrAt, Node.attrAt, Node.observe, hget] at hattr
    cases hattr
    rw [FS.store, hget]
    exact attrAt_put hslot.place_ne hparent _

/-! ## Runs -/

/-- What attempts leave: what was there, or a beginning of one of the keys where nothing was. -/
structure Kept (path : Path) (drawns : List (Except Errno Hash)) (fs t : FS) : Prop where
  home : t.home = fs.home
  slot : FileSlot t.home t.view path
  others : ∀ q, q ≠ fs.home ++ path.names → t.view q = fs.view q
  place : t.view (fs.home ++ path.names) = fs.view (fs.home ++ path.names) ∨
    fs.view (fs.home ++ path.names) = none ∧ ∃ key n, .ok key ∈ drawns ∧
      t.view (fs.home ++ path.names) = some (.file (key.bytes.take n))

theorem kept_of_attempts (hslot : FileSlot fs.home fs.view path) {drawns : List (Except Errno Hash)}
    (h : Attempts path fs drawns t) : Kept path drawns fs t := by
  induction h with
  | none => exact ⟨rfl, hslot, fun _ _ => rfl, .inl rfl⟩
  | @attempt drawns drawn t u _ hvisits ih =>
    have hleft := throughout_generate ih.slot u hvisits
    have hplace := hleft.place
    rw [ih.home] at hplace
    have hothers : ∀ q, q ≠ fs.home ++ path.names → u.view q = t.view q := by
      rw [← ih.home]
      exact hleft.others
    refine ⟨hleft.home.trans ih.home, ?_, fun q hq => (hothers q hq).trans (ih.others q hq), ?_⟩
    · refine ⟨ih.slot.names_ne, fun k hk => ?_, ?_⟩
      · rw [hleft.home, hleft.others _ ?_]
        · exact ih.slot.dirs k hk
        · intro heq
          have hlength := congrArg List.length (List.append_cancel_left heq)
          rw [List.length_take] at hlength
          omega
      · rw [hleft.home]
        rcases hleft.place with hsame | ⟨-, key, n, -, hfile⟩
        · rw [hsame]
          exact ih.slot.leaf
        · rw [hfile]
          exact leaf_file _
    · rcases hplace with hsame | ⟨hnone, key, n, rfl, hfile⟩
      · rw [hsame]
        exact ih.place.imp_right fun ⟨hnone, key, n, hmem, hfile⟩ =>
          ⟨hnone, key, n, List.mem_append_left _ hmem, hfile⟩
      · rcases ih.place with hsame | ⟨-, key', n', -, hfile'⟩
        · exact .inr ⟨hsame ▸ hnone, key, n, List.mem_append_right _ List.mem_cons_self, hfile⟩
        · rw [hfile'] at hnone
          cases hnone

/-- Whatever attempts at making a key file there are, and wherever they are killed: what was there before is not
overwritten, and nothing else changes. A key that is read from a file that was not there before was drawn in one of
the attempts, and no later attempt changes what is read. A key whose making has succeeded is read. -/
theorem key_file_once (path : Path) (fs t : FS) (drawns : List (Except Errno Hash))
    (hslot : FileSlot fs.home fs.view path) (h : Attempts path fs drawns t) :
    (∀ q, q ≠ fs.home ++ path.names ∨ fs.view q ≠ none → t.view q = fs.view q) ∧
    (∀ key u, Succeeds machine refuse (load path) t key u →
      (fs.view (fs.home ++ path.names) = none → .ok key ∈ drawns) ∧
      ∀ drawns' t' key' u', Attempts path t drawns' t' → Succeeds machine refuse (load path) t' key' u' →
        key' = key) ∧
    (∀ key u, Succeeds machine refuse (generate (.ok key) path) t () u → (load path).run machine u = (.ok key, u)) := by
  have hkept := kept_of_attempts hslot h
  refine ⟨fun q hq => ?_, fun key u hload => ⟨fun hnone => ?_, fun drawns' t' key' u' hlater hload' => ?_⟩,
    fun key u hmade => ?_⟩
  · by_cases hplace : q = fs.home ++ path.names
    · rcases hkept.place with hsame | ⟨hnone, -⟩
      · rw [hplace]
        exact hsame
      · exact absurd (hplace ▸ hnone) (hq.resolve_left fun hne => hne hplace)
    · exact hkept.others q hplace
  · have hcontent := content_of_load hkept.slot hload
    rw [hkept.home] at hcontent
    rcases hkept.place with hsame | ⟨-, drawn, n, hmem, hfile⟩
    · rw [hsame, hnone] at hcontent
      cases hcontent
    · -- a beginning of a key that is as long as a key is the key
      rw [hfile] at hcontent
      have hbytes : drawn.bytes.take n = key.bytes := Shape.file.inj (Option.some.inj hcontent)
      have hlength : ∀ k : Hash, k.bytes.length = 32 := fun k => by simp [Hash.bytes]
      have hall : drawn.bytes.length ≤ n := by
        have hlen := congrArg List.length hbytes
        rw [List.length_take, hlength, hlength] at hlen
        rw [hlength]
        omega
      rw [List.take_of_length_le hall] at hbytes
      rw [← hash_bytes_injective hbytes]
      exact hmem
  · have hcontent := content_of_load hkept.slot hload
    have hlast := kept_of_attempts hkept.slot hlater
    have hcontent' := content_of_load hlast.slot hload'
    rw [hlast.home] at hcontent'
    rcases hlast.place with hsame | ⟨hnone, -⟩
    · rw [hsame, hcontent] at hcontent'
      exact (hash_bytes_injective (Shape.file.inj (Option.some.inj hcontent'))).symm
    · rw [hcontent] at hnone
      cases hnone
  · obtain ⟨hhome, hview, modified, hattr⟩ := returns_generate hkept.slot hmade
    have hfile : u.view (t.home ++ path.names) = some (.file key.bytes) := by rw [hview, Function.update_self]
    have hslot' : FileSlot u.home u.view path := by
      rw [hhome, hview]
      exact hkept.slot.update hkept.slot.not_dir (leaf_file _)
    rw [← hhome] at hfile hattr
    exact run_load hslot' hfile hattr

section Example

def keyFile : Path := ⟨none, [⟨ascii "k", by decide⟩]⟩

def sevens : Hash := Vector.replicate 32 7

theorem slot_keyFile : FileSlot FS.empty.home FS.empty.view keyFile := by
  refine ⟨by decide, fun k hk => ?_, .inl rfl⟩
  obtain rfl : k = 0 := Nat.lt_one_iff.1 hk
  rfl

/-- The file system after the first key has been made. -/
def afterMaking : FS := ((generate (.ok sevens) keyFile).run machine FS.empty).2

theorem key_file_once_sevens :
    (load keyFile).run machine afterMaking = (.ok sevens, afterMaking) ∧
      ∀ drawns t key u, Attempts keyFile afterMaking drawns t → Succeeds machine refuse (load keyFile) t key u →
        key = sevens := by
  have hmade : Succeeds machine refuse (generate (.ok sevens) keyFile) FS.empty () afterMaking :=
    .of_fst (by decide +kernel)
  have hread := (key_file_once keyFile FS.empty FS.empty [] slot_keyFile .none).2.2 sevens afterMaking hmade
  have honce := key_file_once keyFile FS.empty afterMaking [.ok sevens] slot_keyFile
    (.attempt .none (.of_succeeds hmade))
  exact ⟨hread, (honce.2.1 sevens afterMaking (.of_run hread)).2⟩

end Example

end SecretKey

end PacketTide
