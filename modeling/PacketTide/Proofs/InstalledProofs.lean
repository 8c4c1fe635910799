import PacketTide.Proofs.InstallProofs

/-!
# Installed trees

A tree that `install` reports as installed is the tree of the manifest, unless the manifest has a
file in the place of the marker.
-/

namespace PacketTide

open Effects FileSystem Prog Text FS

variable {home : Loc} {v : View} {fs t : FS} {m : Manifest} {base : Option (List UInt8)}
  {name : Name}

/-! ## Destinations -/

theorem parentOf_eq (base : Option (List UInt8)) (name : Name) :
    (parentOf ⟨base, [name]⟩).names = [] ∧ parentOf ⟨base, [name]⟩ ≠ Path.empty := by
  have hparent : Path.parent ⟨base, [name]⟩ = some ⟨base, []⟩ := rfl
  unfold parentOf
  rw [hparent]
  dsimp only
  split_ifs with he
  · exact ⟨rfl, by decide⟩
  · exact ⟨rfl, he⟩

theorem stagingPath_names [Sha256] (m : Manifest) (base : Option (List UInt8)) (name : Name) :
    (stagingPath m ⟨base, [name]⟩).names = [stagingName m ⟨base, [name]⟩] := by
  unfold stagingPath Path.join
  rw [(parentOf_eq base name).1]
  rfl

/-- Whatever calls fail, the staging directory is at its fixed place. -/
theorem succeeds_prepareStaging_eq [Sha256] {destination staging : Path}
    (h : Succeeds machine refuse (prepareStaging m destination) fs staging t) :
    staging = stagingPath m destination := by
  obtain ⟨_, _, -, h₁⟩ := succeeds_bind h
  obtain ⟨_, _, -, h₂⟩ := succeeds_bind h₁
  obtain ⟨_, _, -, h₃⟩ := succeeds_bind h₂
  obtain ⟨_, _, -, h₄⟩ := succeeds_bind h₃
  cases (succeeds_done h₄).1
  rfl

/-- No program changes the working directory. -/
theorem succeeds_home {α : Type} {p : FsProg α} {a : α}
    (h : Succeeds machine refuse p fs a t) : t.home = fs.home := by
  obtain ⟨plan, rest, hrun⟩ := h
  have hk : (p.runPlan machine refuse plan fs).2.1.home = fs.home :=
    (only_any p).runPlan (I := fun u => u.home = fs.home)
      (fun c u _ hu => (exec_home c u).trans hu) plan fs rfl
  rw [hrun] at hk
  exact hk

theorem home_dir_of_finishTree [Sha256] {staging destination : Path} {n : Name}
    (hn : staging.names = [n])
    (h : Succeeds machine refuse (finishTree m staging destination) fs () t) :
    fs.view fs.home = some .dir := by
  obtain ⟨_, _, hentries, -⟩ := succeeds_bind h
  obtain ⟨_, _, hcheck, -⟩ := succeeds_bind hentries
  obtain ⟨_, _, hroot, -⟩ := succeeds_bind hcheck
  obtain ⟨-, metadata, hstat, -⟩ := succeeds_requireRealDirectory hroot
  exact home_dir_of_lstat hn hstat

/-! ## The installed tree -/

/-- An installation that ends well has moved a tree that passed all checks. -/
theorem succeeds_installTree [Sha256] {staging : Path} {n : Name} (hw : WellFormed m.entries)
    (hn : staging.names = [n]) (hl : fs.Looks home v)
    (h : Succeeds machine refuse (installTree m staging ⟨base, [name]⟩) fs () t) :
    StagedTree v (home ++ staging.names) m false ∧
      v (home ++ staging.names ++ [markerName]) ≠ some .dir ∧
      (∀ e ∈ m.entries, e.kind = .file →
        HoldsFile v (home ++ staging.names ++ pathFromBytes e.path) e) ∧
      ∀ names, t.view (home ++ [name] ++ names) =
        unmarked home staging v (home ++ staging.names ++ names) := by
  obtain ⟨_, t₂, hmove, hsync⟩ := succeeds_bind h
  obtain ⟨_, t₁, hfinish, hrename⟩ := succeeds_bind hmove
  have hhome : v home = some .dir := by
    have hdir := home_dir_of_finishTree hn hfinish
    rwa [hl.home_eq, hl.view_eq] at hdir
  have hd : DirsTo home v staging.names := by
    rw [hn]
    exact dirsTo_singleton.2 hhome
  have hne : staging.names ≠ [] := by simp [hn]
  obtain ⟨hl₁, hstaged, hmark, hfiles⟩ := succeeds_finishTree hw hne hd hl hfinish
  have hl₂ := looks_of_succeeds keeps_syncParent t₂.looks_self hsync
  have hhome₁ : unmarked home staging v home = some .dir := by
    rw [unmarked, Function.update_of_ne (by simp), hhome]
  have hdir₁ : unmarked home staging v (home ++ staging.names) = some .dir := by
    rw [unmarked, Function.update_of_ne (by simp), hstaged.dir]
  have hsource : t₁.resolve false staging = _ := resolve_dirs hl₁ hne (by
    rw [hn]
    exact dirsTo_singleton.2 hhome₁)
  have htarget : t₁.resolve false ⟨base, [name]⟩ = _ :=
    resolve_dirs hl₁ (List.cons_ne_nil _ _) (dirsTo_singleton.2 hhome₁)
  obtain ⟨-, hmoved⟩ := exec_rename_dir_eq_ok hsource htarget
    (List.append_ne_nil_of_right_ne_nil _ hne) (by simp)
    (by simpa [hl₁.view_eq] using hhome₁) (by rw [hl₁.view_eq]; exact hdir₁) (succeeds_ask hrename)
  refine ⟨hstaged, hmark, hfiles, fun names => ?_⟩
  rw [hl₂.view_eq, hmoved, hl₁.view_eq]

theorem pathFromBytes_marker : pathFromBytes (ascii ".packet-tide-manifest") = [markerName] := by
  decide

/-- An entry lies at the place of the marker only if it has the path of the marker. -/
theorem WellFormed.path_of_names (hw : WellFormed m.entries) {e : ManifestEntry}
    (he : e ∈ m.entries) :
    pathFromBytes e.path = [markerName] ↔ e.path = ascii ".packet-tide-manifest" := by
  constructor
  · intro h
    rw [← hw.joined_names he, h]
    rfl
  · intro h
    rw [h, pathFromBytes_marker]

/-- What is allowed in a complete staging tree, apart from the marker, is an entry. -/
theorem entry_of_allowed {names : List Name} {s : Shape}
    (hn : names ≠ []) (hmark : names ≠ [markerName])
    (h : AllowedAt (allowedIn m false) names s) : ∃ e ∈ m.entries, pathFromBytes e.path = names := by
  have hentry : ∀ kind, Path.joined names ∈
      (m.entries.filter fun e => decide (e.kind = kind)).map ManifestEntry.path →
      ∃ e ∈ m.entries, pathFromBytes e.path = names := by
    intro kind hmem
    obtain ⟨e, he, hpath⟩ := List.mem_map.1 hmem
    refine ⟨e, (List.mem_filter.1 he).1, ?_⟩
    rw [hpath, pathFromBytes_joined hn]
  cases s with
  | dir => exact hentry .directory h
  | file b =>
    rcases h with h | h | h
    · exact hentry .file h
    · refine absurd ?_ hmark
      rw [← pathFromBytes_joined hn, h, pathFromBytes_marker]
    · simp [allowedIn] at h
  | link target => exact absurd h id
  | special => exact absurd h id

/-- A tree that has been received and installed is exactly the one of the manifest if and only if no
file of the manifest has the path of the marker, which `install` removes. -/
theorem installed_exact_iff [Sha256] {ρ : Type} {encoded : Str} (hm : parse encoded = .ok m)
    (receive : ManifestEntry → Path → FsProg ρ)
    (h : Succeeds machine refuse (receiveDir receive m ⟨base, [name]⟩) fs () t) :
    ExactTree t.view (fs.home ++ [name]) m ↔
      ∀ e ∈ m.entries, e.kind = .file → e.path ≠ ascii ".packet-tide-manifest" := by
  have hw := (encode_of_parse hm).2.wellFormed
  obtain ⟨staging, t₁, hprepare, htail₁⟩ := succeeds_bind h
  obtain ⟨_, t₂, hreceive, hinstall⟩ := succeeds_bind htail₁
  obtain rfl := succeeds_prepareStaging_eq hprepare
  have hhome : t₂.home = fs.home := (succeeds_home hreceive).trans (succeeds_home hprepare)
  obtain ⟨hstaged, hmark, hfiles, hmoved⟩ :=
    succeeds_installTree hw (stagingPath_names m base name) t₂.looks_self hinstall
  rw [hhome] at hstaged hmark hfiles hmoved
  have hrest : ∀ names, names ≠ [markerName] → t.view (fs.home ++ [name] ++ names) =
      t₂.view (fs.home ++ (stagingPath m ⟨base, [name]⟩).names ++ names) := by
    intro names hne
    rw [hmoved, unmarked, Function.update_of_ne]
    simpa using hne
  constructor
  · intro hexact e he hk hpath
    obtain ⟨content, hview, -⟩ := hexact.files e he hk
    rw [(hw.path_of_names he).2 hpath, hmoved, unmarked, Function.update_self] at hview
    cases hview
  · intro hno
    refine ⟨?_, ?_, ?_, ?_⟩
    · have hroot := hrest [] (by simp)
      rw [List.append_nil, List.append_nil] at hroot
      rw [hroot]
      exact hstaged.dir
    · intro e he hk
      have hdir := hstaged.directories e he hk
      rw [hrest _ fun hn => hmark (hn ▸ hdir)]
      exact hdir
    · intro e he hk
      have hne : pathFromBytes e.path ≠ [markerName] := fun hn =>
        hno e he hk ((hw.path_of_names he).1 hn)
      unfold HoldsFile
      rw [hrest _ hne]
      exact hfiles e he hk
    · intro names hn hview
      by_cases hne : names = [markerName]
      · rw [hne, hmoved, unmarked, Function.update_self] at hview
        exact absurd rfl hview
      · rw [hrest _ hne] at hview
        obtain ⟨s, hs⟩ := Option.ne_none_iff_exists'.1 hview
        exact entry_of_allowed hn hne (hstaged.allowed names hn s hs)

/-! ## Small trees -/

namespace Sample

def hexHash (text : String) : Hash :=
  match decodeHash (ascii text) with
  | .ok hash => hash
  | .error _ => Vector.replicate 32 0

def hashOfNothing : Hash :=
  hexHash "e3b0c44298fc1c149afbf4c8996fb92427ae41e4649b934ca495991b7852b855"

def hashOfSeven : Hash :=
  hexHash "ca358758f6d27e6cf45272937977a748fd88391db679ceda7dc7bf1f005ee879"

def file (path : String) (size : Nat) (hash : Hash) : ManifestEntry :=
  ⟨ascii path, .file, 0o644, 0, 0, size, some hash⟩

def directory (path : String) : ManifestEntry := ⟨ascii path, .directory, 0o755, 0, 0, 0, none⟩

/-- One file with the byte 7. -/
def oneFile : Manifest where
  entries := [file "f" 1 hashOfSeven]
  rootMode := 0o755
  rootModifiedSeconds := 0
  rootModifiedNanoseconds := 0
  hash := hexHash "8eddf800b34223c849c49e5ad71c27abc4828b8774587aeb5d9f31ff371954ff"

/-- One empty file, in the place of the marker. -/
def markerFile : Manifest where
  entries := [file ".packet-tide-manifest" 0 hashOfNothing]
  rootMode := 0o755
  rootModifiedSeconds := 0
  rootModifiedNanoseconds := 0
  hash := hexHash "36533ae8d99c7f4c535b6112457ca8cb820f14409bce5aec23efe4e257dd89f4"

/-- A file with the byte 7 and a directory in the place of its partial file. -/
def partDirectory : Manifest where
  entries := [file "f" 1 hashOfSeven, directory "f.part"]
  rootMode := 0o755
  rootModifiedSeconds := 0
  rootModifiedNanoseconds := 0
  hash := hexHash "fd16b207de3a0df969e83a1b5411199497fe34db4d160bad616e9f56cbdeea54"

def bodyOf (m : Manifest) : Str :=
  canonicalBody m.entries m.rootMode m.rootModifiedSeconds m.rootModifiedNanoseconds

/-- The digests of all texts that are hashed for the small trees. -/
def digests : List (List UInt8 × Hash) :=
  [([], hashOfNothing), ([7], hashOfSeven), (bodyOf oneFile, oneFile.hash),
    (bodyOf markerFile, markerFile.hash), (bodyOf partDirectory, partDirectory.hash),
    (ascii "d", hexHash "18ac3e7343f016890c510e93f935261169d9e3f565436429830faf0934f4f8e4"),
    (ascii "./d", hexHash "393b1b35da47b3cca24b500666941d7f58f55add691b8c076f23ec525ba54177")]

scoped instance knownDigests : Sha256 where
  digest bytes := (digests.lookup bytes).getD (Vector.replicate 32 0)

def d : Name := ⟨ascii "d", by decide⟩

/-- The destination `./d`. -/
def here : Path := ⟨some (ascii "."), [d]⟩

/-- The destination `d`. -/
def plain : Path := ⟨none, [d]⟩

/-- Receive the file of `oneFile` in one datagram. -/
def receiveSeven : Path → FsProg Receipt :=
  receiveObject 1 ⟨1, 1, 256, hashOfSeven, Identity.one_lt, Identity.one_lt, Identity.leastPayload_lt⟩ [.chunk 0 [7]]

/-- Receive an empty file. -/
def receiveNothing : Path → FsProg Receipt :=
  receiveObject 1 ⟨0, 0, 256, hashOfNothing, by decide, by decide, Identity.leastPayload_lt⟩ []

end Sample

section Example

open Sample

theorem parse_oneFile : parse (encode oneFile) = .ok oneFile := by decide +kernel

/-- The rule of installed trees, for a tree of one file. -/
theorem installed_exact_oneFile :
    ExactTree ((receiveDir (fun _ => receiveSeven) oneFile ⟨some (ascii "."), [d]⟩).run machine
        FS.empty).2.view (FS.empty.home ++ [d]) oneFile ↔
      ∀ e ∈ oneFile.entries, e.kind = .file → e.path ≠ ascii ".packet-tide-manifest" :=
  installed_exact_iff parse_oneFile (fun _ => receiveSeven)
    (Succeeds.of_fst (by decide +kernel))

/-- A file in the place of the marker is lost, and the transfer still ends well. -/
theorem not_installed_exact :
    ¬ ∀ (encoded : Str) (m : Manifest) (receive : ManifestEntry → Path → FsProg Receipt)
      (base : Option (List UInt8)) (name : Name) (fs t : FS), parse encoded = .ok m →
      Succeeds machine refuse (receiveDir receive m ⟨base, [name]⟩) fs () t →
      ExactTree t.view (fs.home ++ [name]) m := by
  intro h
  have hexact := h (encode markerFile) markerFile (fun _ => receiveNothing) _ d FS.empty
    ((receiveDir (fun _ => receiveNothing) markerFile here).run machine FS.empty).2
    (by decide +kernel) (Succeeds.of_fst (by decide +kernel))
  obtain ⟨content, hview, -⟩ := hexact.files _ (List.mem_singleton_self _) rfl
  have hnone : ((receiveDir (fun _ => receiveNothing) markerFile here).run machine FS.empty).2.view
      (FS.empty.home ++ [d] ++ pathFromBytes (ascii ".packet-tide-manifest")) = none := by decide +kernel
  cases hview.symm.trans hnone

end Example

end PacketTide
