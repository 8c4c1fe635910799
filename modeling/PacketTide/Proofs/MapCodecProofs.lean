import PacketTide.Proofs.ResumeRunsProofs

/-!
# The codec of receipt maps

A map file is read as receipts of an object just if it is what a checkpoint of that object writes.
-/

namespace PacketTide

open Effects FileSystem FS Prog ResumeState Text

section

variable {id : Identity} {bitmap : Bitmap} {content : List UInt8}

/-! ## Contents -/

theorem wordBytes_decodeWords {n : Nat} {bytes : List UInt8} (h : bytes.length = n * 8) :
    wordBytes (decodeWords n bytes) = bytes := by
  induction n generalizing bytes with
  | zero =>
    rw [Nat.zero_mul] at h
    rw [List.eq_nil_of_length_eq_zero h]
    rfl
  | succ n ih =>
    have htake : (bytes.take 8).length = 8 := by
      rw [List.length_take]
      omega
    have hdrop : (bytes.drop 8).length = n * 8 := by
      rw [List.length_drop]
      omega
    have hlt : fromBeBytes (bytes.take 8) < 2 ^ 64 := by
      have hbound := fromBeBytes_lt (bytes.take 8)
      rw [htake] at hbound
      exact hbound
    have hword : toBeBytes (BitVec.ofNat 64 (fromBeBytes (bytes.take 8))).toNat = bytes.take 8 := by
      rw [BitVec.toNat_ofNat, Nat.mod_eq_of_lt hlt, toBeBytes_fromBeBytes htake]
    rw [decodeWords, wordBytes, List.flatMap_cons, hword]
    have hrest := ih hdrop
    rw [wordBytes] at hrest
    rw [hrest, List.take_append_drop]

/-- A content of the right length that is decoded is what is written for its bitmap. -/
theorem eq_mapBytes_of_receiptsIn (h : receiptsIn content id = some bitmap) : content = mapBytes id bitmap := by
  obtain ⟨hlength, hdecode⟩ := decodeMap_of_receiptsIn h
  obtain ⟨hsize, hchunks, hpayload, hhash, hbitmap⟩ := header_of_decodeMap hdecode
  have hmagic : (content.take headerLen).take 8 = mapMagic := by
    unfold decodeMap at hdecode
    by_contra hne
    rw [if_pos (Or.inl hne)] at hdecode
    cases hdecode
  have hheader : (content.take headerLen).length = 64 := by
    rw [List.length_take, hlength]
    exact Nat.min_eq_left (Nat.le_add_right _ _)
  have hfield : ∀ k, k + 8 ≤ 64 → (((content.take headerLen).drop k).take 8).length = 8 := by
    intro k hk
    rw [List.length_take, List.length_drop, hheader]
    omega
  have hnumber : ∀ k n, k + 8 ≤ 64 → fromBeBytes (((content.take headerLen).drop k).take 8) = n →
      ((content.take headerLen).drop k).take 8 = toBeBytes n := by
    rintro k _ hk rfl
    exact (toBeBytes_fromBeBytes (hfield k hk)).symm
  have hwords : content.drop headerLen = wordBytes bitmap := by
    rw [hbitmap, wordBytes_decodeWords]
    rw [List.length_drop, hlength]
    omega
  -- the header, field by field
  have hsplit : content.take headerLen = (content.take headerLen).take 8 ++
      (((content.take headerLen).drop 8).take 8 ++ (((content.take headerLen).drop 16).take 8 ++
        (((content.take headerLen).drop 24).take 8 ++ ((content.take headerLen).drop 32).take 32))) := by
    have hlast : ((content.take headerLen).drop 32).take 32 = (content.take headerLen).drop 32 := by
      exact List.take_of_length_le (Nat.le_of_eq (List.length_drop.trans (congrArg (· - 32) hheader)))
    have hjoin : ∀ k, ((content.take headerLen).drop k).take 8 ++ (content.take headerLen).drop (k + 8) =
        (content.take headerLen).drop k := by
      intro k
      rw [← List.drop_drop, List.take_append_drop]
    rw [hlast, hjoin 24, hjoin 16, hjoin 8, List.take_append_drop]
  rw [mapBytes_eq, ← hwords, ← hmagic, ← hnumber 8 _ (by decide) hsize, ← hnumber 16 _ (by decide) hchunks,
    ← hnumber 24 _ (by decide) hpayload, ← hhash]
  conv_lhs => rw [← List.take_append_drop headerLen content, hsplit]
  simp only [List.append_assoc]

/-- A content holds receipts of an object just if it has been written for them. -/
theorem receiptsIn_eq_some_iff :
    receiptsIn content id = some bitmap ↔ content = mapBytes id bitmap ∧ BitmapFor id.chunks bitmap := by
  constructor
  · intro h
    exact ⟨eq_mapBytes_of_receiptsIn h, bitmapFor_of_receiptsIn h⟩
  · rintro ⟨rfl, h⟩
    exact receiptsIn_mapBytes_self h

/-! ## Files -/

/-- What is read from a map file. -/
theorem run_loadMap {fs : FS} {path : Path} {place : Loc} (hresolve : fs.resolve true path = .ok place)
    (hview : fs.view place = some (.file content)) (id : Identity) :
    (loadMap path id (bitmapWords id.chunks)).run machine fs = (.ok (receiptsIn content id), fs) := by
  have hopen : FS.exec (.openFile path {}) fs = (.ok place, fs) := exec_openFile_keep rfl rfl rfl hresolve hview
  obtain ⟨attr, hstat⟩ := @exec_fstat_file fs _ _ _ _ ⟨rfl, rfl⟩ hview
  have hsmall : ¬headerLen + bitmapWords id.chunks * 8 ≥ 2 ^ 64 := by
    have hlt := id.chunks_lt
    unfold headerLen bitmapWords
    omega
  have htry : (tryOpen path {}).run machine fs = (.ok (.ok place), fs) := by
    show (Except.ok (FS.exec (.openFile path {}) fs).1, (FS.exec (.openFile path {}) fs).2) = _
    rw [hopen]
  unfold loadMap receiptsIn
  rw [run_bind_ok htry]
  dsimp only
  rw [if_neg hsmall, run_ask_ok hstat]
  by_cases hlength : content.length = headerLen + bitmapWords id.chunks * 8
  · rw [if_neg (not_not.2 hlength), run_ask_ok (exec_readToEnd hview), if_pos hlength]
    rfl
  · rw [if_pos hlength, if_neg hlength]
    rfl

/-- A checkpoint leaves a map from which its bitmap is read. -/
theorem run_checkpoint_loadMap {pid : Nat} {dest : Path} {fs : FS} (file : Loc)
    (hs : Sited pid fs.home fs.view dest) (hbitmap : BitmapFor id.chunks bitmap) :
    ∃ t, ((forObject dest id bitmap).checkpoint pid file).run machine fs = (.ok (), t) ∧
      t.view (t.home ++ (mapOf dest).names) = some (.file (mapBytes id bitmap)) ∧
      (loadMap (mapOf dest) id (bitmapWords id.chunks)).run machine t = (.ok (some bitmap), t) := by
  have hslot := hs.map_slot
  obtain ⟨-, hrun, hlooks⟩ := @safe_checkpoint _ _ _ _ _ (forObject dest id bitmap) file hs rfl ⟨rfl, rfl⟩
  rcases hresult : ((forObject dest id bitmap).checkpoint pid file).run machine fs with ⟨r, t⟩
  rw [hresult] at hrun hlooks
  obtain rfl : r = .ok () := hrun
  have hmap : Sited pid fs.home (checkpointed pid fs.home dest (mapBytes id bitmap) fs.view) dest :=
    (hs.update hs.temporary_slot.not_dir leaf_none).update (hslot.update hs.temporary_slot.not_dir leaf_none).not_dir
      (leaf_file _)
  have hview : t.view (fs.home ++ (mapOf dest).names) = some (.file (mapBytes id bitmap)) := by
    rw [hlooks.2]
    exact Function.update_self _ _ _
  have hload := run_loadMap (resolve_slot hlooks hmap.map_slot) hview id
  rw [receiptsIn_mapBytes_self hbitmap] at hload
  refine ⟨t, rfl, ?_, hload⟩
  rw [hlooks.1]
  exact hview

/-- A map file is read as receipts just if it is what a checkpoint of the same object writes, so receipts are
read back as they were written, and no file holds receipts of two objects. -/
theorem map_codec (id : Identity) :
    (∀ fs path place content, fs.resolve true path = .ok place → fs.view place = some (.file content) →
      ∃ found, (loadMap path id (bitmapWords id.chunks)).run machine fs = (.ok found, fs) ∧
        ∀ bitmap, found = some bitmap ↔ content = mapBytes id bitmap ∧ BitmapFor id.chunks bitmap) ∧
    (∀ pid dest fs file bitmap, Sited pid fs.home fs.view dest → BitmapFor id.chunks bitmap →
      ∃ t, ((forObject dest id bitmap).checkpoint pid file).run machine fs = (.ok (), t) ∧
        t.view (t.home ++ (mapOf dest).names) = some (.file (mapBytes id bitmap)) ∧
        (loadMap (mapOf dest) id (bitmapWords id.chunks)).run machine t = (.ok (some bitmap), t)) ∧
    ∀ id' fs path place content, fs.resolve true path = .ok place → fs.view place = some (.file content) →
      ∀ bitmap bitmap', (loadMap path id (bitmapWords id.chunks)).run machine fs = (.ok (some bitmap), fs) →
        (loadMap path id' (bitmapWords id'.chunks)).run machine fs = (.ok (some bitmap'), fs) → id = id' := by
  refine ⟨fun fs path place content hresolve hview => ?_, fun pid dest fs file bitmap hs hbitmap => ?_,
    fun id' fs path place content hresolve hview bitmap bitmap' hload hload' => ?_⟩
  · exact ⟨_, run_loadMap hresolve hview id, fun bitmap => receiptsIn_eq_some_iff⟩
  · exact run_checkpoint_loadMap file hs hbitmap
  · rw [run_loadMap hresolve hview] at hload hload'
    exact receiptsIn_object (Except.ok.inj (Prod.mk.inj hload).1) (Except.ok.inj (Prod.mk.inj hload').1)

end

end PacketTide
