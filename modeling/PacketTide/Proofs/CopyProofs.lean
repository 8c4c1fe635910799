import PacketTide.Proofs.CreditProofs

/-!
# Copying from a candidate

What is copied from a candidate that is not the partial file itself are just the chunks that it has, and
then the partial file holds the bytes of the object there.
-/

namespace PacketTide

open Effects FileSystem FS Prog Intervals

/-! ## The chunks of a candidate -/

theorem available_some {candidate : Cdc.Manifest} {length offset : Nat} {hash : Hash}
    (h : available candidate length hash = some offset) :
    ∃ d ∈ candidate.chunks, d.offset = offset ∧ d.length = length ∧ d.hash = hash := by
  obtain ⟨d, hfind, hoffset⟩ := Option.map_eq_some_iff.1 h
  have hsame := List.find?_some hfind
  simp only [decide_eq_true_eq] at hsame
  exact ⟨d, List.mem_of_find?_eq_some hfind, hoffset, hsame⟩

/-- The range of a content chunk. -/
def Cdc.Chunk.range (chunk : Cdc.Chunk) : Nat × Nat := (chunk.offset, chunk.offset + chunk.length)

section

variable {pid : Nat} {dest path : Path} {file source : Loc} {object content before : List UInt8}
  {candidate : Cdc.Manifest} {chunks : List Cdc.Chunk} {fs : FS} {home : Loc} {v : View}

/-! ## Reading -/

/-- Reading exactly reads the whole range, however short the reads are. -/
theorem run_readExactAt (hl : fs.Looks home v) (hv : v source = some (.file content))
    (hlt : content.length < 2 ^ 64) {n count offset : Nat} (hin : offset + count ≤ content.length)
    (hn : count ≤ n) (bytes : List UInt8) :
    ∃ t, (readExactAt source n count offset bytes).run machine fs =
        (.ok (bytes ++ (content.drop offset).take count), t) ∧ t.Looks home v := by
  induction n generalizing fs count offset bytes with
  | zero =>
    refine ⟨fs, ?_, hl⟩
    rw [Nat.le_zero.1 hn, List.take_zero, List.append_nil]
    rfl
  | succ n ih =>
    rw [readExactAt]
    by_cases hcount : count = 0
    · refine ⟨fs, ?_, hl⟩
      rw [if_pos hcount, hcount, List.take_zero, List.append_nil]
      rfl
    · obtain ⟨k, t, hread, ht, hk, hpos⟩ := exec_readAt_file hl hv offset count
      have hkpos := hpos (by omega)
      have hlen : ((content.drop offset).take k).length = k := by
        rw [List.length_take, List.length_drop]
        omega
      have hne : (content.drop offset).take k ≠ [] := by
        intro hnil
        rw [hnil, List.length_nil] at hlen
        omega
      obtain ⟨u, hu, hlu⟩ := @ih _ ht (count - k) (offset + k) (by omega) (by omega)
        (bytes ++ (content.drop offset).take k)
      refine ⟨u, ?_, hlu⟩
      have hsplit : (content.drop offset).take count =
          (content.drop offset).take k ++ (content.drop (offset + k)).take (count - k) := by
        rw [← List.drop_drop, ← List.take_add, Nat.add_sub_cancel' hk]
      rw [if_neg hcount, run_ask_ok hread, if_neg hne, hlen, if_neg (by omega), hu, hsplit,
        List.append_assoc]

theorem run_scanPath [Sha256] (h : LeadsToFile fs path source content) :
    (scanPath path).run machine fs =
      ((Cdc.scan content.length content).mapError AnyError.message, fs) := by
  obtain ⟨hresolve, hview⟩ := h
  have hopen : FS.exec (.openFile path { nofollow := true }) fs = (.ok source, fs) :=
    exec_openFile_keep rfl rfl rfl hresolve hview
  obtain ⟨attr, hstat⟩ := @exec_fstat_file fs _ _ _ _ ⟨rfl, rfl⟩ hview
  rw [scanPath, run_ask_ok hopen, run_ask_ok hstat, if_neg (by simp), run_ask_ok (exec_readToEnd hview)]
  rfl

/-! ## Copying -/

/-- A chunk that is found is copied if its bytes have the hash. -/
theorem run_copyChunks_match [Sha256] {chunk : Cdc.Chunk} {offset : Nat}
    (havailable : available candidate chunk.length chunk.hash = some offset)
    (hsource : fs.view source = some (.file content)) (hlt : content.length < 2 ^ 64)
    (hread : offset + chunk.length ≤ content.length)
    (hdigest : Sha256.digest ((content.drop offset).take chunk.length) = chunk.hash)
    (hd : OnDisk pid dest file before fs) :
    ∃ u, u.Looks fs.home (Function.update fs.view file (some (.file
        (splice chunk.offset ((content.drop offset).take chunk.length) before)))) ∧
      (copyChunks file source candidate (chunk :: chunks)).run machine fs =
        (copyChunks file source candidate chunks >>= fun copied =>
          return chunk.range :: copied : FsProg (List (Nat × Nat))).run machine u := by
  obtain ⟨t, hrun, hl⟩ := @run_readExactAt _ _ fs _ _ ⟨rfl, rfl⟩ hsource hlt _ _ _ hread
      (Nat.le_refl _) []
  rw [List.nil_append] at hrun
  obtain ⟨u, hwrite, hlu⟩ := (hd.looks hl).write chunk.offset ((content.drop offset).take chunk.length)
  rw [hl.1, hl.2] at hlu
  refine ⟨u, hlu, ?_⟩
  rw [copyChunks, havailable]
  dsimp only
  rw [run_bind_ok hrun, if_neg (not_not.2 hdigest), run_ask_ok hwrite]
  rfl

/-- A chunk that is found is passed over if its bytes have changed. -/
theorem run_copyChunks_mismatch [Sha256] {chunk : Cdc.Chunk} {offset : Nat}
    (havailable : available candidate chunk.length chunk.hash = some offset)
    (hsource : fs.view source = some (.file content)) (hlt : content.length < 2 ^ 64)
    (hread : offset + chunk.length ≤ content.length)
    (hdigest : Sha256.digest ((content.drop offset).take chunk.length) ≠ chunk.hash) :
    ∃ t, t.Looks fs.home fs.view ∧
      (copyChunks file source candidate (chunk :: chunks)).run machine fs =
        (copyChunks file source candidate chunks).run machine t := by
  obtain ⟨t, hrun, hl⟩ := @run_readExactAt _ _ fs _ _ ⟨rfl, rfl⟩ hsource hlt _ _ _ hread
      (Nat.le_refl _) []
  rw [List.nil_append] at hrun
  refine ⟨t, hl, ?_⟩
  rw [copyChunks, havailable]
  dsimp only
  rw [run_bind_ok hrun, if_pos hdigest]

/-- Copying succeeds also where the candidate is the partial file. -/
theorem run_copyChunks_any [Sha256] (hsource : fs.view source = some (.file content))
    (hlt : content.length < 2 ^ 64)
    (hcandidate : ∀ d ∈ candidate.chunks, d.offset + d.length ≤ content.length)
    (hin : ∀ c ∈ chunks, c.offset + c.length ≤ before.length) (hd : OnDisk pid dest file before fs) :
    ∃ t after copied, (copyChunks file source candidate chunks).run machine fs = (.ok copied, t) ∧
      copied.Sublist (chunks.map Cdc.Chunk.range) ∧
      t.Looks fs.home (Function.update fs.view file (some (.file after))) ∧
      after.length = before.length := by
  induction chunks generalizing before content fs with
  | nil =>
    refine ⟨fs, before, [], rfl, List.Sublist.slnil, ⟨rfl, ?_⟩, rfl⟩
    rw [← hd.shape, Function.update_eq_self]
  | cons chunk chunks ih =>
    obtain ⟨hchunk, hrest⟩ := List.forall_mem_cons.1 hin
    rw [List.map_cons]
    rcases havailable : available candidate chunk.length chunk.hash with _ | offset
    · obtain ⟨t, after, copied, hrun, hsub, hl, hlen⟩ := ih hsource hlt hcandidate hrest hd
      refine ⟨t, after, copied, ?_, hsub.cons _, hl, hlen⟩
      rw [copyChunks, havailable]
      exact hrun
    · obtain ⟨d, hmem, hoffset, hlength, -⟩ := available_some havailable
      have hdin := hcandidate d hmem
      by_cases hdigest : Sha256.digest ((content.drop offset).take chunk.length) = chunk.hash
      swap
      · obtain ⟨t, hlt', hstep⟩ := @run_copyChunks_mismatch file _ _ _ chunks _ _ _ _ havailable
            hsource hlt (by omega) hdigest
        obtain ⟨u, after, copied, hrun, hsub, hl, hlen⟩ :=
          ih (by rw [hlt'.2]; exact hsource) hlt hcandidate hrest (hd.looks hlt')
        rw [hlt'.1, hlt'.2] at hl
        exact ⟨u, after, copied, hstep.trans hrun, hsub.cons _, hl, hlen⟩
      obtain ⟨u, hlu, hstep⟩ := @run_copyChunks_match _ _ _ _ _ _ _ chunks _ _ _ _ havailable
          hsource hlt (by omega) hdigest hd
      have hbytes : ((content.drop offset).take chunk.length).length = chunk.length := by
        rw [List.length_take, List.length_drop]
        omega
      have hspliced := @length_splice chunk.offset ((content.drop offset).take chunk.length)
          before (by rw [hbytes]; exact hchunk)
      -- where the candidate is the partial file, it keeps its length
      obtain ⟨content', hsource', hlen'⟩ : ∃ content', u.view source = some (.file content') ∧
          content'.length = content.length := by
        rw [hlu.2]
        by_cases hsame : source = file
        · rw [hsame, hd.shape] at hsource
          cases hsource
          rw [hsame, Function.update_self]
          exact ⟨_, rfl, hspliced⟩
        · rw [Function.update_of_ne hsame]
          exact ⟨content, hsource, rfl⟩
      obtain ⟨w, after, copied, hrun, hsub, hl, hlen⟩ := ih hsource' (hlen' ▸ hlt)
        (fun d hd => hlen' ▸ hcandidate d hd) (fun c hc => hspliced ▸ hrest c hc) (hd.holds hlu)
      refine ⟨w, after, chunk.range :: copied, ?_, hsub.cons_cons _, ?_, hlen.trans hspliced⟩
      · rw [hstep, run_bind_ok hrun]
        rfl
      · rw [hlu.1, hlu.2, Function.update_idem] at hl
        exact hl

/-! ## Copying and crediting -/

/-- No chunk is empty. -/
theorem Hello.Bounded.start_lt_stop {hello : Hello} (h : hello.Bounded) {i : Nat} (hi : i < hello.chunks) :
    hello.chunkLayout.start i < hello.chunkLayout.stop i := by
  have hstart := h.offset_lt hi
  have hpos := h.payloadBytes_pos
  show i * hello.payloadBytes < min (i * hello.payloadBytes + hello.payloadBytes) hello.size
  omega

/-- Where the copying succeeds, so does the rest: what was copied is credited. -/
theorem run_reuseFrom [Sha256] {hello : Hello} {state : ResumeState} {target : Cdc.Manifest}
    {copied : List (Nat × Nat)} {after : List UInt8} {t : FS} (hb : hello.Bounded)
    (hbitmap : BitmapFor hello.chunks state.bitmap) (hcount : state.receivedCount = bitmapCount state.bitmap)
    (hmap : state.mapPath = mapOf dest)
    (hrun : (copyChunks file source candidate target.chunks).run machine fs = (.ok copied, t))
    (hd : OnDisk pid dest file after t) (hproper : ∀ r ∈ copied, r.1 < r.2)
    (hsorted : copied.Pairwise fun a b => a.1 ≤ b.1) :
    ∃ u, (reuseFrom pid file source state target candidate hello.chunkLayout).run machine fs =
        (.ok (Reused.credit hello.chunkLayout { resume := state }
          (creditable hello.chunkLayout state.bitmap (mergeRanges [] copied) 0 hello.chunks)), u) ∧
      OnDisk pid dest file after u := by
  rw [reuseFrom, run_bind_ok hrun]
  split
  next hnone =>
    refine ⟨t, ?_, hd⟩
    have hempty : creditable hello.chunkLayout state.bitmap (mergeRanges [] copied) 0 hello.chunks = [] := by
      refine List.filter_eq_nil_iff.2 fun i _ => ?_
      rw [hnone, mergeRanges]
      simp [Holds]
    rw [hempty]
    rfl
  · have hsep := (mergeRanges_nil hproper hsorted).1
    have hle := hbitmap.count_le
    have hchunks := hb.chunks_le
    have hbytes := hb.offset_lt_two_pow (Nat.le_refl _)
    have hmax : maxChunks + maxChunks < 2 ^ 64 := by decide
    have hwords : hello.chunkLayout.chunks ≤ 64 * state.bitmap.length := by
      rw [hbitmap.length_eq, bitmapWords]
      show hello.chunks ≤ _
      omega
    have hcredit := @creditChunks_eq hello.chunkLayout hbytes (fun i => hb.start_lt_stop) _ _
        (Nat.zero_add _) _ hsep { resume := state } hwords
        (by show state.receivedCount + hello.chunks < _; omega)
        (by show 0 + hello.chunks < _; omega)
        (by show 0 + hello.chunks * hello.payloadBytes < _; omega)
    have hchecked : (checked (creditChunks hello.chunkLayout hello.chunkLayout.chunks 0
        (mergeRanges [] copied) { resume := state }) : FsProg Reused).run machine t =
          (.ok (Reused.credit hello.chunkLayout { resume := state } (creditable hello.chunkLayout
            state.bitmap (mergeRanges [] copied) 0 hello.chunks)), t) := by
      rw [hcredit]
      rfl
    rw [run_bind_ok hchecked]
    dsimp only
    split
    · obtain ⟨u, hcheckpoint, hlu⟩ := @OnDisk.checkpoint _ _ _ _ _ hd (Reused.credit hello.chunkLayout
        { resume := state } (creditable hello.chunkLayout state.bitmap (mergeRanges [] copied) 0
          hello.chunks)).resume hmap
      refine ⟨u, ?_, hd.checkpointed hlu⟩
      rw [run_bind_ok hcheckpoint]
      rfl
    · exact ⟨t, rfl, hd⟩

end

end PacketTide
