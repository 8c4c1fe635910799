import PacketTide.Proofs.DatagramProofs
import PacketTide.Proofs.ReadingProofs
import PacketTide.Proofs.ScanProofs
import PacketTide.ReceiveRuns

/-!
# Content reuse keeps the receiver consistent

The ranges that are copied lie inside the object, and a chunk that is credited was missing before.
-/

namespace PacketTide

open Effects FileSystem FS Prog Text

/-! ## The manifest -/

/-- The chunks of a manifest that has been read lie inside the object. -/
theorem readReuseManifest_within [Sha256] {size count : Nat} {hash : Hash} {payloads : List Str}
    {m : Cdc.Manifest} (h : Cdc.readReuseManifest size count hash payloads = .ok m) :
    ∀ c ∈ m.chunks, c.offset + c.length ≤ size := fun c hc =>
  ((Cdc.laid_of_readReuseManifest h).within c hc).2.2

/-! ## Credit -/

/-- The chunks that have been credited to a resume state. -/
structure Credited (layout : ChunkLayout) (state : ResumeState) (reused : Reused) : Prop where
  partPath : reused.resume.partPath = state.partPath
  mapPath : reused.resume.mapPath = state.mapPath
  identity : reused.resume.identity = state.identity
  bitmap : BitmapFor layout.chunks reused.resume.bitmap
  count : reused.resume.receivedCount = bitmapCount reused.resume.bitmap
  chunks_le : reused.chunks ≤ reused.resume.receivedCount
  bytes_le : reused.bytes ≤ reused.chunks * layout.payloadBytes
  unchanged : reused.chunks = 0 → reused.resume = state

theorem saturatingAdd_of_lt {a b : Nat} (h : a + b < 2 ^ 64) : saturatingAdd a b = a + b :=
  Nat.min_eq_left (Nat.le_sub_one_of_lt h)

theorem creditChunks_ok {layout : ChunkLayout} {state : ResumeState}
    (hbound : layout.chunks * layout.payloadBytes < 2 ^ 64) (hchunks : layout.chunks < 2 ^ 64)
    {n sequence : Nat} (hn : sequence + n = layout.chunks) {ranges : List (Nat × Nat)}
    {reused reused' : Reused} (hc : Credited layout state reused)
    (h : creditChunks layout n sequence ranges reused = .ok reused') :
    Credited layout state reused' := by
  induction n generalizing sequence ranges reused with
  | zero =>
    cases h
    exact hc
  | succ n ih =>
    rw [creditChunks] at h
    rcases hbit : bitmapContains reused.resume.bitmap sequence with _ | _
    · rw [if_neg (by rw [hbit]; decide)] at h
      obtain ⟨_, -, h⟩ := except_bind_ok h
      obtain ⟨_, -, h⟩ := except_bind_ok h
      dsimp only at h
      split at h
      · refine ih (by omega) ?_ h
        have hsequence : sequence < layout.chunks := by omega
        have hcount := bitmapCount_bitmapInsert (hc.bitmap.place_lt hsequence) hbit
        have hinsert := hc.bitmap.insert hsequence
        have hle := hinsert.count_le
        rw [hcount, ← hc.count] at hle
        have hfits : reused.chunks + 1 ≤ layout.chunks :=
          Nat.le_trans (Nat.succ_le_succ hc.chunks_le) hle
        have hmul : (reused.chunks + 1) * layout.payloadBytes ≤
            layout.chunks * layout.payloadBytes := Nat.mul_le_mul_right _ hfits
        have hstop : reused.bytes + (min (sequence * layout.payloadBytes + layout.payloadBytes)
            layout.size - sequence * layout.payloadBytes) ≤
              (reused.chunks + 1) * layout.payloadBytes := by
          have hbytes := hc.bytes_le
          rw [Nat.succ_mul]
          omega
        have hreceived : saturatingAdd reused.resume.receivedCount 1 =
            reused.resume.receivedCount + 1 := saturatingAdd_of_lt (Nat.lt_of_le_of_lt hle hchunks)
        have hcredited : saturatingAdd reused.chunks 1 = reused.chunks + 1 :=
          saturatingAdd_of_lt (Nat.lt_of_le_of_lt hfits hchunks)
        have hbytes := saturatingAdd_of_lt
          (Nat.lt_of_le_of_lt (Nat.le_trans hstop hmul) hbound)
        rw [hreceived, hcredited, hbytes]
        refine ⟨hc.partPath, hc.mapPath, hc.identity, hinsert, ?_, Nat.succ_le_succ hc.chunks_le,
          hstop, fun hzero => nomatch hzero⟩
        rw [hcount, hc.count]
      · exact ih (by omega) hc h
    · rw [if_pos hbit] at h
      exact ih (by omega) hc h

/-! ## Copying -/

theorem only_attempt {α : Type} {P : FsCall → Prop} {p : FsProg α} (h : p.Only P) :
    (p.attempt : FsProg (Except AnyError α)).Only P := by
  induction p with
  | done r => exact trivial
  | call c next ih => exact ⟨h.1, fun r => ih r (h.2 r)⟩

theorem keeps_scanPath [Sha256] {path : Path} : (scanPath path).Only FsCall.KeepsView :=
  (only_ask ⟨rfl, rfl, rfl⟩).bind fun _ => (only_ask trivial).bind fun _ =>
    only_ite only_failWith ((only_ask trivial).bind fun _ => only_done _)

theorem keeps_isMissing {path : Path} : (isMissing path).Only FsCall.KeepsView := by
  refine (only_request trivial).bind fun r => ?_
  split
  · exact only_done _
  · exact only_done _

section

variable {pid : Nat} {dest : Path} {file source : Loc} {content : List UInt8} {fs : FS}

/-- Reading leaves the files alone. -/
theorem returns_keeps {α : Type} {p : FsProg α} (hp : p.Only FsCall.KeepsView) :
    Returns machine refuse p (fun _ t => t.Looks fs.home fs.view) fs := fun _ _ hrun =>
  looks_of_succeeds hp ⟨rfl, rfl⟩ hrun

/-- A read returns no more than it asks for. -/
theorem length_readAt {offset count : Nat} {bytes : List UInt8} {t : FS}
    (h : FS.exec (.readAt source offset count) fs = (.ok bytes, t)) :
    bytes.length ≤ count ∧ t.Looks fs.home fs.view := by
  simp only [FS.exec] at h
  split at h
  · split at h
    · cases h
      exact ⟨List.length_take_le _ _, rfl, rfl⟩
    · cases h
      exact ⟨Nat.le_trans (List.length_take_le _ _) (Nat.min_le_left _ _), rfl, rfl⟩
  · cases h

theorem returns_readExactAt {n count offset : Nat} {bytes : List UInt8} (hn : count ≤ n) :
    Returns machine refuse (readExactAt source n count offset bytes)
      (fun b t => b.length = bytes.length + count ∧ t.Looks fs.home fs.view) fs := by
  induction n generalizing count offset bytes fs with
  | zero =>
    rw [Nat.le_zero.1 hn]
    exact returns_ok ⟨rfl, rfl, rfl⟩
  | succ n ih =>
    rw [readExactAt]
    split
    next hzero =>
      rw [hzero]
      exact returns_ok ⟨rfl, rfl, rfl⟩
    next hcount =>
      refine returns_bind (returns_ask fun read t hread => ?_)
      obtain ⟨hlen, hlooks⟩ := length_readAt hread
      split
      · exact returns_error
      next hread =>
        split
        · exact returns_error
        · have hpos := List.length_pos_iff.2 hread
          have hrest : count - read.length ≤ n := by omega
          refine (ih hrest).mono fun b u hb => ⟨?_, hb.2.1.trans hlooks.1, hb.2.2.trans hlooks.2⟩
          rw [hb.1, List.length_append]
          omega

/-- Copying changes nothing but the open file, and keeps its length. -/
theorem returns_copyChunks [Sha256] {candidate : Cdc.Manifest} {chunks : List Cdc.Chunk}
    (hin : ∀ c ∈ chunks, c.offset + c.length ≤ content.length)
    (hd : OnDisk pid dest file content fs) :
    Returns machine refuse (copyChunks file source candidate chunks)
      (fun _ t => ∃ copied, copied.length = content.length ∧
        t.Looks fs.home (Function.update fs.view file (some (.file copied)))) fs := by
  have hsame : ∀ {fs : FS} {content : List UInt8}, OnDisk pid dest file content fs →
      fs.Looks fs.home (Function.update fs.view file (some (.file content))) := by
    intro fs content hd
    rw [← hd.shape, Function.update_eq_self]
    exact ⟨rfl, rfl⟩
  induction chunks generalizing content fs with
  | nil => exact returns_ok ⟨content, rfl, hsame hd⟩
  | cons chunk chunks ih =>
    obtain ⟨hchunk, hrest⟩ := List.forall_mem_cons.1 hin
    rw [copyChunks]
    split
    · exact ih hrest hd
    next sourceOffset _ =>
      refine returns_bind ((returns_readExactAt (Nat.le_refl _)).mono fun bytes t h => ?_)
      obtain ⟨hlen, hlooks⟩ := h
      have hd' := hd.looks hlooks
      rw [List.length_nil, Nat.zero_add] at hlen
      split
      · refine (ih hrest hd').mono fun copied x h => ?_
        obtain ⟨final, hfinal, hx⟩ := h
        rw [hlooks.1, hlooks.2] at hx
        exact ⟨final, hfinal, hx⟩
      · obtain ⟨u, hwrite, hl⟩ := hd'.write chunk.offset bytes
        have hu := hd'.holds hl
        have hsplice : (splice chunk.offset bytes content).length = content.length :=
          length_splice (by rw [hlen]; exact hchunk)
        refine returns_bind (returns_ask fun _ w hexec => ?_)
        rw [hwrite] at hexec
        cases hexec
        rw [← hsplice] at hrest
        refine returns_bind ((ih hrest hu).mono fun copied x h => returns_ok ?_)
        obtain ⟨final, hfinal, hx⟩ := h
        rw [hl.1, hl.2, hlooks.1, hlooks.2, Function.update_idem] at hx
        exact ⟨final, hfinal.trans hsplice, hx⟩

end

/-- The state of a receiver before its loop. -/
structure Opened (r : UdpReceiver) (file : Loc) (reused : Reused) (fs : FS) : Prop where
  partPath : reused.resume.partPath = partOf r.destination
  mapPath : reused.resume.mapPath = mapOf r.destination
  identity : reused.resume.identity = r.identity
  bitmap : BitmapFor r.hello.chunks reused.resume.bitmap
  count : reused.resume.receivedCount = bitmapCount reused.resume.bitmap
  chunks_le : reused.chunks ≤ reused.resume.receivedCount
  bytes_le : reused.bytes ≤ reused.chunks * r.hello.payloadBytes
  receipts : receiptsOnDisk r fs = some reused.resume.bitmap
  disk : ∃ content, content.length = r.hello.size ∧ OnDisk r.pid r.destination file content fs

section

variable {r : UdpReceiver} {file : Loc} {fs : FS} {state : ResumeState}

theorem Opened.disk_of {reused : Reused} {t : FS} {content : List UInt8} (h : Opened r file reused fs)
    (hlen : content.length = r.hello.size)
    (hl : t.Looks fs.home (Function.update fs.view file (some (.file content)))) :
    Opened r file reused t := by
  obtain ⟨old, -, hd⟩ := h.disk
  refine { h with receipts := ?_, disk := ⟨content, hlen, hd.holds hl⟩ }
  rw [receiptsOnDisk, hl.1, hl.2, Function.update_of_ne hd.file_ne_map.symm]
  exact h.receipts

theorem Opened.looks {reused : Reused} {t : FS} (h : Opened r file reused fs)
    (hl : t.Looks fs.home fs.view) : Opened r file reused t := by
  obtain ⟨content, hlen, hd⟩ := h.disk
  refine h.disk_of hlen ⟨hl.1, ?_⟩
  rw [← hd.shape, Function.update_eq_self]
  exact hl.2

/-- After a checkpoint the receipts on disk are those of the bitmap. -/
theorem receipts_checkpointed {t : FS} {state : ResumeState} (hid : state.identity = r.identity)
    (hbitmap : BitmapFor r.identity.chunks state.bitmap)
    (hl : t.Looks fs.home (checkpointed r.pid fs.home r.destination
      (mapBytes state.identity state.bitmap) fs.view)) :
    receiptsOnDisk r t = some state.bitmap := by
  rw [receiptsOnDisk, hl.1, hl.2, checkpointed, Function.update_self, hid]
  exact receiptsIn_mapBytes_self hbitmap

theorem returns_reuseFrom [Sha256] (hb : r.hello.Bounded) (hid : r.hello.identity = some r.identity)
    {source : Loc} {target candidate : Cdc.Manifest}
    (hin : ∀ c ∈ target.chunks, c.offset + c.length ≤ r.hello.size)
    (h : Opened r file { resume := state } fs) :
    Returns machine refuse (reuseFrom r.pid file source state target candidate r.hello.chunkLayout)
      (Opened r file) fs := by
  obtain ⟨content, hlen, hd⟩ := h.disk
  rw [← hlen] at hin
  refine returns_bind ((returns_copyChunks hin hd).mono fun ranges t hcopied => ?_)
  obtain ⟨copied, hcopiedLen, hl⟩ := hcopied
  rw [hlen] at hcopiedLen
  have ht := h.disk_of hcopiedLen hl
  split
  · exact returns_ok ht
  · refine returns_bind fun out u hrun => ?_
    replace hrun := (strict_done _).run_of_succeeds hrun
    rcases hcredit : (creditChunks r.hello.chunkLayout r.hello.chunkLayout.chunks 0
      (mergeRanges [] ranges) { resume := state }) with e | reused
    · rw [hcredit] at hrun
      cases hrun
    rw [hcredit] at hrun
    cases hrun
    have hcredited : Credited r.hello.chunkLayout state out :=
      creditChunks_ok (hb.offset_lt_two_pow (Nat.le_refl _)) hb.chunks_lt (Nat.zero_add _)
        ⟨rfl, rfl, rfl, h.bitmap, h.count, Nat.zero_le _, Nat.zero_le _, fun _ => rfl⟩ hcredit
    have hmap : out.resume.mapPath = mapOf r.destination := hcredited.mapPath.trans h.mapPath
    have hidentity : out.resume.identity = r.identity := hcredited.identity.trans h.identity
    have hopened : ∀ w, OnDisk r.pid r.destination file copied w →
        receiptsOnDisk r w = some out.resume.bitmap → Opened r file out w := fun w hw hreceipts =>
      ⟨hcredited.partPath.trans h.partPath, hmap, hidentity, hcredited.bitmap, hcredited.count,
        hcredited.chunks_le, hcredited.bytes_le, hreceipts, copied, hcopiedLen, hw⟩
    have hdt := hd.holds hl
    dsimp only
    split
    · obtain ⟨w, hcheckpoint, hlw⟩ := hdt.checkpoint hmap
      refine returns_bind (strict_checkpoint.returns hcheckpoint (returns_ok ?_))
      refine hopened w (hdt.checkpointed hlw) (receipts_checkpointed hidentity ?_ hlw)
      rw [(identity_fields hid).2.1]
      exact hcredited.bitmap
    next hnone =>
      refine returns_ok (hopened t hdt ?_)
      rw [hcredited.unchanged (by omega)]
      exact ht.receipts

theorem returns_applyReusableContent [Sha256] (hb : r.hello.Bounded)
    (hid : r.hello.identity = some r.identity) {candidatePath : Path}
    {target : Cdc.Manifest} (hin : ∀ c ∈ target.chunks, c.offset + c.length ≤ r.hello.size)
    (h : Opened r file { resume := state } fs) :
    Returns machine refuse
      (applyReusableContent r.pid file state target candidatePath r.hello.chunkLayout)
      (Opened r file) fs := by
  refine returns_bind ((returns_keeps (only_attempt keeps_scanPath)).mono fun result t hl => ?_)
  have ht := h.looks hl
  rcases result with e | candidate
  · refine returns_bind ((returns_keeps keeps_isMissing).mono fun missing u hl => ?_)
    split
    · exact returns_ok (ht.looks hl)
    · exact returns_error
  · have hopen : (ask (.openFile candidatePath { nofollow := true })).Only FsCall.KeepsView :=
      only_ask ⟨rfl, rfl, rfl⟩
    refine returns_bind ((returns_keeps hopen).mono fun source u hl => ?_)
    exact returns_reuseFrom hb hid hin (ht.looks hl)

end

end PacketTide
