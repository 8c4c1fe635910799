import PacketTide.FileSystem.Proofs.BytesProofs
import PacketTide.Proofs.BitmapProofs
import PacketTide.Proofs.ResumeProofs

/-!
# Receipts over whole runs

The invariant has two forms. Between runs the receipts on disk are credible. While a receiver runs,
its bitmap is accurate, and the map on disk says no more than the bitmap does.
-/

namespace PacketTide

open Effects FileSystem Prog ResumeState Text

variable {written : Written} {id : Identity} {bitmap : Bitmap} {map part : Option Shape}
  {content : List UInt8} {i sequence : Nat} {bytes : List UInt8}

/-! ## The invariant -/

/-- Chunks are written with their own length. -/
def Measured (written : Written) : Prop :=
  ∀ id i bytes, written id i = some bytes → bytes.length = id.chunkLen i

/-- Each receipt on disk is for a chunk that has been written, and when the partial file has the
size of the object, the chunk is still in it. -/
def Credible (written : Written) (map part : Option Shape) : Prop :=
  ∀ id bitmap, receiptsAt id map = some bitmap → ∀ i, bitmapContains bitmap i →
    ∃ bytes, written id i = some bytes ∧
      ∀ content, part = some (.file content) → content.length = id.size →
        id.chunkOf i content = bytes

/-- The partial file has the size of the object and holds the chunks of the bitmap as they were
written, and the map on disk has no other receipts. -/
structure Accurate (written : Written) (id : Identity) (bitmap : Bitmap) (map part : Option Shape)
    (content : List UInt8) : Prop where
  part_eq : part = some (.file content)
  length_eq : content.length = id.size
  chunks : ∀ i, bitmapContains bitmap i → written id i = some (id.chunkOf i content)
  receipts : ∀ id' bitmap', receiptsAt id' map = some bitmap' →
    id' = id ∧ ∀ i, bitmapContains bitmap' i → bitmapContains bitmap i

theorem Accurate.credible (h : Accurate written id bitmap map part content) :
    Credible written map part := by
  intro id' bitmap' hr i hi
  obtain ⟨rfl, hsub⟩ := h.receipts id' bitmap' hr
  refine ⟨_, h.chunks i (hsub i hi), ?_⟩
  intro content' hc _
  rw [h.part_eq] at hc
  cases hc
  rfl

/-- Without a partial file of the right size receipts are not relied on. -/
theorem Credible.of_part (h : Credible written map part) {part' : Option Shape}
    (hp : ∀ content id bitmap i, part' = some (.file content) → receiptsAt id map = some bitmap →
      bitmapContains bitmap i → content.length = id.size → id.chunkLen i = 0)
    (hm : Measured written) : Credible written map part' := by
  intro id bitmap hr i hi
  obtain ⟨bytes, hb, -⟩ := h id bitmap hr i hi
  refine ⟨bytes, hb, ?_⟩
  intro content hc hlen
  have hzero := hp content id bitmap i hc hr hi hlen
  have hnil : bytes = [] := List.length_eq_zero_iff.1 ((hm id i bytes hb).trans hzero)
  rw [hnil, Identity.chunkOf, hzero, List.take_zero]

theorem credible_of_no_receipts
    (h : ∀ id bitmap, receiptsAt id map = some bitmap → ∀ i, bitmapContains bitmap i = false) :
    Credible written map part := by
  intro id bitmap hr i hi
  rw [h id bitmap hr i] at hi
  cases hi

/-- A map holds receipts for one object at most. -/
theorem receiptsAt_object {id' : Identity} {bitmap' : Bitmap}
    (h : receiptsAt id map = some bitmap) (h' : receiptsAt id' map = some bitmap') : id = id' := by
  unfold receiptsAt at h h'
  split at h
  next => exact receiptsIn_object h h'
  next => cases h

theorem receiptsAt_mapBytes {id' : Identity} {bitmap' : Bitmap}
    (h : receiptsAt id' (some (.file (mapBytes id bitmap))) = some bitmap') :
    id' = id ∧ bitmap' = bitmap :=
  receiptsIn_mapBytes h

/-- A fresh map holds no receipts. -/
theorem no_receipts_freshMap {id' : Identity} {bitmap' : Bitmap}
    (h : receiptsAt id' (some (.file (freshMap id))) = some bitmap') (i : Nat) :
    bitmapContains bitmap' i = false := by
  obtain ⟨-, rfl⟩ := receiptsAt_mapBytes h
  exact bitmapContains_replicate_zero _ _

/-- Resuming relies on credible receipts. -/
theorem Credible.resumed (h : Credible written map part)
    (hr : resumeFrom id map part = some bitmap) :
    ∃ content, Accurate written id bitmap map part content := by
  unfold resumeFrom at hr
  split at hr
  next content =>
    split_ifs at hr with hlen
    refine ⟨content, rfl, hlen, ?_, ?_⟩
    · intro i hi
      obtain ⟨bytes, hb, hc⟩ := h id bitmap hr i hi
      rw [hb, hc content rfl hlen]
    · intro id' bitmap' hr'
      obtain rfl := receiptsAt_object hr' hr
      rw [hr] at hr'
      cases hr'
      exact ⟨rfl, fun i hi => hi⟩
  next => cases hr

/-- An object that starts afresh has no receipts. -/
theorem accurate_fresh (written : Written) (id : Identity) :
    Accurate written id (List.replicate (bitmapWords id.chunks) 0#64)
      (some (.file (freshMap id))) (some (.file (List.replicate id.size 0)))
      (List.replicate id.size 0) := by
  refine ⟨rfl, List.length_replicate, ?_, ?_⟩
  · intro i hi
    rw [bitmapContains_replicate_zero] at hi
    cases hi
  · intro id' bitmap' hr
    obtain ⟨rfl, rfl⟩ := receiptsAt_mapBytes hr
    exact ⟨rfl, fun i hi => hi⟩

/-! ## Storing a chunk -/

theorem chunk_inside (id : Identity) (sequence : Nat) (h : id.chunkLen sequence ≠ 0) :
    sequence * id.payloadBytes + id.chunkLen sequence ≤ id.size := by
  unfold Identity.chunkLen at h ⊢
  omega

/-- Chunks do not overlap. -/
theorem chunks_disjoint (id : Identity) {i j : Nat} (h : i ≠ j) :
    i * id.payloadBytes + id.chunkLen i ≤ j * id.payloadBytes ∨
      j * id.payloadBytes + id.chunkLen j ≤ i * id.payloadBytes := by
  have hlen : ∀ k, id.chunkLen k ≤ id.payloadBytes := fun k => Nat.min_le_right _ _
  have hstep : ∀ k l, k < l → k * id.payloadBytes + id.chunkLen k ≤ l * id.payloadBytes := by
    intro k l hkl
    have hmul := Nat.mul_le_mul_right id.payloadBytes (Nat.succ_le_of_lt hkl)
    rw [Nat.succ_mul] at hmul
    have := hlen k
    omega
  rcases Nat.lt_or_gt_of_ne h with hij | hij
  · exact Or.inl (hstep i j hij)
  · exact Or.inr (hstep j i hij)

/-- Bytes written within one chunk leave the other chunks and the length alone. -/
theorem chunkOf_splice_of_ne (hlen : content.length = id.size)
    (hb : bytes.length ≤ id.chunkLen sequence) (hi : i ≠ sequence) :
    id.chunkOf i (FS.splice (sequence * id.payloadBytes) bytes content) = id.chunkOf i content := by
  by_cases hnil : bytes = []
  · rw [hnil, FS.splice_nil]
  · have hpos := List.length_pos_of_ne_nil hnil
    have hin := chunk_inside id sequence (by omega)
    refine FS.range_splice_of_disjoint (by omega) ?_
    rcases chunks_disjoint id hi with h | h
    · exact Or.inl h
    · exact Or.inr (by omega)

theorem length_splice_chunk (hlen : content.length = id.size)
    (hb : bytes.length ≤ id.chunkLen sequence) :
    (FS.splice (sequence * id.payloadBytes) bytes content).length = id.size := by
  by_cases hnil : bytes = []
  · rw [hnil, FS.splice_nil, hlen]
  · have hpos := List.length_pos_of_ne_nil hnil
    have hin := chunk_inside id sequence (by omega)
    rw [FS.length_splice (by omega), hlen]

theorem chunkOf_splice_self (hlen : content.length = id.size)
    (hb : bytes.length = id.chunkLen sequence) :
    id.chunkOf sequence (FS.splice (sequence * id.payloadBytes) bytes content) = bytes := by
  unfold Identity.chunkOf
  rw [← hb]
  by_cases hnil : bytes = []
  · rw [hnil, List.length_nil, List.take_zero]
  · have hpos := List.length_pos_of_ne_nil hnil
    have hin := chunk_inside id sequence (by omega)
    exact FS.range_splice_self (by omega)

theorem record_self (written : Written) (id : Identity) (sequence : Nat) (bytes : List UInt8) :
    written.record id sequence bytes id sequence = some bytes := by
  simp [Written.record]

theorem record_of_ne (written : Written) (id : Identity) (bytes : List UInt8) (h : i ≠ sequence) :
    written.record id sequence bytes id i = written id i := by
  simp [Written.record, h]

theorem Measured.record (h : Measured written) (hb : bytes.length = id.chunkLen sequence) :
    Measured (written.record id sequence bytes) := by
  intro id' i bytes' hw
  unfold Written.record at hw
  split_ifs at hw with hc
  · obtain ⟨rfl, rfl⟩ := hc
    cases hw
    exact hb
  · exact h id' i bytes' hw

/-- A chunk that is not in the bitmap may be written over, as far as the write comes, and may be
recorded as written or not. -/
theorem Accurate.overwrite (h : Accurate written id bitmap map part content)
    (hs : bitmapContains bitmap sequence = false) (hb : bytes.length ≤ id.chunkLen sequence)
    {written' : Written} (hw : ∀ i, i ≠ sequence → written' id i = written id i) :
    Accurate written' id bitmap map
      (some (.file (FS.splice (sequence * id.payloadBytes) bytes content)))
      (FS.splice (sequence * id.payloadBytes) bytes content) := by
  refine ⟨rfl, length_splice_chunk h.length_eq hb, ?_, h.receipts⟩
  intro i hi
  have hne : i ≠ sequence := by
    rintro rfl
    rw [hs] at hi
    cases hi
  rw [chunkOf_splice_of_ne h.length_eq hb hne, hw i hne]
  exact h.chunks i hi

/-- A chunk is stored: its bytes are written, its bit is set, and it is recorded. -/
theorem Accurate.store (h : Accurate written id bitmap map part content)
    (hs : bitmapContains bitmap sequence = false) (hb : bytes.length = id.chunkLen sequence) :
    Accurate (written.record id sequence bytes) id (bitmapInsert bitmap sequence) map
      (some (.file (FS.splice (sequence * id.payloadBytes) bytes content)))
      (FS.splice (sequence * id.payloadBytes) bytes content) := by
  have hover : Accurate (written.record id sequence bytes) id bitmap map _ _ :=
    h.overwrite hs (Nat.le_of_eq hb) fun i hi => record_of_ne written id bytes hi
  refine ⟨rfl, hover.length_eq, ?_, ?_⟩
  · intro i hi
    by_cases he : i = sequence
    · subst he
      rw [record_self, chunkOf_splice_self h.length_eq hb]
    · exact hover.chunks i (bitmapContains_of_insert hi he)
  · intro id' bitmap' hr
    obtain ⟨rfl, hsub⟩ := h.receipts id' bitmap' hr
    exact ⟨rfl, fun i hi => bitmapContains_insert_of (hsub i hi)⟩

/-! ## What the operations do to the invariant -/

variable {pid : Nat} {home : Loc} {v : View} {dest : Path} {fs t : FS} {s : Session}

/-- The invariant between runs. -/
structure Idle (home : Loc) (v : View) (dest : Path) (written : Written) : Prop where
  sited : ∀ pid, Sited pid home v dest
  measured : Measured written
  credible : Credible written (v (home ++ (mapOf dest).names)) (v (home ++ (partOf dest).names))

/-- The invariant of a running receiver. -/
structure Busy (home : Loc) (v : View) (dest : Path) (written : Written) (s : Session) : Prop where
  sited : ∀ pid, Sited pid home v dest
  measured : Measured written
  file_eq : s.file = home ++ (partOf dest).names
  partPath_eq : s.state.partPath = partOf dest
  mapPath_eq : s.state.mapPath = mapOf dest
  accurate : ∃ content, Accurate written s.state.identity s.state.bitmap
    (v (home ++ (mapOf dest).names)) (v (home ++ (partOf dest).names)) content

theorem Busy.idle (h : Busy home v dest written s) : Idle home v dest written := by
  obtain ⟨content, hc⟩ := h.accurate
  exact ⟨h.sited, h.measured, hc.credible⟩

/-- A change to a temporary map does not matter. -/
theorem Idle.temporary_changed (h : Idle home v dest written) {x : Option Shape} (hx : Leaf x) :
    Idle home (Function.update v (home ++ (temporaryOf pid (mapOf dest)).names) x) dest written := by
  have hs := h.sited pid
  refine ⟨fun pid' => (h.sited pid').update hs.temporary_slot.not_dir hx, h.measured, ?_⟩
  rw [Function.update_of_ne (temporary_ne_map hs.names_ne).symm, Function.update_of_ne (temporary_ne_part hs.names_ne).symm]
  exact h.credible

/-- A change to the partial file keeps the invariant if no receipt can be taken for the new
content. -/
theorem Idle.part_changed (h : Idle home v dest written) {x : Option Shape} (hx : Leaf x)
    (hp : ∀ content id bitmap i, x = some (.file content) →
      receiptsAt id (v (home ++ (mapOf dest).names)) = some bitmap →
      bitmapContains bitmap i → content.length = id.size → id.chunkLen i = 0) :
    Idle home (Function.update v (home ++ (partOf dest).names) x) dest written := by
  have hs := h.sited 0
  refine ⟨fun pid' => (h.sited pid').update hs.part_slot.not_dir hx, h.measured, ?_⟩
  rw [Function.update_of_ne (part_ne_map hs.names_ne).symm, Function.update_self]
  exact h.credible.of_part hp h.measured

/-- A map without receipts that are not credible may be put into place. -/
theorem Idle.map_changed (h : Idle home v dest written) {x : Option Shape} (hx : Leaf x)
    (hc : Credible written x (v (home ++ (partOf dest).names))) :
    Idle home (Function.update v (home ++ (mapOf dest).names) x) dest written := by
  have hs := h.sited 0
  refine ⟨fun pid' => (h.sited pid').update hs.map_slot.not_dir hx, h.measured, ?_⟩
  rw [Function.update_self, Function.update_of_ne (part_ne_map hs.names_ne)]
  exact hc

theorem Idle.checkpointed (h : Idle home v dest written) {content : List UInt8}
    (hc : Credible written (some (.file content)) (v (home ++ (partOf dest).names))) :
    Idle home (checkpointed pid home dest content v) dest written := by
  refine (h.temporary_changed leaf_none).map_changed (leaf_file content) ?_
  rwa [Function.update_of_ne (temporary_ne_part (h.sited pid).names_ne).symm]

/-- A checkpoint, finished or not, with a map that is credible. -/
theorem Idle.checkpointing (h : Idle home v dest written) {content : List UInt8} {w : View}
    (hc : Credible written (some (.file content)) (v (home ++ (partOf dest).names)))
    (hw : Checkpointing pid home dest content v w) : Idle home w dest written := by
  rcases hw with rfl | ⟨b, rfl⟩ | rfl
  · exact h
  · exact h.temporary_changed (leaf_file b)
  · exact h.checkpointed hc

theorem Idle.emptied (h : Idle home v dest written)
    (hstale : ∀ id' bitmap i, id'.size = id.size →
      receiptsAt id' (v (home ++ (mapOf dest).names)) = some bitmap → ¬ bitmapContains bitmap i) :
    Idle home (emptied home dest id v) dest written := by
  refine h.part_changed (leaf_file _) ?_
  intro content id' bitmap i hc hr hi hlen
  cases hc
  rw [List.length_replicate] at hlen
  exact absurd hi (hstale id' bitmap i hlen.symm hr)

theorem map_emptied (h : Sited pid home v dest) (id : Identity) :
    emptied home dest id v (home ++ (mapOf dest).names) = v (home ++ (mapOf dest).names) :=
  Function.update_of_ne (part_ne_map h.names_ne).symm _ _

theorem part_checkpointed (h : Sited pid home v dest) (content : List UInt8) :
    checkpointed pid home dest content v (home ++ (partOf dest).names) =
      v (home ++ (partOf dest).names) := by
  rw [checkpointed, Function.update_of_ne (part_ne_map h.names_ne),
    Function.update_of_ne (temporary_ne_part h.names_ne).symm]

theorem sited_checkpointed {pid' : Nat} (h' : Sited pid' home v dest) (h : Sited pid home v dest)
    (content : List UInt8) : Sited pid' home (checkpointed pid home dest content v) dest := by
  refine (h'.update h.temporary_slot.not_dir leaf_none).update ?_ (leaf_file _)
  exact (h.update h.temporary_slot.not_dir leaf_none).map_slot.not_dir

/-- Opening an object leaves an accurate bitmap. -/
theorem busy_opened (h : Idle fs.home fs.view dest written) {file : Loc} {state : ResumeState}
    (hr : (openState pid dest id).run machine fs = (.ok (file, state), t)) :
    state.identity = id ∧ Busy t.home t.view dest written ⟨pid, file, state⟩ := by
  have hs := h.sited pid
  obtain ⟨t', hopen⟩ := run_openState id hs (FS.looks_self fs)
  cases hres : resumeFrom id (fs.view (fs.home ++ (mapOf dest).names))
      (fs.view (fs.home ++ (partOf dest).names)) with
  | some bitmap =>
    rw [hres] at hopen
    obtain ⟨rfl, hopen⟩ := hopen
    rw [hopen] at hr
    cases hr
    exact ⟨rfl, h.sited, h.measured, rfl, rfl, rfl, h.credible.resumed hres⟩
  | none =>
    rw [hres] at hopen
    obtain ⟨hl, hopen⟩ := hopen
    rw [hopen] at hr
    cases hr
    obtain ⟨hh, hv⟩ := hl
    rw [hh, hv]
    refine ⟨rfl, ?_, h.measured, rfl, rfl, rfl, List.replicate id.size 0, ?_⟩
    · exact fun pid' => sited_checkpointed ((h.sited pid').emptied id) (hs.emptied id) _
    · rw [part_checkpointed (hs.emptied id), checkpointed, Function.update_self, emptied,
        Function.update_self]
      exact accurate_fresh written id

/-- A kill of `open` keeps the receipts credible when it leaves no stale receipts. -/
theorem idle_openKilled (h : Idle fs.home fs.view dest written)
    (hc : Cut machine (openState pid dest id) fs t) (hw : WithoutStaleReceipts dest pid id fs t) :
    Idle t.home t.view dest written := by
  have hs := h.sited pid
  rcases cut_openState hs (FS.looks_self fs) hc with ⟨hh, hv⟩ | ⟨-, ⟨hh, hv⟩ | ⟨hk, w, hl, hcp⟩⟩
  · rw [hh, hv]
    exact h
  · rw [hh, hv]
    refine h.part_changed (leaf_file _) ?_
    intro content id' bitmap i hcon _ _ hlen
    cases hcon
    unfold Identity.chunkLen
    rw [← hlen, List.length_nil, Nat.zero_sub, Nat.zero_min]
  · have hstale := hw hk
    obtain ⟨hh, hv⟩ := hl
    unfold StaleReceipts at hstale
    rw [hh, hv] at hstale ⊢
    have hfresh : Credible written (some (.file (freshMap id)))
        (emptied fs.home dest id fs.view (fs.home ++ (partOf dest).names)) :=
      credible_of_no_receipts fun id' bitmap' hr i => no_receipts_freshMap hr i
    rcases hcp with rfl | ⟨b, rfl⟩ | rfl
    · refine h.emptied ?_
      intro id' bitmap i hsize hr hi
      rw [map_emptied hs] at hstale
      exact hstale ⟨id', bitmap, i, hsize, hr, hi⟩
    · refine (h.emptied ?_).temporary_changed (leaf_file b)
      intro id' bitmap i hsize hr hi
      rw [Function.update_of_ne (temporary_ne_map hs.names_ne).symm, map_emptied hs] at hstale
      exact hstale ⟨id', bitmap, i, hsize, hr, hi⟩
    · refine ⟨fun pid' => sited_checkpointed ((h.sited pid').emptied id) (hs.emptied id) _,
        h.measured, ?_⟩
      rw [part_checkpointed (hs.emptied id), checkpointed, Function.update_self]
      exact hfresh

/-- Storing a chunk keeps the bitmap accurate. -/
theorem busy_stored (h : Busy fs.home fs.view dest written s) {state : ResumeState}
    (hr : (s.state.storeChunk s.file sequence bytes).run machine fs = (.ok state, t)) :
    Busy t.home t.view dest (if s.state.accepts sequence bytes then
      written.record s.state.identity sequence bytes else written) { s with state := state } := by
  obtain ⟨content, hc⟩ := h.accurate
  have hs := h.sited 0
  obtain ⟨-, hend⟩ := safe_storeChunk sequence bytes hc.part_eq (FS.looks_self fs)
  rw [h.file_eq] at hr
  rw [hr] at hend
  by_cases ha : s.state.accepts sequence bytes
  · rw [if_pos ha] at hend ⊢
    obtain ⟨hstate, hh, hv⟩ := hend
    cases hstate
    rw [hh, hv]
    obtain ⟨-, hlen, hnew⟩ := ha
    refine ⟨fun pid => (h.sited pid).update hs.part_slot.not_dir (leaf_file _),
      h.measured.record hlen, h.file_eq, h.partPath_eq, h.mapPath_eq,
      FS.splice (sequence * s.state.identity.payloadBytes) bytes content, ?_⟩
    rw [Function.update_of_ne (part_ne_map hs.names_ne).symm, Function.update_self]
    exact hc.store hnew hlen
  · rw [if_neg ha] at hend ⊢
    obtain ⟨hstate, hh, hv⟩ := hend
    cases hstate
    rw [hh, hv]
    exact ⟨h.sited, h.measured, h.file_eq, h.partPath_eq, h.mapPath_eq, content, hc⟩

/-- A kill while a chunk is stored leaves the other chunks as they were. -/
theorem idle_storeKilled (h : Busy fs.home fs.view dest written s) {written' : Written}
    (hcut : Cut machine (s.state.storeChunk s.file sequence bytes) fs t)
    (hw : written' = written ∨ s.state.accepts sequence bytes ∧
      written' = written.record s.state.identity sequence bytes) :
    Idle t.home t.view dest written' := by
  obtain ⟨content, hc⟩ := h.accurate
  have hs := h.sited 0
  rw [h.file_eq] at hcut
  have hmeasured : Measured written' := by
    rcases hw with rfl | ⟨⟨-, hlen, -⟩, rfl⟩
    · exact h.measured
    · exact h.measured.record hlen
  have hother : ∀ i, i ≠ sequence →
      written' s.state.identity i = written s.state.identity i := by
    rcases hw with rfl | ⟨-, rfl⟩
    · exact fun i _ => rfl
    · exact fun i hi => record_of_ne written _ bytes hi
  have hkept : s.state.accepts sequence bytes → ∀ n, Accurate written' s.state.identity
      s.state.bitmap (fs.view (fs.home ++ (mapOf dest).names))
      (some (.file (FS.splice (sequence * s.state.identity.payloadBytes) (bytes.take n) content)))
      (FS.splice (sequence * s.state.identity.payloadBytes) (bytes.take n) content) := by
    rintro ⟨-, hlen, hnew⟩ n
    refine hc.overwrite hnew ?_ hother
    rw [List.length_take]
    omega
  rcases (safe_storeChunk sequence bytes hc.part_eq
    (FS.looks_self fs)).cut hcut with ⟨hh, hv⟩ | ⟨ha, n, hh, hv⟩
  · rw [hh, hv]
    refine ⟨h.sited, hmeasured, ?_⟩
    rcases hw with rfl | ⟨ha, rfl⟩
    · exact hc.credible
    · have hzero := (hkept ha 0).credible
      rw [List.take_zero, FS.splice_nil, ← hc.part_eq] at hzero
      exact hzero
  · rw [hh, hv]
    refine ⟨fun pid => (h.sited pid).update hs.part_slot.not_dir (leaf_file _), hmeasured, ?_⟩
    rw [Function.update_of_ne (part_ne_map hs.names_ne).symm, Function.update_self]
    exact (hkept ha n).credible

/-- The map that a running receiver writes says what its bitmap says. -/
theorem Accurate.with_map (h : Accurate written id bitmap map part content) :
    Accurate written id bitmap (some (.file (mapBytes id bitmap))) part content := by
  refine ⟨h.part_eq, h.length_eq, h.chunks, ?_⟩
  intro id' bitmap' hr
  obtain ⟨rfl, rfl⟩ := receiptsAt_mapBytes hr
  exact ⟨rfl, fun i hi => hi⟩

theorem busy_checkpointed (h : Busy fs.home fs.view dest written s)
    (hr : (s.state.checkpoint s.pid s.file).run machine fs = (.ok (), t)) :
    Busy t.home t.view dest written s := by
  obtain ⟨content, hc⟩ := h.accurate
  have hs := h.sited s.pid
  obtain ⟨-, hend⟩ := safe_checkpoint s.file hs h.mapPath_eq (FS.looks_self fs)
  rw [hr] at hend
  obtain ⟨-, hh, hv⟩ := hend
  rw [hh, hv]
  refine ⟨fun pid => sited_checkpointed (h.sited pid) hs _, h.measured, h.file_eq, h.partPath_eq,
    h.mapPath_eq, content, ?_⟩
  rw [part_checkpointed hs, checkpointed, Function.update_self]
  exact hc.with_map

theorem idle_checkpointKilled (h : Busy fs.home fs.view dest written s)
    (hcut : Cut machine (s.state.checkpoint s.pid s.file) fs t) :
    Idle t.home t.view dest written := by
  obtain ⟨content, hc⟩ := h.accurate
  obtain ⟨w, ⟨hh, hv⟩, hw⟩ :=
    (safe_checkpoint s.file (h.sited s.pid) h.mapPath_eq (FS.looks_self fs)).cut hcut
  rw [hh, hv]
  exact h.idle.checkpointing hc.with_map.credible hw

/-- Without a partial file every receipt stays credible. -/
theorem Idle.part_removed (h : Idle home v dest written) :
    Idle home (Function.update v (home ++ (partOf dest).names) none) dest written := by
  refine h.part_changed leaf_none ?_
  intro content id bitmap i hc
  cases hc

theorem Idle.unmapped (h : Idle home v dest written) :
    Idle home (unmapped home dest v) dest written := by
  refine h.map_changed leaf_none ?_
  intro id bitmap hr
  cases hr

theorem Idle.moved (h : Idle home v dest written) {data : List UInt8}
    (hd : v (home ++ dest.names) ≠ some .dir) : Idle home (moved home dest data v) dest written := by
  have hs := h.sited 0
  have hi := h.part_removed
  refine ⟨fun pid => (h.sited pid).moved hd, h.measured, ?_⟩
  rw [PacketTide.moved, Function.update_of_ne (dest_ne_map hs.names_ne), Function.update_of_ne (dest_ne_part hs.names_ne)]
  exact hi.credible

theorem idle_installed (h : Busy fs.home fs.view dest written s)
    (hcut : Cut machine (s.state.install dest) fs t) : Idle t.home t.view dest written := by
  obtain ⟨content, hc⟩ := h.accurate
  have hs := h.sited s.pid
  by_cases hd : fs.view (fs.home ++ dest.names) = some .dir
  · rw [(safe_install_dir hs h.partPath_eq hc.part_eq hd (FS.looks_self fs)).cut hcut]
    exact h.idle
  · obtain ⟨w, ⟨hh, hv⟩, hw⟩ := (safe_install hs h.partPath_eq h.mapPath_eq hc.part_eq hd
      (FS.looks_self fs)).cut hcut
    rw [hh, hv]
    rcases hw with rfl | rfl | rfl
    · exact h.idle
    · exact h.idle.moved hd
    · exact (h.idle.moved hd).unmapped

theorem idle_discarded (h : Busy fs.home fs.view dest written s)
    (hcut : Cut machine s.state.discard fs t) : Idle t.home t.view dest written := by
  rcases (safe_discard (h.sited s.pid) h.partPath_eq h.mapPath_eq (FS.looks_self fs)).cut hcut with
    ⟨hh, hv⟩ | ⟨hh, hv⟩ | ⟨hh, hv⟩
  · rw [hh, hv]
    exact h.idle
  · rw [hh, hv]
    exact h.idle.part_removed
  · rw [hh, hv]
    exact h.idle.part_removed.unmapped

/-- The destination may be changed between runs. -/
theorem idle_destination (h : Idle fs.home fs.view dest written) (hd : OnlyDestination dest fs t) :
    Idle t.home t.view dest written := by
  obtain ⟨hh, hv⟩ := hd
  have hsibling : ∀ path : Path, path.names.length = dest.names.length →
      fs.home ++ path.names ≠ fs.home ++ dest.names →
      t.view (fs.home ++ path.names) = fs.view (fs.home ++ path.names) := by
    intro path hlen hne
    refine hv _ fun hp => hne ?_
    exact (hp.eq_of_length (by rw [List.length_append, List.length_append, hlen])).symm
  have hpart := hsibling (partOf dest) (length_appended _ _) (dest_ne_part (h.sited 0).names_ne)
  have hmap := hsibling (mapOf dest) (length_appended _ _) (dest_ne_map (h.sited 0).names_ne)
  rw [hh]
  refine ⟨fun pid => ?_, h.measured, by rw [hpart, hmap]; exact h.credible⟩
  have hs := h.sited pid
  have htemp := hsibling (temporaryOf pid (mapOf dest))
    ((length_appended _ _).trans (length_appended _ _)) (dest_ne_temporary hs.names_ne)
  refine ⟨hs.names_ne, ?_, hpart ▸ hs.part, hmap ▸ hs.map, htemp ▸ hs.temporary⟩
  intro k hk
  rw [hv, hs.dirs k hk]
  intro hp
  have := hp.length_le
  rw [List.length_append, List.length_append, List.length_take] at this
  omega

/-! ## Runs -/

/-- The invariant of the world. -/
def Valid (dest : Path) (w : World) : Prop :=
  match w.session with
  | none => Idle w.fs.home w.fs.view dest w.written
  | some s => Busy w.fs.home w.fs.view dest w.written s

theorem step_valid {w w' : World} (h : Step (WithoutStaleReceipts dest) dest w w')
    (hw : Valid dest w) : Valid dest w' := by
  cases h with
  | destination h => exact idle_destination hw h
  | opened h => exact (busy_opened hw h).2
  | openKilled h hs => exact idle_openKilled hw h hs
  | stored h => exact busy_stored hw h
  | storeKilled h hr => exact idle_storeKilled hw h hr
  | checkpointed h => exact busy_checkpointed hw h
  | checkpointKilled h => exact idle_checkpointKilled hw h
  | installed h => exact idle_installed hw h
  | discarded h => exact idle_discarded hw h

theorem clean_valid (h : Clean dest fs) : Valid dest ⟨fs, fun _ _ => none, none⟩ := by
  refine ⟨fun pid => ⟨h.names_ne, h.dirs, h.part, h.map, h.temporary pid⟩, ?_, ?_⟩
  · intro id i bytes hb
    cases hb
  · exact credible_of_no_receipts h.no_receipts

theorem reachable_valid {w : World} (h : Reachable (WithoutStaleReceipts dest) dest w) :
    Valid dest w := by
  obtain ⟨fs, hclean, hrun⟩ := h
  induction hrun with
  | refl => exact clean_valid hclean
  | tail _ hstep ih => exact step_valid hstep ih

/-- Between runs of which none was killed with stale receipts beside an extended partial file, the
next `open` trusts only chunks that are in the partial file as they were written. -/
theorem opens_truthfully {w : World} (h : Reachable (WithoutStaleReceipts dest) dest w)
    (hw : w.session = none) : OpensTruthfully dest w := by
  have hvalid := reachable_valid h
  unfold Valid at hvalid
  rw [hw] at hvalid
  intro pid id file state t hr i hi
  obtain ⟨rfl, hbusy⟩ := busy_opened hvalid hr
  obtain ⟨content, hc⟩ := hbusy.accurate
  exact ⟨content, hc.part_eq, hc.chunks i hi⟩

/-! ## A run that ends with a false receipt -/

section Example

def singleFile : Path := ⟨none, [⟨ascii "f", by decide⟩]⟩

/-- An object of one byte. -/
def singleByte (b : UInt8) : Identity :=
  ⟨1, 1, 256, Vector.replicate 32 b, Identity.one_lt, Identity.one_lt, Identity.leastPayload_lt⟩

theorem clean_empty : Clean singleFile FS.empty := by
  have hnone : ∀ path : Path, path.names ≠ [] →
      FS.empty.view (FS.empty.home ++ path.names) = none := by
    intro path hp
    obtain ⟨n, l, hn⟩ := List.exists_cons_of_ne_nil hp
    rw [hn]
    rfl
  have hnames : singleFile.names ≠ [] := by decide
  have hmap : (mapOf singleFile).names ≠ [] := Path.appended_names_ne hnames _
  refine ⟨hnames, ?_, ?_, ?_, ?_, ?_⟩
  · intro k hk
    obtain rfl : k = 0 := Nat.lt_one_iff.1 hk
    rfl
  · exact Or.inl (hnone _ (Path.appended_names_ne hnames _))
  · exact Or.inl (hnone _ hmap)
  · exact fun pid => Or.inl (hnone _ (Path.appended_names_ne hmap _))
  · intro id bitmap hr
    rw [hnone _ hmap] at hr
    cases hr

/-- The file system after the only chunk of an object has been stored and checkpointed. -/
def afterCheckpoint : FS :=
  (((fresh singleFile (singleByte 1)).markReceived 0).checkpoint 7
    (partOf singleFile).names).run machine
    (((fresh singleFile (singleByte 1)).storeChunk (partOf singleFile).names 0 [7]).run machine
      ((openState 7 singleFile (singleByte 1)).run machine FS.empty).2).2 |>.2

def checkpointedWorld : World :=
  ⟨afterCheckpoint, Written.record (fun _ _ => none) (singleByte 1) 0 [7], none⟩

theorem reachable_checkpointed (spared : Nat → Identity → FS → FS → Prop) :
    Reachable spared singleFile checkpointedWorld := by
  refine ⟨FS.empty, clean_empty, ?_⟩
  have hopen : (openState 7 singleFile (singleByte 1)).run machine FS.empty =
      (.ok ((partOf singleFile).names, fresh singleFile (singleByte 1)),
        ((openState 7 singleFile (singleByte 1)).run machine FS.empty).2) :=
    Prod.ext (by decide) rfl
  have hstore : ∀ fs, ((fresh singleFile (singleByte 1)).storeChunk (partOf singleFile).names 0
      [7]).run machine fs = (.ok ((fresh singleFile (singleByte 1)).markReceived 0),
        (((fresh singleFile (singleByte 1)).storeChunk (partOf singleFile).names 0 [7]).run
          machine fs).2) :=
    fun fs => Prod.ext rfl rfl
  refine ((Relation.ReflTransGen.single (Step.opened hopen)).tail (Step.stored (hstore _))).tail ?_
  exact Step.checkpointKilled (Cut.of_run _ _)

/-- The rule of the runs, for the run that ends with the checkpoint. -/
theorem opens_truthfully_checkpointed : OpensTruthfully singleFile checkpointedWorld :=
  opens_truthfully (reachable_checkpointed _) rfl

/-- The same after a receiver of another object of that size has been killed right after it
extended the partial file. -/
def killedWorld : World :=
  { checkpointedWorld with
    fs := (openState 8 singleFile (singleByte 2)).after machine 5 afterCheckpoint }

/-- A restart may trust a receipt for a range that was truncated away. -/
theorem not_opens_truthfully :
    ¬ ∀ dest w, Reachable AnyKill dest w → w.session = none → OpensTruthfully dest w := by
  intro h
  obtain ⟨fs, hclean, hrun⟩ := reachable_checkpointed AnyKill
  have hreach : Reachable AnyKill singleFile killedWorld :=
    ⟨fs, hclean, hrun.tail (Step.openKilled (Cut.of_after 5 _ _) trivial)⟩
  have hopen : (openState 9 singleFile (singleByte 1)).run machine killedWorld.fs =
      (.ok ((partOf singleFile).names, forObject singleFile (singleByte 1) [1#64]),
        ((openState 9 singleFile (singleByte 1)).run machine killedWorld.fs).2) :=
    Prod.ext (by decide) rfl
  obtain ⟨content, hpart, hwritten⟩ := h _ _ hreach rfl _ _ _ _ _ hopen 0 (by decide)
  have hzero : ((openState 9 singleFile (singleByte 1)).run machine killedWorld.fs).2.view
      (partOf singleFile).names = some (.file [0]) := by decide
  have hhome : ((openState 9 singleFile (singleByte 1)).run machine killedWorld.fs).2.home = [] := by
    decide
  rw [hhome, List.nil_append, hzero] at hpart
  cases hpart
  revert hwritten
  decide

end Example

end PacketTide
