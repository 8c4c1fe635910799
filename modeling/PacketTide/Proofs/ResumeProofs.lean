import PacketTide.FileSystem.Proofs.SlotProofs
import PacketTide.Proofs.AskProofs
import PacketTide.Proofs.ReceiptMapProofs
import PacketTide.ResumeRuns

/-!
# What the resume operations leave on disk

Each operation is described by the views it may leave when it is killed and by the view that it
ends with.
-/

namespace PacketTide

open Effects FileSystem Prog Text FS ResumeState

/-! ## The artifacts of a destination -/

theorem slash_not_mem_part : 47 ∉ ascii ".part" := by decide

theorem slash_not_mem_map : 47 ∉ ascii ".part.map" := by decide

theorem slash_not_mem_temporary (pid : Nat) : 47 ∉ ascii ".tmp." ++ decimal pid := by
  have h1 : 47 ∉ ascii ".tmp." := by decide
  have h2 : 47 ∉ decimal pid := not_mem_decimal (by decide)
  rw [List.mem_append]
  exact not_or.2 ⟨h1, h2⟩

/-- The temporary map as a sibling of the destination. -/
theorem temporaryOf_mapOf (pid : Nat) (dest : Path) :
    temporaryOf pid (mapOf dest) =
      dest.appended (ascii ".part.map" ++ (ascii ".tmp." ++ decimal pid)) :=
  appended_appended slash_not_mem_map (slash_not_mem_temporary pid) dest

section Places

variable {pid : Nat} {home : Loc} {dest : Path}

/-! The destination and its artifacts lie at different places. -/

theorem part_ne_map (h : dest.names ≠ []) :
    home ++ (partOf dest).names ≠ home ++ (mapOf dest).names :=
  appended_ne h slash_not_mem_part slash_not_mem_map (by decide)

theorem temporary_ne_map (h : dest.names ≠ []) :
    home ++ (temporaryOf pid (mapOf dest)).names ≠ home ++ (mapOf dest).names := by
  have hne : ascii ".tmp." ++ decimal pid ≠ [] := by
    intro he
    have := (List.append_eq_nil_iff.1 he).1
    revert this
    decide
  have h' : home ++ (temporaryOf pid (mapOf dest)).names ≠ home ++ ((mapOf dest).appended []).names :=
    appended_ne (Path.appended_names_ne h _) (slash_not_mem_temporary pid) (by simp) hne
  rwa [appended_nil] at h'

theorem temporary_ne_part (h : dest.names ≠ []) :
    home ++ (temporaryOf pid (mapOf dest)).names ≠ home ++ (partOf dest).names := by
  rw [temporaryOf_mapOf]
  refine appended_ne h ?_ slash_not_mem_part ?_
  · have h1 := slash_not_mem_map
    have h2 := slash_not_mem_temporary pid
    rw [List.mem_append]
    exact not_or.2 ⟨h1, h2⟩
  · intro he
    have hlen := congrArg List.length he
    have hmap : (ascii ".part.map").length = 9 := by decide
    have hpart : (ascii ".part").length = 5 := by decide
    rw [List.length_append, hmap, hpart] at hlen
    omega

theorem dest_ne_part (h : dest.names ≠ []) :
    home ++ (partOf dest).names ≠ home ++ dest.names := by
  have h' : home ++ (partOf dest).names ≠ home ++ (dest.appended []).names :=
    appended_ne h slash_not_mem_part (by simp) (by decide)
  rwa [appended_nil] at h'

theorem dest_ne_temporary (h : dest.names ≠ []) :
    home ++ (temporaryOf pid (mapOf dest)).names ≠ home ++ dest.names := by
  have h1 := slash_not_mem_map
  have h2 := slash_not_mem_temporary pid
  have hslash : 47 ∉ ascii ".part.map" ++ (ascii ".tmp." ++ decimal pid) := by
    rw [List.mem_append]
    exact not_or.2 ⟨h1, h2⟩
  have hne : ascii ".part.map" ++ (ascii ".tmp." ++ decimal pid) ≠ [] := by
    intro he
    have := (List.append_eq_nil_iff.1 he).1
    revert this
    decide
  have h' : home ++ (dest.appended (ascii ".part.map" ++ (ascii ".tmp." ++ decimal pid))).names ≠
      home ++ (dest.appended []).names :=
    appended_ne h hslash (by simp) hne
  rwa [← temporaryOf_mapOf, appended_nil] at h'

theorem dest_ne_map (h : dest.names ≠ []) :
    home ++ (mapOf dest).names ≠ home ++ dest.names := by
  have h' : home ++ (mapOf dest).names ≠ home ++ (dest.appended []).names :=
    appended_ne h slash_not_mem_map (by simp) (by decide)
  rwa [appended_nil] at h'

end Places

variable {pid : Nat} {home : Loc} {v : View} {dest : Path} {fs : FS} {id : Identity}

namespace Sited

theorem part_slot (h : Sited pid home v dest) : FileSlot home v (partOf dest) :=
  ⟨Path.appended_names_ne h.names_ne _, dirs_appended h.names_ne h.dirs, h.part⟩

theorem map_slot (h : Sited pid home v dest) : FileSlot home v (mapOf dest) :=
  ⟨Path.appended_names_ne h.names_ne _, dirs_appended h.names_ne h.dirs, h.map⟩

theorem temporary_slot (h : Sited pid home v dest) :
    FileSlot home v (temporaryOf pid (mapOf dest)) :=
  ⟨Path.appended_names_ne h.map_slot.names_ne _, dirs_appended h.map_slot.names_ne h.map_slot.dirs,
    h.temporary⟩

theorem update {q : Loc} {s : Option Shape} (h : Sited pid home v dest) (hq : v q ≠ some .dir)
    (hs : Leaf s) : Sited pid home (Function.update v q s) dest :=
  ⟨h.names_ne, dirs_update h.dirs hq, (h.part_slot.update hq hs).leaf,
    (h.map_slot.update hq hs).leaf, (h.temporary_slot.update hq hs).leaf⟩

end Sited

/-! ## Checkpoints -/

/-- Writing to a file of its own, a program leaves some bytes in it wherever it is killed. -/
theorem safe_writeAll {h : Loc} (pieces : List (List UInt8)) {b : List UInt8}
    (hl : fs.Looks home (Function.update v h (some (.file b)))) :
    Safe machine (fun t => ∃ b, t.Looks home (Function.update v h (some (.file b))))
      (writeAll h pieces)
      (fun r t => r = .ok () ∧
        t.Looks home (Function.update v h (some (.file (b ++ pieces.flatten))))) fs := by
  induction pieces generalizing b fs with
  | nil =>
    refine safe_done ⟨b, hl⟩ ⟨rfl, ?_⟩
    rwa [List.flatten_nil, List.append_nil]
  | cons piece pieces ih =>
    have hv : Function.update v h (some (.file b)) h = some (.file b) := by simp
    obtain ⟨t, ht, hlt⟩ := exec_write_file hl hv piece
    rw [Function.update_idem] at hlt
    rw [List.flatten_cons, ← List.append_assoc]
    refine safe_ask ht ⟨b, hl⟩ ?_ (ih hlt)
    intro s' hs'
    cases hs' with
    | write _ _ n =>
      obtain ⟨t', ht', hlt'⟩ := exec_write_file hl hv (piece.take n)
      rw [Function.update_idem] at hlt'
      cases ht'
      exact ⟨_, hlt'⟩

/-- The view after a checkpoint that put a map into place. -/
def checkpointed (pid : Nat) (home : Loc) (dest : Path) (content : List UInt8) (v : View) : View :=
  Function.update (Function.update v (home ++ (temporaryOf pid (mapOf dest)).names) none)
    (home ++ (mapOf dest).names) (some (.file content))

/-- The views that a checkpoint goes through: the old one, the same with a temporary map, and the
one with the new map in place. -/
def Checkpointing (pid : Nat) (home : Loc) (dest : Path) (content : List UInt8) (v w : View) :
    Prop :=
  w = v ∨
    (∃ b, w = Function.update v (home ++ (temporaryOf pid (mapOf dest)).names) (some (.file b))) ∨
    w = checkpointed pid home dest content v

theorem safe_checkpoint {state : ResumeState} (file : Loc) (hs : Sited pid home v dest)
    (hm : state.mapPath = mapOf dest) (hl : fs.Looks home v) :
    Safe machine
      (fun t => ∃ w, t.Looks home w ∧
        Checkpointing pid home dest (mapBytes state.identity state.bitmap) v w)
      (state.checkpoint pid file)
      (fun r t => r = .ok () ∧
        t.Looks home (checkpointed pid home dest (mapBytes state.identity state.bitmap) v)) fs := by
  have hslot := hs.temporary_slot
  have hne : home ++ (temporaryOf pid (mapOf dest)).names ≠ home ++ (mapOf dest).names :=
    temporary_ne_map hs.names_ne
  unfold ResumeState.checkpoint
  rw [hm]
  refine safe_ask rfl ⟨v, hl, Or.inl rfl⟩ (by nofun) ?_
  obtain ⟨t, ht, hlt⟩ := exec_create_slot hl hslot
  refine safe_ask ht ⟨v, hl, Or.inl rfl⟩ (by nofun) ?_
  refine safe_bind (fun _ t' => t'.Looks home
    (Function.update v (home ++ (temporaryOf pid (mapOf dest)).names)
      (some (.file (mapBytes state.identity state.bitmap))))) ?_ ?_
  · refine (safe_writeAll _ hlt).mono ?_ ?_
    · rintro t' ⟨b, hb⟩
      exact ⟨_, hb, Or.inr (Or.inl ⟨b, rfl⟩)⟩
    · rintro r t' _ ⟨rfl, ht'⟩
      exact ⟨by simp, fun _ _ => ht'⟩
  · rintro - t' - hlt'
    have hI : ∃ w, t'.Looks home w ∧
        Checkpointing pid home dest (mapBytes state.identity state.bitmap) v w :=
      ⟨_, hlt', Or.inr (Or.inl ⟨_, rfl⟩)⟩
    refine safe_ask rfl hI (by nofun) ?_
    have hs' := hs.update hslot.not_dir (leaf_file (mapBytes state.identity state.bitmap))
    obtain ⟨t'', ht'', hlt''⟩ := exec_rename_slot hlt' hs'.temporary_slot hs'.map_slot.names_ne
      hs'.map_slot.dirs (Function.update_self _ _ _) hs'.map_slot.not_dir hne
    rw [Function.update_idem] at hlt''
    exact safe_ask_last ht'' hI (by nofun) ⟨_, hlt'', Or.inr (Or.inr rfl)⟩ ⟨rfl, hlt''⟩

/-! ## Opening -/

/-- The bitmap to resume from: the receipts, if the partial file has the size of the object. -/
def resumeFrom (id : Identity) (map part : Option Shape) : Option Bitmap :=
  match part with
  | some (.file data) => if data.length = id.size then receiptsAt id map else none
  | _ => none

theorem safe_loadMap (hs : Sited pid home v dest) (hl : fs.Looks home v) :
    Safe machine (fun t => t = fs) (loadMap (mapOf dest) id (bitmapWords id.chunks))
      (fun r t => t = fs ∧ r = .ok (receiptsAt id (v (home ++ (mapOf dest).names)))) fs := by
  have hslot := hs.map_slot
  unfold loadMap tryOpen
  rcases hslot.leaf with hv | ⟨content, hv⟩
  · refine safe_request (exec_open_absent hl hslot hv false) rfl (by nofun) ?_
    exact safe_done rfl ⟨rfl, by simp [hv, receiptsAt]⟩
  · refine safe_request (exec_keep_slot hl hslot hv false) rfl (by nofun) ?_
    have hsmall : ¬ headerLen + bitmapWords id.chunks * 8 ≥ 2 ^ 64 := by
      have := id.chunks_lt
      unfold headerLen bitmapWords
      omega
    obtain ⟨a, ha⟩ := exec_fstat_file hl hv
    simp only [hsmall, if_false, hv, receiptsAt, receiptsIn]
    refine safe_ask ha rfl (by nofun) ?_
    by_cases hlen : content.length = headerLen + bitmapWords id.chunks * 8
    · simp only [hlen, ne_eq, not_true_eq_false, if_false, if_true]
      refine safe_ask (exec_readToEnd_file hl hv) rfl (by nofun) ?_
      exact safe_done rfl ⟨rfl, rfl⟩
    · simp only [hlen, ne_eq, not_false_eq_true, if_true, if_false]
      exact safe_done rfl ⟨rfl, rfl⟩

theorem safe_resumable (id : Identity) (hs : Sited pid home v dest) (hl : fs.Looks home v) :
    Safe machine (fun t => t = fs) (resumable dest id)
      (fun r t => t = fs ∧ r = .ok (resumeFrom id (v (home ++ (mapOf dest).names))
        (v (home ++ (partOf dest).names)))) fs := by
  unfold resumable
  refine safe_bind (fun r t => t = fs ∧ r = receiptsAt id (v (home ++ (mapOf dest).names))) ?_ ?_
  · refine (safe_loadMap hs hl).mono (fun _ h => h) ?_
    rintro r t - ⟨rfl, rfl⟩
    exact ⟨by simp, fun a ha => ⟨rfl, by simpa using ha.symm⟩⟩
  · rintro r t rfl ⟨-, rfl⟩
    cases hr : receiptsAt id (v (home ++ (mapOf dest).names)) with
    | none =>
      refine safe_done rfl ⟨rfl, ?_⟩
      unfold resumeFrom
      split <;> simp [hr]
    | some bitmap =>
      refine safe_request (exec_stat_slot hl hs.part_slot) rfl (by nofun) ?_
      rcases hs.part with hv | ⟨data, hv⟩
      · have hm : t.metadataAt (home ++ (partOf dest).names) = .error .notFound :=
          metadataAt_none (hl.view_eq ▸ hv)
        rw [hm]
        exact safe_done rfl ⟨rfl, by simp [hv, resumeFrom]⟩
      · obtain ⟨a, ha⟩ : ∃ a, t.metadataAt (home ++ (partOf dest).names) =
            .ok ⟨.file, data.length, some a⟩ := metadataAt_file (hl.view_eq ▸ hv)
        rw [ha]
        by_cases hlen : data.length = id.size
        · simp only [hlen, if_true]
          exact safe_done rfl ⟨rfl, by simp [hv, resumeFrom, hlen, hr]⟩
        · simp only [hlen, if_false]
          exact safe_done rfl ⟨rfl, by simp [hv, resumeFrom, hlen]⟩

/-- The view with the partial file of an object emptied and extended to its size. -/
def emptied (home : Loc) (dest : Path) (id : Identity) (v : View) : View :=
  Function.update v (home ++ (partOf dest).names)
    (some (.file (List.replicate id.size 0)))

theorem Sited.emptied (id : Identity) (h : Sited pid home v dest) :
    Sited pid home (PacketTide.emptied home dest id v) dest :=
  h.update h.part_slot.not_dir (leaf_file _)

theorem run_emptyPart (id : Identity) (hs : Sited pid home v dest) (hl : fs.Looks home v) :
    ∃ t, (emptyPart dest id).run machine fs = (.ok (home ++ (partOf dest).names), t) ∧
      t.Looks home (emptied home dest id v) ∧
      ∀ t', Cut machine (emptyPart dest id) fs t' →
        t'.Looks home v ∨
          t'.Looks home (Function.update v (home ++ (partOf dest).names) (some (.file []))) ∨
          t' = t := by
  have hslot := hs.part_slot
  obtain ⟨t₁, ht₁, hl₁⟩ := exec_create_slot hl hslot
  obtain ⟨t₂, ht₂, hl₂⟩ := exec_setLen_file hl₁ (Function.update_self _ _ _) id.size
  have hsafe : Safe machine
      (fun t' => t'.Looks home v ∨
        t'.Looks home (Function.update v (home ++ (partOf dest).names) (some (.file []))) ∨ t' = t₂)
      (emptyPart dest id)
      (fun r t => r = .ok (home ++ (partOf dest).names) ∧ t = t₂) fs := by
    unfold emptyPart
    refine safe_ask ht₁ (Or.inl hl) (by nofun) ?_
    refine safe_ask ht₂ (Or.inr (Or.inl hl₁)) (by nofun) ?_
    exact safe_done (Or.inr (Or.inr rfl)) ⟨rfl, rfl⟩
  refine ⟨t₂, Prod.ext hsafe.2.1 hsafe.2.2, ?_, hsafe.1⟩
  have hzeros : resize id.size [] = List.replicate id.size 0 := by simp [resize]
  rw [Function.update_idem, hzeros] at hl₂
  exact hl₂

theorem run_resumable (id : Identity) (hs : Sited pid home v dest) (hl : fs.Looks home v) :
    (resumable dest id).run machine fs = (.ok (resumeFrom id (v (home ++ (mapOf dest).names))
      (v (home ++ (partOf dest).names))), fs) := by
  obtain ⟨-, ht, hr⟩ := safe_resumable id hs hl
  exact Prod.ext hr ht

/-- The map of an object without receipts. -/
def freshMap (id : Identity) : List UInt8 :=
  mapBytes id (List.replicate (bitmapWords id.chunks) 0#64)

theorem safe_checkpoint_fresh (file : Loc) (hs : Sited pid home v dest)
    (hl : fs.Looks home (emptied home dest id v)) :
    Safe machine
      (fun t => ∃ w, t.Looks home w ∧
        Checkpointing pid home dest (freshMap id) (emptied home dest id v) w)
      ((fresh dest id).checkpoint pid file)
      (fun r t => r = .ok () ∧
        t.Looks home (checkpointed pid home dest (freshMap id) (emptied home dest id v))) fs := by
  have hm : (fresh dest id).mapPath = mapOf dest := rfl
  have hmap : mapBytes (fresh dest id).identity (fresh dest id).bitmap = freshMap id := rfl
  have h := safe_checkpoint file (hs.emptied id) hm hl
  rwa [hmap] at h

/-- How `open` may end when it runs to its end. -/
theorem run_openState (id : Identity) (hs : Sited pid home v dest) (hl : fs.Looks home v) :
    ∃ t, match resumeFrom id (v (home ++ (mapOf dest).names)) (v (home ++ (partOf dest).names)) with
      | some bitmap => t = fs ∧ (openState pid dest id).run machine fs =
          (.ok (home ++ (partOf dest).names, forObject dest id bitmap), t)
      | none => t.Looks home (checkpointed pid home dest
            (freshMap id) (emptied home dest id v)) ∧
          (openState pid dest id).run machine fs =
            (.ok (home ++ (partOf dest).names, fresh dest id), t) := by
  unfold openState
  rw [run_bind_ok (run_resumable id hs hl)]
  cases hr : resumeFrom id (v (home ++ (mapOf dest).names)) (v (home ++ (partOf dest).names)) with
  | some bitmap =>
    obtain ⟨data, hd⟩ : ∃ data, v (home ++ (partOf dest).names) = some (.file data) := by
      unfold resumeFrom at hr
      split at hr
      next data hd => exact ⟨data, hd⟩
      next => cases hr
    exact ⟨fs, rfl, run_ask_ok (exec_keep_slot hl hs.part_slot hd true)⟩
  | none =>
    obtain ⟨t₁, ht₁, hl₁, -⟩ := run_emptyPart id hs hl
    obtain ⟨-, hr₂, hl₂⟩ := safe_checkpoint_fresh (home ++ (partOf dest).names) hs hl₁
    refine ⟨_, hl₂, ?_⟩
    simp only [openFresh]
    rw [run_bind_ok ht₁, run_bind_ok (Prod.ext hr₂ rfl)]
    rfl

/-- Where a kill of `open` may fall. -/
theorem cut_openState {t : FS} (hs : Sited pid home v dest) (hl : fs.Looks home v)
    (hc : Cut machine (openState pid dest id) fs t) :
    t.Looks home v ∨
      resumeFrom id (v (home ++ (mapOf dest).names)) (v (home ++ (partOf dest).names)) = none ∧
        (t.Looks home (Function.update v (home ++ (partOf dest).names) (some (.file []))) ∨
          KilledAfterResize pid dest id fs t ∧ ∃ w, t.Looks home w ∧
            Checkpointing pid home dest (freshMap id)
              (emptied home dest id v) w) := by
  have hres := run_resumable id hs hl
  unfold openState at hc
  rcases cut_bind hc with hc | ⟨r, fs', hr, hc⟩
  · rw [(safe_resumable id hs hl).cut hc]
    exact Or.inl hl
  · rw [hres] at hr
    cases hr
    cases hr : resumeFrom id (v (home ++ (mapOf dest).names)) (v (home ++ (partOf dest).names)) with
    | some bitmap =>
      obtain ⟨data, hd⟩ : ∃ data, v (home ++ (partOf dest).names) = some (.file data) := by
        unfold resumeFrom at hr
        split at hr
        next data hd => exact ⟨data, hd⟩
        next => cases hr
      rw [hr] at hc
      rcases cut_ask (exec_keep_slot hl hs.part_slot hd true) hc with rfl | hc | hc
      · exact Or.inl hl
      · cases hc
      · rw [cut_done hc]
        exact Or.inl hl
    | none =>
      rw [hr] at hc hres
      obtain ⟨t₁, ht₁, hl₁, hcut⟩ := run_emptyPart id hs hl
      have hwindow : ∀ t, Cut machine ((fresh dest id).checkpoint pid
          (home ++ (partOf dest).names)) t₁ t → KilledAfterResize pid dest id fs t ∧
          ∃ w, t.Looks home w ∧ Checkpointing pid home dest (freshMap id)
            (emptied home dest id v) w := by
        intro t ht
        exact ⟨⟨fs, _, t₁, hres, ht₁, ht⟩, (safe_checkpoint_fresh _ hs hl₁).cut ht⟩
      simp only [openFresh] at hc
      rcases cut_bind hc with hc | ⟨file, fs₁, hr₁, hc⟩
      · rcases hcut _ hc with h | h | rfl
        · exact Or.inl h
        · exact Or.inr ⟨rfl, Or.inl h⟩
        · exact Or.inr ⟨rfl, Or.inr (hwindow _ (.here _ _))⟩
      · rw [ht₁] at hr₁
        cases hr₁
        rcases cut_bind hc with hc | ⟨u, fs₂, hr₂, hc⟩
        · exact Or.inr ⟨rfl, Or.inr (hwindow _ hc)⟩
        · rw [cut_done hc]
          have := hwindow _ (Cut.of_run _ _)
          rw [hr₂] at this
          exact Or.inr ⟨rfl, Or.inr this⟩

/-! ## Chunks -/

/-- Storing a chunk writes its bytes, or some of them when it is killed. -/
theorem safe_storeChunk {state : ResumeState} {p : Loc} {content : List UInt8} (sequence : Nat)
    (bytes : List UInt8) (hv : v p = some (.file content)) (hl : fs.Looks home v) :
    Safe machine
      (fun t => t.Looks home v ∨ state.accepts sequence bytes ∧ ∃ n, t.Looks home
        (Function.update v p (some (.file
          (splice (sequence * state.identity.payloadBytes) (bytes.take n) content)))))
      (state.storeChunk p sequence bytes)
      (fun r t =>
        if state.accepts sequence bytes then r = .ok (state.markReceived sequence) ∧ t.Looks home
          (Function.update v p (some (.file
            (splice (sequence * state.identity.payloadBytes) bytes content))))
        else r = .ok state ∧ t.Looks home v) fs := by
  unfold storeChunk
  by_cases ha : state.accepts sequence bytes
  · simp only [ha, if_true]
    obtain ⟨t, ht, hlt⟩ :=
      exec_writeAt_file hl hv (sequence * state.identity.payloadBytes) bytes
    refine safe_ask ht (Or.inl hl) ?_ ?_
    · intro s' hs'
      cases hs' with
      | writeAt _ _ _ n =>
        obtain ⟨t', ht', hlt'⟩ :=
          exec_writeAt_file hl hv (sequence * state.identity.payloadBytes) (bytes.take n)
        cases ht'
        exact Or.inr ⟨trivial, n, hlt'⟩
    · refine safe_done (Or.inr ⟨trivial, bytes.length, ?_⟩) ⟨rfl, hlt⟩
      rwa [List.take_length]
  · simp only [ha, if_false]
    exact safe_done (Or.inl hl) ⟨rfl, hl⟩

/-! ## Install and discard -/

/-- The view with the partial file moved into place. -/
def moved (home : Loc) (dest : Path) (data : List UInt8) (v : View) : View :=
  Function.update (Function.update v (home ++ (partOf dest).names) none) (home ++ dest.names)
    (some (.file data))

/-- The view without the map of a destination. -/
def unmapped (home : Loc) (dest : Path) (v : View) : View :=
  Function.update v (home ++ (mapOf dest).names) none

/-- Dropping a map that may not be there. -/
theorem exec_remove_map (hs : Sited pid home v dest) (hl : fs.Looks home v) :
    ∃ r t, FS.exec (.removeFile (mapOf dest)) fs = (r, t) ∧ (r = .ok () ∨ r = .error .notFound) ∧
      t.Looks home (unmapped home dest v) := by
  rcases hs.map with hv | ⟨b, hv⟩
  · have hsame : unmapped home dest v = v := by
      rw [unmapped, ← hv, Function.update_eq_self]
    exact ⟨_, fs, exec_remove_absent hl hs.map_slot hv, Or.inr rfl, hsame.symm ▸ hl⟩
  · obtain ⟨t, ht, hlt⟩ := exec_remove_slot hl hs.map_slot hv
    exact ⟨_, t, ht, Or.inl rfl, hlt⟩

theorem Sited.moved {data : List UInt8} (h : Sited pid home v dest)
    (hd : v (home ++ dest.names) ≠ some .dir) :
    Sited pid home (PacketTide.moved home dest data v) dest := by
  refine (h.update h.part_slot.not_dir leaf_none).update ?_ (leaf_file _)
  rwa [Function.update_of_ne (dest_ne_part h.names_ne).symm]

/-- The views that an install goes through. -/
def Installing (home : Loc) (dest : Path) (data : List UInt8) (v w : View) : Prop :=
  w = v ∨ w = moved home dest data v ∨ w = unmapped home dest (moved home dest data v)

theorem safe_install {state : ResumeState} {data : List UInt8} (hs : Sited pid home v dest)
    (hp : state.partPath = partOf dest) (hm : state.mapPath = mapOf dest)
    (hv : v (home ++ (partOf dest).names) = some (.file data))
    (hd : v (home ++ dest.names) ≠ some .dir) (hl : fs.Looks home v) :
    Safe machine (fun t => ∃ w, t.Looks home w ∧ Installing home dest data v w)
      (state.install dest)
      (fun r t => r = .ok () ∧ t.Looks home (unmapped home dest (moved home dest data v))) fs := by
  unfold install
  rw [hp, hm]
  obtain ⟨t, ht, hlt⟩ :=
    exec_rename_slot hl hs.part_slot hs.names_ne hs.dirs hv hd
      (dest_ne_part hs.names_ne)
  refine safe_ask ht ⟨v, hl, Or.inl rfl⟩ (by nofun) ?_
  obtain ⟨r, t', ht', hr, hlt'⟩ := exec_remove_map (hs.moved hd) hlt
  have hI : ∃ w, t'.Looks home w ∧ Installing home dest data v w :=
    ⟨_, hlt', Or.inr (Or.inr rfl)⟩
  refine safe_request ht' ⟨_, hlt, Or.inr (Or.inl rfl)⟩ (by nofun) ?_
  rcases hr with rfl | rfl
  · exact safe_done hI ⟨rfl, hlt'⟩
  · exact safe_done hI ⟨rfl, hlt'⟩

/-- An install onto a directory fails and changes nothing. -/
theorem safe_install_dir {state : ResumeState} {data : List UInt8} (hs : Sited pid home v dest)
    (hp : state.partPath = partOf dest)
    (hv : v (home ++ (partOf dest).names) = some (.file data))
    (hd : v (home ++ dest.names) = some .dir) (hl : fs.Looks home v) :
    Safe machine (fun t => t = fs) (state.install dest)
      (fun r t => r = .error (.io .isADirectory) ∧ t = fs) fs := by
  unfold install
  rw [hp]
  have hlen : (partOf dest).names.length = dest.names.length := length_appended _ _
  exact safe_ask_error (exec_rename_slot_dir hl hs.part_slot hs.names_ne hs.dirs hv hd hlen) rfl
    (by nofun) rfl ⟨rfl, rfl⟩

/-- Discarding leaves neither the partial file nor the map. -/
theorem safe_discard {state : ResumeState} (hs : Sited pid home v dest)
    (hp : state.partPath = partOf dest) (hm : state.mapPath = mapOf dest) (hl : fs.Looks home v) :
    Safe machine
      (fun t => t.Looks home v ∨
        t.Looks home (Function.update v (home ++ (partOf dest).names) none) ∨
        t.Looks home (unmapped home dest (Function.update v (home ++ (partOf dest).names) none)))
      state.discard
      (fun r t => r = .ok () ∧ t.Looks home
        (unmapped home dest (Function.update v (home ++ (partOf dest).names) none))) fs := by
  unfold ResumeState.discard
  rw [hp, hm]
  have hpart : ∃ r t, FS.exec (.removeFile (partOf dest)) fs = (r, t) ∧
      t.Looks home (Function.update v (home ++ (partOf dest).names) none) := by
    rcases hs.part with hv | ⟨b, hv⟩
    · refine ⟨_, fs, exec_remove_absent hl hs.part_slot hv, ?_⟩
      rwa [← hv, Function.update_eq_self]
    · obtain ⟨t, ht, hlt⟩ := exec_remove_slot hl hs.part_slot hv
      exact ⟨_, t, ht, hlt⟩
  obtain ⟨r, t, ht, hlt⟩ := hpart
  obtain ⟨r', t', ht', -, hlt'⟩ := exec_remove_map (hs.update hs.part_slot.not_dir leaf_none) hlt
  refine safe_request ht (Or.inl hl) (by nofun) ?_
  refine safe_request ht' (Or.inr (Or.inl hlt)) (by nofun) ?_
  exact safe_done (Or.inr (Or.inr hlt')) ⟨rfl, hlt'⟩

end PacketTide
