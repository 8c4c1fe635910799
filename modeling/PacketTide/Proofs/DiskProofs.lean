import PacketTide.Proofs.ResumeProofs
import PacketTide.ReceiveUdp

/-!
# The open file of a receiver

What the operations of a receiver do to its partial file: a write changes the range that it names, a
checkpoint leaves it alone, and hashing reads a range of it, however short the reads are.
-/

namespace PacketTide

open Effects FileSystem FS Prog

/-! ## Operations that stop at the first refusal -/

theorem strict_writeAll (h : Loc) (pieces : List (List UInt8)) : (writeAll h pieces).Strict refuse := by
  induction pieces with
  | nil => exact trivial
  | cons piece pieces ih => exact strict_ask.bind fun _ => ih

theorem strict_checkpoint {pid : Nat} {state : ResumeState} {file : Loc} :
    (state.checkpoint pid file).Strict refuse :=
  strict_ask.bind fun _ => strict_ask.bind fun _ => (strict_writeAll _ _).bind fun _ =>
    strict_ask.bind fun _ => strict_ask

theorem strict_openFresh {pid : Nat} {dest : Path} {id : Identity} :
    (ResumeState.openFresh pid dest id).Strict refuse :=
  (strict_ask.bind fun _ => strict_ask.bind fun _ => strict_done _).bind fun _ =>
    strict_checkpoint.bind fun _ => strict_done _

theorem strict_hashRange (file : Loc) (byteEnd n offset : Nat) (hashed : List UInt8) :
    (hashRange file byteEnd n offset hashed).Strict refuse := by
  induction n generalizing offset hashed with
  | zero => exact trivial
  | succ n ih =>
    rw [hashRange]
    exact strict_ite (strict_ask.bind fun _ => strict_ite strict_failWith (ih _ _)) trivial

theorem strict_advance {file : Loc} {layout : ChunkLayout} {s : Receiving} :
    (advanceHashFrontier file layout s).Strict refuse :=
  strict_ite strict_failWith ((strict_hashRange _ _ _ _ _).bind fun _ => strict_done _)

/-! ## The open file -/

/-- The open file holds some content, and the places beside it are in order. -/
structure OnDisk (pid : Nat) (dest : Path) (file : Loc) (content : List UInt8) (fs : FS) : Prop where
  sited : Sited pid fs.home fs.view dest
  place : file = fs.home ++ (partOf dest).names
  shape : fs.view file = some (.file content)

section

variable {pid : Nat} {dest : Path} {file : Loc} {content : List UInt8} {fs t : FS} {home : Loc}
  {v : View}

namespace OnDisk

theorem looks (h : OnDisk pid dest file content fs) (hl : t.Looks fs.home fs.view) :
    OnDisk pid dest file content t := by
  obtain ⟨hh, hv⟩ := hl
  refine ⟨?_, ?_, ?_⟩
  · rw [hh, hv]
    exact h.sited
  · rw [hh]
    exact h.place
  · rw [hv]
    exact h.shape

/-- The open file holds other content. -/
theorem holds {content' : List UInt8} (h : OnDisk pid dest file content fs)
    (hl : t.Looks fs.home (Function.update fs.view file (some (.file content')))) :
    OnDisk pid dest file content' t := by
  obtain ⟨hh, hv⟩ := hl
  refine ⟨?_, ?_, ?_⟩
  · rw [hh, hv]
    exact h.sited.update (by rw [h.shape]; simp) (Or.inr ⟨_, rfl⟩)
  · rw [hh]
    exact h.place
  · rw [hv, Function.update_self]

/-- A write changes the range that it names. -/
theorem write (h : OnDisk pid dest file content fs) (offset : Nat) (bytes : List UInt8) :
    ∃ t, FS.exec (.writeAt file offset bytes) fs = (.ok (), t) ∧
      t.Looks fs.home (Function.update fs.view file (some (.file (splice offset bytes content)))) :=
  exec_writeAt_file ⟨rfl, rfl⟩ h.shape offset bytes

theorem file_ne_dest (hd : OnDisk pid dest file content fs) : file ≠ fs.home ++ dest.names := by
  rw [hd.place]
  exact dest_ne_part hd.sited.names_ne

theorem file_ne_map (hd : OnDisk pid dest file content fs) :
    file ≠ fs.home ++ (mapOf dest).names := by
  rw [hd.place]
  exact part_ne_map hd.sited.names_ne

theorem file_ne_temporary (hd : OnDisk pid dest file content fs) :
    file ≠ fs.home ++ (temporaryOf pid (mapOf dest)).names := by
  rw [hd.place]
  exact (temporary_ne_part hd.sited.names_ne).symm

/-- A checkpoint replaces the map. -/
theorem checkpoint (h : OnDisk pid dest file content fs) {state : ResumeState}
    (hm : state.mapPath = mapOf dest) :
    ∃ t, (state.checkpoint pid file).run machine fs = (.ok (), t) ∧
      t.Looks fs.home
        (checkpointed pid fs.home dest (mapBytes state.identity state.bitmap) fs.view) := by
  obtain ⟨-, hrun, hl⟩ := safe_checkpoint file h.sited hm ⟨rfl, rfl⟩
  exact ⟨_, Prod.ext hrun rfl, hl⟩

/-- A checkpoint leaves the open file alone. -/
theorem checkpointed {bytes : List UInt8} (h : OnDisk pid dest file content fs)
    (hl : t.Looks fs.home (PacketTide.checkpointed pid fs.home dest bytes fs.view)) :
    OnDisk pid dest file content t := by
  obtain ⟨hh, hv⟩ := hl
  have htemporary : fs.view (fs.home ++ (temporaryOf pid (mapOf dest)).names) ≠ some .dir :=
    h.sited.temporary.not_dir
  have hsited := h.sited.update htemporary (Or.inl rfl)
  refine ⟨?_, ?_, ?_⟩
  · rw [hh, hv]
    exact hsited.update hsited.map.not_dir (Or.inr ⟨_, rfl⟩)
  · rw [hh]
    exact h.place
  · rw [hv, PacketTide.checkpointed, Function.update_of_ne h.file_ne_map,
      Function.update_of_ne h.file_ne_temporary]
    exact h.shape

end OnDisk

/-! ## Hashing -/

/-- A read returns some of the bytes that it asks for, and at least one that is there. -/
theorem exec_readAt_file (hl : fs.Looks home v) (hv : v file = some (.file content))
    (offset count : Nat) :
    ∃ k t, FS.exec (.readAt file offset count) fs = (.ok ((content.drop offset).take k), t) ∧
      t.Looks home v ∧ k ≤ count ∧ (0 < count → 0 < k) := by
  obtain ⟨rfl, rfl⟩ := hl
  obtain ⟨attr, hget⟩ := get_of_view_file hv
  rcases hreads : fs.reads with _ | ⟨short, reads⟩
  · refine ⟨count, fs, ?_, ⟨rfl, rfl⟩, Nat.le_refl _, fun h => h⟩
    simp only [FS.exec, hget, hreads]
  · refine ⟨min count (short + 1), { fs with reads }, ?_, ⟨rfl, rfl⟩, Nat.min_le_left _ _,
      fun h => Nat.lt_min.2 ⟨h, Nat.succ_pos short⟩⟩
    simp only [FS.exec, hget, hreads]

/-- Hashing reads the whole range. -/
theorem run_hashRange (hl : fs.Looks home v) (hv : v file = some (.file content)) {byteEnd n : Nat}
    (hend : byteEnd ≤ content.length) {offset : Nat} (hn : byteEnd - offset ≤ n)
    (hashed : List UInt8) :
    ∃ t, (hashRange file byteEnd n offset hashed).run machine fs =
        (.ok (hashed ++ (content.drop offset).take (byteEnd - offset)), t) ∧ t.Looks home v := by
  induction n generalizing fs offset hashed with
  | zero =>
    have hzero : byteEnd - offset = 0 := Nat.le_zero.1 hn
    refine ⟨fs, ?_, hl⟩
    rw [hzero, List.take_zero, List.append_nil]
    rfl
  | succ n ih =>
    by_cases hlt : offset < byteEnd
    · obtain ⟨k, t, hread, ht, hk, hpos⟩ :=
        exec_readAt_file hl hv offset (min (byteEnd - offset) hashBufferLen)
      have hkpos : 0 < k := hpos (Nat.lt_min.2 ⟨Nat.sub_pos_of_lt hlt, by decide⟩)
      have hkle : k ≤ byteEnd - offset := Nat.le_trans hk (Nat.min_le_left _ _)
      have hlen : ((content.drop offset).take k).length = k := by
        rw [List.length_take, List.length_drop]
        omega
      have hne : (content.drop offset).take k ≠ [] := by
        intro hnil
        rw [hnil] at hlen
        exact Nat.ne_of_gt hkpos hlen.symm
      have hsplit : byteEnd - offset = k + (byteEnd - (offset + k)) := by omega
      have hrest : byteEnd - (offset + k) ≤ n := by omega
      obtain ⟨u, hu, hlu⟩ := ih ht hrest (hashed ++ (content.drop offset).take k)
      refine ⟨u, ?_, hlu⟩
      rw [hashRange, if_pos hlt, run_ask_ok hread, if_neg hne, hlen, hu, hsplit, List.take_add,
        List.drop_drop, List.append_assoc]
    · have hzero : byteEnd - offset = 0 := by omega
      refine ⟨fs, ?_, hl⟩
      rw [hashRange, if_neg hlt, hzero, List.take_zero, List.append_nil]
      rfl

end

end PacketTide
