import PacketTide.Proofs.TurnProofs
import PacketTide.ReceiveRuns

/-!
# Every moment of a turn

Wherever a turn of the loop is killed, and whichever of its calls are refused, what has been hashed is
at the beginning of the partial file, and the destination is as it was or holds the object.
-/

namespace PacketTide

open Effects FileSystem FS Prog Text ResumeState

section

variable {pid : Nat} {dest : Path} {file : Loc} {content hashed : List UInt8} {fs t : FS}

/-! ## Operations on files -/

/-- The open file begins with what has been hashed. -/
theorem OnDisk.steady (hd : OnDisk pid dest file content fs) (hp : hashed <+: content) :
    Steady dest file hashed fs fs := by
  refine ⟨rfl, rfl, fun c hc => ?_⟩
  rw [hd.shape] at hc
  cases hc
  exact hp

theorem Steady.trans {u : FS} {longer : List UInt8} (h : Steady dest file hashed fs t)
    (hp : hashed <+: longer) (h' : Steady dest file longer t u) : Steady dest file hashed fs u := by
  refine ⟨h'.home.trans h.home, ?_, fun c hc => hp.trans (h'.begins c hc)⟩
  have hdest := h'.destination
  rw [h.home] at hdest
  exact hdest.trans h.destination

/-- A change of the view outside the open file and the destination. -/
theorem OnDisk.steady_update {w : View} (hd : OnDisk pid dest file content fs) (hp : hashed <+: content)
    (hl : t.Looks fs.home w) (hfile : w file = fs.view file)
    (hdest : w (fs.home ++ dest.names) = fs.view (fs.home ++ dest.names)) :
    Steady dest file hashed fs t := by
  obtain ⟨hh, rfl⟩ := hl
  refine ⟨hh, hdest, fun c hc => ?_⟩
  rw [hfile, hd.shape] at hc
  cases hc
  exact hp

theorem throughout_checkpoint {state : ResumeState} (hd : OnDisk pid dest file content fs)
    (hp : hashed <+: content) (hm : state.mapPath = mapOf dest) :
    Throughout machine refuse (Steady dest file hashed fs) (state.checkpoint pid file) fs := by
  refine strict_checkpoint.throughout fun t hc => ?_
  obtain ⟨hsafe, -⟩ := safe_checkpoint file hd.sited hm ⟨rfl, rfl⟩
  have hne := hd.sited.names_ne
  have hmap := (@dest_ne_map fs.home _ hne).symm
  have htemporary := (@dest_ne_temporary pid fs.home _ hne).symm
  obtain ⟨w, hl, rfl | ⟨b, rfl⟩ | rfl⟩ := hsafe t hc
  · exact hd.steady_update hp hl rfl rfl
  · refine hd.steady_update hp hl ?_ ?_
    · rw [Function.update_of_ne hd.file_ne_temporary]
    · rw [Function.update_of_ne htemporary]
  · refine hd.steady_update hp hl ?_ ?_
    · rw [checkpointed, Function.update_of_ne hd.file_ne_map,
        Function.update_of_ne hd.file_ne_temporary]
    · rw [checkpointed, Function.update_of_ne hmap, Function.update_of_ne htemporary]

/-- A program that only reads. -/
theorem throughout_keeps {α : Type} {p : FsProg α} (hk : p.Only FsCall.KeepsView)
    (hp : p.Strict refuse) (hd : OnDisk pid dest file content fs) (hpre : hashed <+: content) :
    Throughout machine refuse (Steady dest file hashed fs) p fs := by
  refine hp.throughout fun t hc => ?_
  exact hd.steady_update hpre (looks_of_cut hk ⟨rfl, rfl⟩ hc) rfl rfl

theorem only_hashRange (file : Loc) (byteEnd n offset : Nat) (hashed : List UInt8) :
    (hashRange file byteEnd n offset hashed).Only FsCall.KeepsView := by
  induction n generalizing offset hashed with
  | zero => exact trivial
  | succ n ih =>
    rw [hashRange]
    exact only_ite ((only_ask trivial).bind fun _ => only_ite only_failWith (ih _ _)) trivial

theorem only_advance {file : Loc} {layout : ChunkLayout} {s : Receiving} :
    (advanceHashFrontier file layout s).Only FsCall.KeepsView :=
  only_ite only_failWith ((only_hashRange _ _ _ _ _).bind fun _ => only_done _)

theorem exec_rename_part (hd : OnDisk pid dest file content fs) :
    (∃ t, FS.exec (.rename (partOf dest) dest) fs = (.ok (), t) ∧
      t.Looks fs.home (moved fs.home dest content fs.view)) ∨
    FS.exec (.rename (partOf dest) dest) fs = (.error .isADirectory, fs) := by
  have hs := hd.sited
  have hv := hd.shape
  rw [hd.place] at hv
  by_cases hdir : fs.view (fs.home ++ dest.names) = some .dir
  · exact Or.inr (exec_rename_slot_dir ⟨rfl, rfl⟩ hs.part_slot hs.names_ne hs.dirs hv hdir
      (length_appended _ _))
  · exact Or.inl (exec_rename_slot ⟨rfl, rfl⟩ hs.part_slot hs.names_ne hs.dirs hv hdir
      (dest_ne_part hs.names_ne))

/-- The object is at its destination, and nothing is at the place of the partial file. -/
structure Moved (dest : Path) (file : Loc) (content : List UInt8) (fs t : FS) : Prop where
  home : t.home = fs.home
  destination : t.view (fs.home ++ dest.names) = some (.file content)
  part : t.view file = none

theorem OnDisk.moved (hd : OnDisk pid dest file content fs)
    (hl : t.Looks fs.home (moved fs.home dest content fs.view)) : Moved dest file content fs t := by
  obtain ⟨hh, hv⟩ := hl
  refine ⟨hh, ?_, ?_⟩
  · rw [hv, PacketTide.moved, Function.update_self]
  · rw [hv, PacketTide.moved, Function.update_of_ne hd.file_ne_dest, hd.place, Function.update_self]

theorem OnDisk.moved_unmapped (hd : OnDisk pid dest file content fs)
    (hl : t.Looks fs.home (unmapped fs.home dest (PacketTide.moved fs.home dest content fs.view))) :
    Moved dest file content fs t := by
  have hmap := (@dest_ne_map fs.home _ hd.sited.names_ne).symm
  obtain ⟨hh, hv⟩ := hl
  refine ⟨hh, ?_, ?_⟩
  · rw [hv, unmapped, Function.update_of_ne hmap, PacketTide.moved, Function.update_self]
  · rw [hv, unmapped, Function.update_of_ne hd.file_ne_map, PacketTide.moved,
      Function.update_of_ne hd.file_ne_dest, hd.place, Function.update_self]

/-- Installing moves the partial file in one step. -/
theorem throughout_install {state : ResumeState} (hd : OnDisk pid dest file content fs)
    (hp : state.partPath = partOf dest) (hm : state.mapPath = mapOf dest) :
    Throughout machine refuse (fun t => t = fs ∨ Moved dest file content fs t) (state.install dest) fs ∧
      Returns machine refuse (state.install dest) (fun _ t => Moved dest file content fs t) fs := by
  unfold install
  rw [hp, hm]
  rcases exec_rename_part hd with ⟨t, hexec, hl⟩ | hexec
  · have hmoved := hd.moved hl
    have hrest : ∀ {f : FsReply (.removeFile (mapOf dest)) → FsProg Unit}, (∀ r, ∃ r', f r = .done r') →
        Throughout machine refuse (Moved dest file content fs) (request (FsCall.removeFile (mapOf dest)) >>= f) t := by
      intro f hf
      refine throughout_request hmoved (fun _ htorn => by cases htorn) (fun e => ?_) fun r u hremove => ?_
      · obtain ⟨r', hr'⟩ := hf (.error e)
        rw [hr']
        exact throughout_done hmoved
      · have hu : Moved dest file content fs u := by
          have hdir : fs.view (fs.home ++ dest.names) ≠ some .dir := by
            intro hdir
            have hslot := exec_rename_slot_dir ⟨rfl, rfl⟩ hd.sited.part_slot hd.sited.names_ne
              hd.sited.dirs (by rw [← hd.place]; exact hd.shape) hdir (length_appended _ _)
            rw [hexec] at hslot
            cases hslot
          obtain ⟨r', u', hremove', -, hlu⟩ := exec_remove_map (hd.sited.moved hdir) hl
          rw [hremove] at hremove'
          cases hremove'
          exact hd.moved_unmapped hlu
        obtain ⟨r', hr'⟩ := hf r
        rw [hr']
        exact throughout_done hu
    constructor
    · refine throughout_ask (Or.inl rfl) (fun _ htorn => by cases htorn) (fun e u h => ?_) fun _ u h => ?_
      · rw [hexec] at h
        cases h
      · rw [hexec] at h
        cases h
        exact (hrest fun r => by split <;> exact ⟨_, rfl⟩).mono fun _ => Or.inr
    · refine returns_bind (returns_ask fun _ u h => ?_)
      rw [hexec] at h
      cases h
      exact (hrest fun r => by split <;> exact ⟨_, rfl⟩).returns
  · constructor
    · refine throughout_ask (Or.inl rfl) (fun _ htorn => by cases htorn) (fun e u h => ?_) fun _ u h => ?_
      · rw [hexec] at h
        cases h
        exact Or.inl rfl
      · rw [hexec] at h
        cases h
    · refine returns_bind (returns_ask fun _ u h => ?_)
      rw [hexec] at h
      cases h

/-- Discarding drops the partial file and leaves the destination alone. -/
theorem throughout_discard {state : ResumeState} (hd : OnDisk pid dest file content fs)
    (hpre : hashed <+: content) (hp : state.partPath = partOf dest) (hm : state.mapPath = mapOf dest) :
    Throughout machine refuse (Steady dest file hashed fs) state.discard fs := by
  have hs := hd.sited
  have hmap := (@dest_ne_map fs.home _ hs.names_ne).symm
  have hpart := (@dest_ne_part fs.home _ hs.names_ne).symm
  unfold ResumeState.discard
  rw [hp, hm]
  have hstart := hd.steady hpre
  -- once the partial file is gone it does not come back
  have hgone : ∀ {w : View} {t : FS}, t.Looks fs.home w → w file = none →
      w (fs.home ++ dest.names) = fs.view (fs.home ++ dest.names) →
      Steady dest file hashed fs t := by
    rintro w t ⟨hh, rfl⟩ hfile hdest
    refine ⟨hh, hdest, fun c hc => ?_⟩
    rw [hfile] at hc
    cases hc
  have hsecond : ∀ t, Sited pid fs.home t.view dest → t.home = fs.home →
      Steady dest file hashed fs t → Throughout machine refuse (Steady dest file hashed fs)
        (do let _ ← tryRemove (mapOf dest); return () : FsProg Unit) t := by
    intro t hsited hh hsteady
    refine throughout_request hsteady (fun _ htorn => by cases htorn) (fun e => throughout_done hsteady) fun r u hremove => ?_
    obtain ⟨r', u', hremove', -, hlu⟩ := exec_remove_map hsited ⟨hh, rfl⟩
    rw [hremove] at hremove'
    cases hremove'
    refine throughout_done ⟨hlu.1, ?_, fun c hc => hsteady.begins c ?_⟩
    · rw [hlu.2, unmapped, Function.update_of_ne hmap]
      exact hsteady.destination
    · rw [hlu.2, unmapped, Function.update_of_ne hd.file_ne_map] at hc
      exact hc
  refine throughout_request hstart (fun _ htorn => by cases htorn) (fun e => hsecond fs hs rfl hstart) fun r t hremove => ?_
  have hv := hd.shape
  rw [hd.place] at hv
  obtain ⟨u, hexec, hl⟩ := exec_remove_slot ⟨rfl, rfl⟩ hs.part_slot hv
  rw [hremove] at hexec
  cases hexec
  refine hsecond t ?_ hl.1 (hgone hl ?_ ?_)
  · rw [hl.2]
    exact hs.update hs.part_slot.not_dir leaf_none
  · rw [hd.place, Function.update_self]
  · rw [Function.update_of_ne hpart]

end

/-! ## The first part of a turn -/

section

variable {r : UdpReceiver} {file : Loc} {content : List UInt8} {s : Receiving} {fs : FS} {site : Site}

theorem Receiving.Sound.hashed_prefix (hs : s.Sound r content) : s.hashed <+: content := by
  rw [hs.hashed]
  exact List.take_prefix _ _

/-- What has been hashed stays when bytes are written beyond it. -/
theorem Receiving.Sound.hashed_prefix_splice (hs : s.Sound r content) {offset : Nat}
    {bytes : List UInt8} (hoffset : s.hashFrontier * r.hello.payloadBytes ≤ offset)
    (hinside : offset + bytes.length ≤ content.length) : s.hashed <+: splice offset bytes content := by
  have hkeep : ((splice offset bytes content).drop 0).take
        (min (s.hashFrontier * r.hello.payloadBytes) r.hello.size) =
      (content.drop 0).take (min (s.hashFrontier * r.hello.payloadBytes) r.hello.size) :=
    range_splice_of_disjoint hinside (Or.inl (by omega))
  rw [List.drop_zero, List.drop_zero, ← hs.hashed] at hkeep
  rw [← hkeep]
  exact List.take_prefix _ _

theorem throughout_acceptPacket {packet : Packet} (hb : r.hello.Bounded) (hs : s.Sound r content)
    (hd : OnDisk r.pid r.destination file content fs) (hsequence : packet.sequence < r.hello.chunks)
    (hlen : packet.payload.length =
      min (r.hello.size - packet.sequence * r.hello.payloadBytes) r.hello.payloadBytes) :
    Throughout machine refuse (Steady r.destination file s.hashed fs)
      (acceptPacket file r.hello.chunkLayout (s.countValid packet.repair) packet) fs := by
  have hstart := hd.steady hs.hashed_prefix
  have hinside := payload_inside hb hsequence hlen
  rw [← hs.size] at hinside
  unfold acceptPacket
  split
  next hbit =>
    have hbit : bitmapContains s.resume.bitmap packet.sequence = false := hbit
    have hoffset : s.hashFrontier * r.hello.payloadBytes ≤ packet.sequence * r.hello.payloadBytes :=
      Nat.mul_le_mul_right _ (hs.frontier_le_of_missing hbit)
    -- the file after a write that may have been cut short
    have hwritten : ∀ (bytes : List UInt8), bytes.length ≤ packet.payload.length → ∀ t,
        FS.exec (.writeAt file (packet.sequence * r.hello.payloadBytes) bytes) fs = (.ok (), t) →
          Steady r.destination file s.hashed fs t := by
      intro bytes hbytes t hexec
      obtain ⟨u, hexec', hl⟩ := exec_writeAt_file ⟨rfl, rfl⟩ hd.shape
        (packet.sequence * r.hello.payloadBytes) bytes
      rw [hexec] at hexec'
      cases hexec'
      refine ⟨hl.1, ?_, fun c hc => ?_⟩
      · rw [hl.2, Function.update_of_ne hd.file_ne_dest.symm]
      · rw [hl.2, Function.update_self] at hc
        cases hc
        exact hs.hashed_prefix_splice hoffset (by omega)
    refine throughout_ask hstart (fun t htorn => ?_) (fun e t hexec => ?_) fun _ t hexec => ?_
    · cases htorn with
      | writeAt _ _ _ n => exact hwritten (packet.payload.take n) (List.length_take_le' _ _) _ rfl
    · cases hexec
    · have hsteady := hwritten packet.payload (Nat.le_refl _) t hexec
      obtain ⟨u, hexec', hl⟩ := hd.write (packet.sequence * r.hello.payloadBytes) packet.payload
      have hu : u = t := congrArg Prod.snd (hexec'.symm.trans hexec)
      subst hu
      have hd' := hd.holds hl
      have hpre : s.hashed <+: splice (packet.sequence * r.hello.payloadBytes) packet.payload content :=
        hs.hashed_prefix_splice hoffset hinside
      have hadvance := (throughout_keeps only_advance strict_advance hd' hpre
        (p := advanceHashFrontier file r.hello.chunkLayout (s.stored packet))).mono
          fun _ => hsteady.trans (List.prefix_refl _)
      dsimp only
      split
      · exact hadvance
      · exact throughout_done hsteady
  next => exact throughout_done hstart

theorem throughout_takeSocket [Sha256] (hb : r.hello.Bounded) (hs : s.Sound r content)
    (hd : OnDisk r.pid r.destination file content fs) (socket : Except Errno (Option (List UInt8))) :
    Throughout machine refuse (Steady r.destination file s.hashed fs) (takeSocket r file s socket) fs := by
  have hstart := hd.steady hs.hashed_prefix
  rcases socket with e | _ | datagram
  · have hflush : Throughout machine refuse (Steady r.destination file s.hashed fs)
        (flushReceipts r.pid file s) fs := by
      unfold flushReceipts
      split
      · exact throughout_checkpoint hd hs.hashed_prefix hs.mapPath
      · exact throughout_done hstart
    exact throughout_bind hflush (hflush.returns.mono fun _ _ => throughout_done)
  · exact throughout_done hstart
  · unfold takeSocket receiveDatagram
    dsimp only
    split
    · exact throughout_done hstart
    next packet hcheck =>
      obtain ⟨hsequence, hlen⟩ := checkPacket_some hcheck
      have haccept := throughout_acceptPacket hb hs hd hsequence hlen
      exact throughout_bind haccept (haccept.returns.mono fun _ _ => throughout_done)

theorem throughout_flushReceipts (hs : s.Sound r content)
    (hd : OnDisk r.pid r.destination file content fs) :
    Throughout machine refuse (Steady r.destination file s.hashed fs) (flushReceipts r.pid file s) fs := by
  unfold flushReceipts
  split
  · exact throughout_checkpoint hd hs.hashed_prefix hs.mapPath
  · exact throughout_done (hd.steady hs.hashed_prefix)

/-- The answers to events leave the files alone, but for receipts that are flushed at the end. -/
theorem throughout_takeEvents (hs : s.Sound r content)
    (hd : OnDisk r.pid r.destination file content site.fs) (clock : Instant)
    (events : List ControlEvent) :
    Throughout siteMachine siteRefuse (fun t => Steady r.destination file s.hashed site.fs t.fs)
      (takeEvents r.pid file clock s events) site := by
  have hflush : Throughout siteMachine siteRefuse
      (fun t => Steady r.destination file s.hashed site.fs t.fs)
      (onFiles (flushReceipts r.pid file s)) site :=
    throughout_onFiles (throughout_flushReceipts hs hd)
  induction events generalizing s site with
  | nil => exact throughout_done (hd.steady hs.hashed_prefix)
  | cons event events ih =>
    have hstart := hd.steady hs.hashed_prefix
    cases event with
    | ended =>
      exact ih { hs with } hd
        (throughout_onFiles (throughout_flushReceipts (s := s.end clock) { hs with } hd))
    | ping =>
      refine throughout_bind (throughout_sendControl hstart) (returns_sendControl fun control _ _ => ?_)
      exact ih hs hd (throughout_onFiles (throughout_flushReceipts hs hd))
    | completeAck => exact throughout_done hstart
    | cancel reason => exact throughout_bind hflush (hflush.returns.mono fun _ _ h => throughout_done h)
    | error text => exact throughout_bind hflush (hflush.returns.mono fun _ _ h => throughout_done h)

theorem Receiving.Sound.hashed_prefix_advanced (hs : s.Sound r content) :
    s.hashed <+: (s.advanced r content).hashed := by
  have hle := (frontierFrom_spec s.resume.bitmap (r.hello.chunks - s.hashFrontier) s.hashFrontier).1
  have hmul := Nat.mul_le_mul_right r.hello.payloadBytes hle
  rw [hs.hashed]
  exact List.take_prefix_take_left (by omega)

/-- What has been hashed is kept and extended by a datagram. -/
theorem TookSocket.hashed_prefix [Sha256] {socket : Except Errno (Option (List UInt8))}
    {s' : Receiving} {content' : List UInt8} (hb : r.hello.Bounded) (hs : s.Sound r content)
    (h : TookSocket r s content socket s' content') : s.hashed <+: s'.hashed := by
  cases h with
  | none => exact List.prefix_refl _
  | datagram h =>
    cases h with
    | invalid _ => exact List.prefix_refl _
    | duplicate _ _ => exact List.prefix_refl _
    | accepted h hbit hwritten hs' =>
      obtain ⟨hsequence, hlen⟩ := checkPacket_some h
      have hstored := hs.stored hb hsequence hlen hbit
      rw [← hwritten] at hstored
      rcases hs' with rfl | rfl
      · exact List.prefix_refl _
      · exact hstored.hashed_prefix_advanced

theorem TookSocket.frontier_le [Sha256] {socket : Except Errno (Option (List UInt8))}
    {s' : Receiving} {content' : List UInt8} (h : TookSocket r s content socket s' content') :
    s.hashFrontier ≤ s'.hashFrontier := by
  cases h with
  | none => exact Nat.le_refl _
  | datagram h =>
    cases h with
    | invalid _ => exact Nat.le_refl _
    | duplicate _ _ => exact Nat.le_refl _
    | accepted _ _ _ hs' =>
      rcases hs' with rfl | rfl
      · exact Nat.le_refl _
      · exact (frontierFrom_spec _ _ _).1

theorem throughout_beginTurn [Sha256] (hb : r.hello.Bounded) (hs : s.Sound r content)
    (hd : OnDisk r.pid r.destination file content site.fs) (turn : Turn) :
    Throughout siteMachine siteRefuse (fun t => Steady r.destination file s.hashed site.fs t.fs)
      (beginTurn r file s turn) site := by
  have htake := throughout_takeSocket hb hs hd turn.socket
  refine throughout_bind (throughout_onFiles htake) (returns_onFiles ?_)
  refine (htake.returns.and (returns_takeSocket hb hs hd turn.socket)).mono fun s₁ t h => ?_
  obtain ⟨hsteady, content', htook, hl⟩ := h
  have hd' := hd.holds hl
  have hevents := @throughout_takeEvents _ _ _ _ ⟨t, site.control⟩ (htook.sound hb hs) hd'
      turn.endedClock turn.events
  exact hevents.mono fun u hu => hsteady.trans (htook.hashed_prefix hb hs) hu

/-! ## The end of a transfer -/

/-- Once all chunks are there, all of the file is hashed. -/
theorem Receiving.Sound.advanced_full (hb : r.hello.Bounded) (hs : s.Sound r content)
    (hfull : s.resume.receivedCount = r.hello.chunks) :
    (s.advanced r content).hashFrontier = r.hello.chunks ∧ (s.advanced r content).hashed = content := by
  have hfrontier := hs.frontier_le
  have hall := hs.bitmap.count_eq_chunks_iff.1 (hs.count ▸ hfull)
  obtain ⟨-, hle, -, hstop⟩ := frontierFrom_spec s.resume.bitmap (r.hello.chunks - s.hashFrontier)
    s.hashFrontier
  have hend : frontierFrom s.resume.bitmap (r.hello.chunks - s.hashFrontier) s.hashFrontier =
      r.hello.chunks := by
    by_contra hne
    have hlt : frontierFrom s.resume.bitmap (r.hello.chunks - s.hashFrontier) s.hashFrontier <
        r.hello.chunks := by
      omega
    have hmissing := hstop (by omega)
    rw [hall _ hlt] at hmissing
    cases hmissing
  refine ⟨hend, ?_⟩
  show content.take (min (frontierFrom _ _ _ * r.hello.payloadBytes) r.hello.size) = content
  rw [hend, Nat.min_eq_right hb.size_le, ← hs.size, List.take_length]

theorem Steady.undamaged [Sha256] {hashed : List UInt8} {t : FS}
    (h : Steady r.destination file hashed fs t) : Undamaged r file hashed fs t :=
  ⟨h.home, Or.inl h.destination, h.begins⟩

theorem Steady.trans_undamaged [Sha256] {hashed longer : List UInt8} {t u : FS}
    (h : Steady r.destination file hashed fs t) (hp : hashed <+: longer)
    (h' : Undamaged r file longer t u) : Undamaged r file hashed fs u := by
  refine ⟨h'.home.trans h.home, ?_, fun c hc => hp.trans (h'.begins c hc)⟩
  have hdest := h'.destination
  rw [h.home, h.destination] at hdest
  exact hdest

theorem Moved.undamaged [Sha256] {hashed : List UInt8} {t : FS}
    (hhash : hex (Sha256.digest content).bytes = r.hello.hash)
    (h : Moved r.destination file content fs t) : Undamaged r file hashed fs t := by
  refine ⟨h.home, Or.inr ⟨content, h.destination, hhash⟩, fun c hc => ?_⟩
  rw [h.part] at hc
  cases hc

/-- How the completion of an object of which all chunks are there goes. -/
structure Completing [Sha256] (r : UdpReceiver) (file : Loc) (s : Receiving) (content : List UInt8)
    (socketDrops : Option Nat) (site : Site) : Prop where
  moments : Throughout siteMachine siteRefuse
    (fun t => Undamaged r file s.hashed site.fs t.fs) (completeReceiving r file s socketDrops) site
  returns : Returns siteMachine siteRefuse (completeReceiving r file s socketDrops)
    (fun s' t => hex (Sha256.digest content).bytes = r.hello.hash ∧
      s' = (s.advanced r content).update socketDrops ∧
      t.fs.home = site.fs.home ∧
      t.fs.view (site.fs.home ++ r.destination.names) = some (.file content) ∧
      t.control.sent = site.control.sent ++
        [formatFeedbackReport s'.telemetry [], ascii "COMPLETE"]) site

theorem completing [Sha256] (hb : r.hello.Bounded) (hs : s.Sound r content)
    (hd : OnDisk r.pid r.destination file content site.fs)
    (hfull : s.resume.receivedCount = r.hello.chunks) (socketDrops : Option Nat) :
    Completing r file s content socketDrops site := by
  obtain ⟨hend, hhashed⟩ := hs.advanced_full hb hfull
  obtain ⟨u, hrun, hlu⟩ := run_advance hb hs hd
  have hu := hd.looks hlu
  have hadvance := throughout_keeps (p := advanceHashFrontier file r.hello.chunkLayout s)
    only_advance strict_advance hd hs.hashed_prefix
  have hsync : (ask (.sync file)).Only FsCall.KeepsView := only_ask trivial
  have hadvanced := hs.advanced
  have hsteady : Steady r.destination file s.hashed site.fs u :=
    hadvance u (.of_succeeds (.of_run hrun))
  -- the state after the file has been synced
  have hsynced : Returns machine refuse (ask (.sync file))
      (fun _ t => OnDisk r.pid r.destination file content t ∧
        Steady r.destination file s.hashed site.fs t) u := by
    refine ((returns_keeps hsync).and (throughout_keeps hsync strict_ask hu
      hs.hashed_prefix).returns).mono fun _ t h => ⟨hu.looks h.1, ?_⟩
    exact hsteady.trans (List.prefix_refl _) h.2
  have hgo : ¬(s.advanced r content).hashFrontier ≠ r.hello.chunks := not_not.2 hend
  constructor
  · refine throughout_bind (throughout_onFiles (hadvance.mono fun _ h => h.undamaged))
      (returns_onFiles (strict_advance.returns hrun ?_))
    rw [if_neg hgo]
    refine throughout_bind (throughout_onFiles ((throughout_keeps hsync strict_ask hu
      hs.hashed_prefix).mono fun _ h => (hsteady.trans (List.prefix_refl _) h).undamaged))
        (returns_onFiles (hsynced.mono fun _ t ht => ?_))
    obtain ⟨hdt, hst⟩ := ht
    rw [hhashed]
    split
    · refine throughout_bind (throughout_sendControl hst.undamaged)
        (returns_sendControl fun control _ _ => ?_)
      have hdiscard := @throughout_onFiles _ ⟨t, control⟩ _
          (fun u => Undamaged r file s.hashed site.fs u.fs)
          ((throughout_discard hdt hs.hashed_prefix hadvanced.partPath hadvanced.mapPath).mono
          fun _ h => (hst.trans (List.prefix_refl _) h).undamaged)
      exact throughout_bind hdiscard (hdiscard.returns.mono fun _ _ h => throughout_done h)
    next hhash =>
      have hhash := not_not.1 hhash
      obtain ⟨hmoments, hmoved⟩ := throughout_install hdt hadvanced.partPath hadvanced.mapPath
      have hafter : ∀ v, Moved r.destination file content t v → Undamaged r file s.hashed site.fs v :=
        fun v hv => hst.trans_undamaged (List.prefix_refl _) (hv.undamaged hhash)
      refine throughout_bind (throughout_onFiles (hmoments.mono fun v hv => ?_))
        (returns_onFiles (hmoved.mono fun _ v hv => ?_))
      · rcases hv with rfl | hv
        · exact hst.undamaged
        · exact hafter v hv
      · refine throughout_bind (throughout_sendControl (hafter v hv))
          (returns_sendControl fun control _ _ => ?_)
        exact throughout_bind (throughout_sendControl (hafter v hv))
          (returns_sendControl fun control _ _ => throughout_done (hafter v hv))
  · refine returns_bind (returns_onFiles (strict_advance.returns hrun ?_))
    rw [if_neg hgo]
    refine returns_bind (returns_onFiles (hsynced.mono fun _ t ht => ?_))
    obtain ⟨hdt, hst⟩ := ht
    rw [hhashed]
    split
    · exact returns_bind fun _ _ _ => returns_bind fun _ _ _ => returns_error
    next hhash =>
      obtain ⟨-, hmoved⟩ := throughout_install hdt hadvanced.partPath hadvanced.mapPath
      refine returns_bind (returns_onFiles (hmoved.mono fun _ v hv => ?_))
      refine returns_bind (returns_sendControl fun control _ hreport => ?_)
      refine returns_bind (returns_sendControl fun control' _ hcomplete => returns_ok ?_)
      refine ⟨not_not.1 hhash, rfl, hv.home.trans hst.home, ?_, ?_⟩
      · rw [← hst.home]
        exact hv.destination
      · rw [hcomplete, hreport, List.append_assoc]
        rfl

theorem throughout_receiveTurn [Sha256] (hb : r.hello.Bounded) (hs : s.Sound r content)
    (hd : OnDisk r.pid r.destination file content site.fs) (turn : Turn) :
    Throughout siteMachine siteRefuse (fun t => Undamaged r file s.hashed site.fs t.fs)
      (receiveTurn r file s turn) site := by
  have hbegin := throughout_beginTurn hb hs hd turn
  refine throughout_bind (hbegin.mono fun _ h => h.undamaged) ?_
  refine (hbegin.returns.and (returns_beginTurn hb hs hd turn)).mono fun s₂ t h => ?_
  obtain ⟨hsteady, content', hbegun⟩ := h
  obtain ⟨s₁, htook, hs₂⟩ := hbegun.took
  have hprefix : s.hashed <+: s₂.hashed := by
    rw [hs₂, (Receiving.hashed_hear _ _ _).1]
    exact htook.hashed_prefix hb hs
  split
  next hfull =>
    have hcompleting := completing hb hbegun.sound hbegun.disk hfull.2 turn.socketDrops
    have hmoments := hcompleting.moments.mono fun _ h => hsteady.trans_undamaged hprefix h
    exact throughout_bind hmoments (hmoments.returns.mono fun _ _ h => throughout_done h)
  · have hcheckpoint : Throughout machine refuse (Steady r.destination file s₂.hashed t.fs)
        (checkpointIfDue r.pid file s₂ turn) t.fs := by
      have hstart := hbegun.disk.steady hbegun.sound.hashed_prefix
      unfold checkpointIfDue
      split
      · have hmoments := throughout_checkpoint hbegun.disk hbegun.sound.hashed_prefix
          hbegun.sound.mapPath
        exact throughout_bind hmoments (hmoments.returns.mono fun _ _ => throughout_done)
      · exact throughout_done hstart
    have hundamaged := fun v hv => (hsteady.trans hprefix (hcheckpoint v hv)).undamaged
    refine throughout_bind (throughout_onFiles hundamaged)
      (returns_onFiles fun s₃ v hv => ?_)
    have hstart := hundamaged v (.of_succeeds hv)
    have hreport : Throughout siteMachine siteRefuse
        (fun w => Undamaged r file s.hashed site.fs w.fs) (reportIfDue r.hello s₃ turn)
        ⟨v, t.control⟩ := by
      unfold reportIfDue
      split
      · exact throughout_bind (throughout_sendControl hstart)
          (returns_sendControl fun control _ _ => throughout_done hstart)
      · exact throughout_done hstart
    exact throughout_bind hreport (hreport.returns.mono fun _ _ h => throughout_done h)

end

end PacketTide
