import PacketTide.Effects.Proofs.ObeysProofs
import PacketTide.FileSystem.Proofs.ConfinedProofs
import PacketTide.Proofs.ReuseProofs
import PacketTide.ReceiveOn

/-!
# A receiver of an object keeps to a scope

A scope serves a destination if it has the files beside it that a receiver works on. All that a receiver of the
object makes, changes, moves or removes is in such a scope, whichever transport is used and whatever comes over it.
-/

namespace PacketTide

open Effects FileSystem Prog Text

/-- A program over files that keeps to a scope. -/
abbrev Stays {α : Type} (scope : Scope) (Q : α → Prop) (p : FsProg α) : Prop :=
  p.Obeys (FsCall.Confined scope) (FsCall.Promised scope) Q

variable {scope : Scope} {root path : Path} {α β : Type} {Q : α → Prop}

theorem stays_ask {c : FsCall} (h : c.Confined scope) :
    Stays scope (fun v => c.Promised scope (.ok v)) (ask c) := by
  refine ⟨h, fun r hr => ?_⟩
  cases r with
  | error e => exact obeys_error
  | ok v => exact obeys_ok hr

theorem stays_checked {r : Check α} : Stays scope (fun a => r = .ok a) (checked r) := by
  intro a ha
  cases r with
  | error e => cases ha
  | ok b =>
    cases ha
    rfl

/-! ## Programs that read -/

theorem stays_load : Stays scope (fun _ => True) (SecretKey.load path) := by
  refine (stays_ask (by trivial)).bind fun metadata _ => obeys_ite (fun _ => obeys_error) fun _ => ?_
  refine (stays_ask (by exact .inl ⟨rfl, rfl, rfl⟩)).bind fun file _ => (stays_ask (by trivial)).bind fun bytes _ => ?_
  split
  · exact obeys_ok trivial
  · exact obeys_error

theorem stays_hashFile [Sha256] : Stays scope (fun _ => True) (hashFile path) :=
  (stays_ask (by exact .inl ⟨rfl, rfl, rfl⟩)).bind fun _ _ => (stays_ask (by trivial)).bind fun _ _ => obeys_ok trivial

theorem stays_holdsObject [Sha256] {hello : Hello} : Stays scope (fun _ => True) (holdsObject path hello) := by
  refine (obeys_request (by trivial)).bind fun r _ => ?_
  split
  · exact obeys_ok trivial
  · refine obeys_ite (fun _ => ?_) fun _ => obeys_ok trivial
    exact (stays_ask (by exact .inl ⟨rfl, rfl, rfl⟩)).bind fun _ _ => (stays_ask (by trivial)).bind fun _ _ => obeys_ok trivial

theorem stays_readExactAt {file : Loc} (n count offset : Nat) (bytes : List UInt8) :
    Stays scope (fun _ => True) (readExactAt file n count offset bytes) := by
  induction n generalizing count offset bytes with
  | zero => exact obeys_ok trivial
  | succ n ih =>
    refine obeys_ite (fun _ => obeys_ok trivial) fun _ => (stays_ask (by trivial)).bind fun read _ => ?_
    exact obeys_ite (fun _ => obeys_error) fun _ => obeys_ite (fun _ => obeys_error) fun _ => ih _ _ _

theorem stays_scanPath [Sha256] : Stays scope (fun _ => True) (scanPath path) := by
  refine (stays_ask (by exact .inl ⟨rfl, rfl, rfl⟩)).bind fun file _ => (stays_ask (by trivial)).bind fun metadata _ => ?_
  exact obeys_ite (fun _ => obeys_error) fun _ => (stays_ask (by trivial)).bind fun _ _ => stays_checked.any

theorem stays_isMissing : Stays scope (fun _ => True) (isMissing path) := by
  refine (obeys_request (by trivial)).bind fun r _ => ?_
  split <;> exact obeys_ok trivial

theorem stays_hashRange {file : Loc} {byteEnd : Nat} (n offset : Nat) (hashed : List UInt8) :
    Stays scope (fun _ => True) (hashRange file byteEnd n offset hashed) := by
  induction n generalizing offset hashed with
  | zero => exact obeys_ok trivial
  | succ n ih =>
    refine obeys_ite (fun _ => (stays_ask (by trivial)).bind fun bytes _ => ?_) fun _ => obeys_ok trivial
    exact obeys_ite (fun _ => obeys_error) fun _ => ih _ _

theorem stays_loadMap {id : Identity} {words : Nat} : Stays scope (fun _ => True) (loadMap path id words) := by
  refine (obeys_request (by exact .inl ⟨rfl, rfl, rfl⟩)).bind fun r _ => ?_
  split
  · exact obeys_ok trivial
  · exact obeys_error
  · refine obeys_ite (fun _ => obeys_error) fun _ => (stays_ask (by trivial)).bind fun metadata _ => ?_
    exact obeys_ite (fun _ => obeys_ok trivial) fun _ => (stays_ask (by trivial)).bind fun _ _ => obeys_ok trivial

theorem stays_resumable {id : Identity} : Stays scope (fun _ => True) (ResumeState.resumable path id) := by
  refine stays_loadMap.bind fun r _ => ?_
  split
  · exact obeys_ok trivial
  · refine (obeys_request (by trivial)).bind fun r _ => ?_
    split
    · exact obeys_ite (fun _ => obeys_ok trivial) fun _ => obeys_ok trivial
    · exact obeys_ok trivial

/-! ## Scopes -/

/-- The directories above a path may be made, up to one that is there. -/
structure Climbs (scope : Scope) (path : Path) : Prop where
  parent : ∀ parent, path.parent = some parent → scope.directories parent
  next : ∀ below parent, scope.directories below → ¬scope.there below → below.parent = some parent →
    scope.directories parent

/-- A receiver may work on the files beside a destination, and make the directories above it. -/
structure Serves (scope : Scope) (pid : Nat) (dest : Path) : Prop extends Climbs scope dest where
  work : ∀ s ∈ objectSuffixes pid, scope.work (dest.appended s)
  sources : ∀ s ∈ objectSuffixes pid, scope.sources (dest.appended s)
  targets : ∀ s ∈ objectSuffixes pid, scope.targets (dest.appended s)

/-- The files of a resume state are in the scope. -/
structure ResumeState.Within (scope : Scope) (pid : Nat) (state : ResumeState) : Prop where
  part_work : scope.work state.partPath
  part_source : scope.sources state.partPath
  map_work : scope.work state.mapPath
  map_target : scope.targets state.mapPath
  temporary_work : scope.work (temporaryOf pid state.mapPath)
  temporary_source : scope.sources (temporaryOf pid state.mapPath)

variable {pid : Nat} {file : Loc} {state : ResumeState} {dest : Path} {id : Identity}

theorem part_mem (pid : Nat) : ascii ".part" ∈ objectSuffixes pid := List.mem_cons_self

theorem map_mem (pid : Nat) : ascii ".part.map" ∈ objectSuffixes pid := List.mem_cons_of_mem _ List.mem_cons_self

theorem mapTemporary_mem (pid : Nat) : ascii ".part.map" ++ (ascii ".tmp." ++ decimal pid) ∈ objectSuffixes pid :=
  List.mem_cons_of_mem _ (List.mem_cons_of_mem _ List.mem_cons_self)

theorem temporary_mem (pid : Nat) : ascii ".part." ++ decimal pid ∈ objectSuffixes pid :=
  List.mem_cons_of_mem _ (List.mem_cons_of_mem _ (List.mem_cons_of_mem _ List.mem_cons_self))

theorem within_forObject (hd : Serves scope pid dest) (bitmap : Bitmap) :
    (ResumeState.forObject dest id bitmap).Within scope pid := by
  refine ⟨hd.work _ (part_mem pid), hd.sources _ (part_mem pid), hd.work _ (map_mem pid), hd.targets _ (map_mem pid),
    ?_, ?_⟩
  · exact temporaryOf_mapOf pid dest ▸ hd.work _ (mapTemporary_mem pid)
  · exact temporaryOf_mapOf pid dest ▸ hd.sources _ (mapTemporary_mem pid)

theorem ResumeState.Within.same {other : ResumeState} (h : state.Within scope pid) (hpart : other.partPath = state.partPath)
    (hmap : other.mapPath = state.mapPath) : other.Within scope pid := by
  refine ⟨?_, ?_, ?_, ?_, ?_, ?_⟩
  · rw [hpart]
    exact h.part_work
  · rw [hpart]
    exact h.part_source
  · rw [hmap]
    exact h.map_work
  · rw [hmap]
    exact h.map_target
  · rw [hmap]
    exact h.temporary_work
  · rw [hmap]
    exact h.temporary_source

/-! ## The resume state -/

theorem stays_writeAll (hfile : scope.opened file) (pieces : List (List UInt8)) :
    Stays scope (fun _ => True) (writeAll file pieces) := by
  induction pieces with
  | nil => exact obeys_ok trivial
  | cons piece pieces ih => exact (stays_ask (by exact hfile)).bind fun _ _ => ih

theorem stays_checkpoint (hs : state.Within scope pid) :
    Stays scope (fun _ => True) (state.checkpoint pid file) := by
  refine (stays_ask (by trivial)).bind fun _ _ => ?_
  refine (stays_ask (by exact .inr hs.temporary_work)).bind fun stream hstream => ?_
  refine (stays_writeAll (hstream hs.temporary_work stream rfl) _).bind fun _ _ => ?_
  refine (stays_ask (by trivial)).bind fun _ _ => ?_
  exact (stays_ask (by exact ⟨hs.temporary_source, hs.map_target⟩)).any

theorem stays_emptyPart (hd : Serves scope pid dest) :
    Stays scope scope.opened (ResumeState.emptyPart dest id) := by
  have hpart : scope.work (partOf dest) := hd.work _ (part_mem pid)
  refine (stays_ask (by exact .inr hpart)).bind fun file hfile => ?_
  have hopened := hfile hpart file rfl
  exact (stays_ask (by exact hopened)).bind fun _ _ => obeys_ok hopened

/-- A state that has been opened works on files in the scope. -/
theorem stays_openState (hd : Serves scope pid dest) :
    Stays scope (fun opened => scope.opened opened.1 ∧ opened.2.Within scope pid) (ResumeState.openState pid dest id) := by
  have hpart : scope.work (partOf dest) := hd.work _ (part_mem pid)
  refine stays_resumable.bind fun r _ => ?_
  split
  · refine (stays_ask (by exact .inl ⟨rfl, rfl, rfl⟩)).bind fun file hfile => obeys_ok ⟨?_, within_forObject hd _⟩
    exact hfile hpart file rfl
  · refine (stays_emptyPart hd).bind fun file hfile => ?_
    exact (stays_checkpoint (within_forObject hd _)).bind fun _ _ => obeys_ok ⟨hfile, within_forObject hd _⟩

theorem stays_install (hs : state.Within scope pid) (hd : scope.targets dest) :
    Stays scope (fun _ => True) (state.install dest) := by
  refine (stays_ask (by exact ⟨hs.part_source, hd⟩)).bind fun _ _ => ?_
  refine (obeys_request (by exact hs.map_work)).bind fun r _ => ?_
  split
  · exact obeys_ok trivial
  · exact obeys_ok trivial
  · exact obeys_error

theorem stays_discard (hs : state.Within scope pid) : Stays scope (fun _ => True) state.discard :=
  (obeys_request (by exact hs.part_work)).bind fun _ _ =>
    (obeys_request (by exact hs.map_work)).bind fun _ _ => obeys_ok trivial

/-! ## Content reuse -/

/-- Crediting chunks leaves the files of the state as they are. -/
theorem creditChunks_within {layout : ChunkLayout} (n sequence : Nat) (ranges : List (Nat × Nat)) {reused out : Reused}
    (hs : reused.resume.Within scope pid) (h : creditChunks layout n sequence ranges reused = .ok out) :
    out.resume.Within scope pid := by
  induction n generalizing sequence ranges reused with
  | zero =>
    cases h
    exact hs
  | succ n ih =>
    rw [creditChunks] at h
    split at h
    · exact ih _ _ hs h
    · obtain ⟨_, -, h⟩ := except_bind_ok h
      obtain ⟨_, -, h⟩ := except_bind_ok h
      dsimp only at h
      split at h
      · refine ih _ _ ?_ h
        exact hs.same rfl rfl
      · exact ih _ _ hs h

theorem stays_copyChunks [Sha256] {source : Loc} {candidate : Cdc.Manifest} (hfile : scope.opened file)
    (chunks : List Cdc.Chunk) : Stays scope (fun _ => True) (copyChunks file source candidate chunks) := by
  induction chunks with
  | nil => exact obeys_ok trivial
  | cons chunk chunks ih =>
    rw [copyChunks]
    split
    · exact ih
    · refine (stays_readExactAt _ _ _ _).bind fun bytes _ => obeys_ite (fun _ => ih) fun _ => ?_
      exact (stays_ask (by exact hfile)).bind fun _ _ => ih.bind fun _ _ => obeys_ok trivial

theorem stays_applyReusableContent [Sha256] {target : Cdc.Manifest} {layout : ChunkLayout} (hfile : scope.opened file)
    (hs : state.Within scope pid) : Stays scope (fun reused => reused.resume.Within scope pid)
      (applyReusableContent pid file state target path layout) := by
  refine (Obeys.attempt stays_scanPath).bind fun r _ => ?_
  split
  · exact stays_isMissing.bind fun missing _ => obeys_ite (fun _ => obeys_ok hs) fun _ => obeys_error
  · refine (stays_ask (by exact .inl ⟨rfl, rfl, rfl⟩)).bind fun source _ => ?_
    refine (stays_copyChunks hfile _).bind fun copied _ => obeys_ite (fun _ => obeys_ok hs) fun _ => ?_
    refine stays_checked.bind fun reused hreused => ?_
    have hbeneath := creditChunks_within _ _ _ hs (by exact hreused)
    exact obeys_ite (fun _ => (stays_checkpoint hbeneath).bind fun _ _ => obeys_ok hbeneath) fun _ =>
      obeys_ok hbeneath

/-! ## Datagrams -/

variable {s : Receiving} {layout : ChunkLayout}

theorem stays_advance : Stays scope (fun s' => s'.resume = s.resume) (advanceHashFrontier file layout s) :=
  obeys_ite (fun _ => obeys_error) fun _ => (stays_hashRange _ _ _).bind fun _ _ => obeys_ok rfl

theorem stays_acceptPacket {packet : Packet} (hfile : scope.opened file) (hs : s.resume.Within scope pid) :
    Stays scope (fun s' => s'.resume.Within scope pid) (acceptPacket file layout s packet) := by
  have hstored : (s.stored packet).resume.Within scope pid := hs.same rfl rfl
  refine obeys_ite (fun _ => (stays_ask (by exact hfile)).bind fun _ _ => ?_) fun _ => obeys_ok hs
  exact obeys_ite (fun _ => stays_advance.mono fun s' heq => heq ▸ hstored) fun _ => obeys_ok hstored

theorem stays_receiveDatagram [Sha256] {key : Hash} {datagram : List UInt8} (hfile : scope.opened file)
    (hs : s.resume.Within scope pid) :
    Stays scope (fun s' => s'.resume.Within scope pid) (receiveDatagram key layout file s datagram) := by
  unfold receiveDatagram
  split
  · exact obeys_ok hs
  next packet _ =>
    have hcounted : (s.countValid packet.repair).resume.Within scope pid := hs
    exact (stays_acceptPacket hfile hcounted).bind fun s' hs' => obeys_ok hs'

theorem stays_flushReceipts (hs : s.resume.Within scope pid) :
    Stays scope (fun _ => True) (flushReceipts pid file s) :=
  obeys_ite (fun _ => stays_checkpoint hs) fun _ => obeys_ok trivial

theorem stays_checkpointIfDue {turn : Turn} (hs : s.resume.Within scope pid) :
    Stays scope (fun s' => s'.resume.Within scope pid) (checkpointIfDue pid file s turn) :=
  obeys_ite (fun _ => (stays_checkpoint hs).bind fun _ _ => obeys_ok hs) fun _ => obeys_ok hs

theorem stays_takeSocket [Sha256] {r : UdpReceiver} (hfile : scope.opened file) (hs : s.resume.Within scope r.pid)
    (socket : Except Errno (Option (List UInt8))) :
    Stays scope (fun s' => s'.resume.Within scope r.pid) (takeSocket r file s socket) := by
  rcases socket with e | _ | datagram
  · exact (stays_flushReceipts hs).bind fun _ _ => obeys_error
  · exact obeys_ok hs
  · exact stays_receiveDatagram hfile hs

theorem stays_openReusing [Sha256] {r : UdpReceiver} (hd : Serves scope r.pid r.destination) :
    Stays scope (fun opened => scope.opened opened.1 ∧ opened.2.resume.Within scope r.pid) (openReusing r) := by
  refine (stays_openState hd).bind fun opened hopened => ?_
  obtain ⟨file, state⟩ := opened
  obtain ⟨hfile, hs⟩ := hopened
  dsimp only
  split
  · exact (stays_applyReusableContent hfile hs).bind fun reused hreused => obeys_ok ⟨hfile, hreused⟩
  · exact obeys_ok ⟨hfile, hs⟩

/-! ## Connections -/

theorem stays_isDir : Stays scope (fun _ => True) (isDir path) := by
  refine (obeys_request (by trivial)).bind fun r _ => ?_
  split <;> exact obeys_ok trivial

/-- The directories above a path are made in the scope. -/
theorem stays_createDirAll (hd : Climbs scope dest) (n : Nat) (h : scope.directories path) :
    Stays scope (fun _ => True) (createDirAll n path) := by
  induction n generalizing path with
  | zero => exact obeys_error
  | succ n ih =>
    have hisDir : ∀ e : Errno, Stays scope (fun _ => True)
        (do if ← isDir path then return () else Prog.fail (.io e) : FsProg Unit) := fun e =>
      stays_isDir.bind fun _ _ => obeys_ite (fun _ => obeys_ok trivial) fun _ => obeys_error
    refine obeys_ite (fun _ => obeys_ok trivial) fun _ => ?_
    refine (obeys_request (c := FsCall.createDir path) (by exact h)).bind fun r hr => ?_
    split
    · exact obeys_ok trivial
    · split
      · exact obeys_error
      next parent hparent =>
        refine (ih (hd.next path parent h (fun hthere => hr hthere rfl) hparent)).bind fun _ _ => ?_
        refine (obeys_request (c := FsCall.createDir path) (by exact h)).bind fun r _ => ?_
        split
        · exact obeys_ok trivial
        · exact hisDir _
    · exact hisDir _

theorem stays_createParents (hd : Climbs scope dest) : Stays scope (fun _ => True) (createParents dest) := by
  unfold createParents
  split
  · exact obeys_ok trivial
  next parent hparent => exact stays_createDirAll hd _ (hd.parent parent hparent)

theorem stays_receiveBody (hfile : scope.opened file) (n remaining : Nat) (hashed : List UInt8) (stream : DataStream) :
    Stays scope (fun _ => True) (receiveBody file n remaining hashed stream) := by
  induction n generalizing remaining hashed stream with
  | zero => exact obeys_ok trivial
  | succ n ih =>
    refine obeys_ite (fun _ => obeys_ok trivial) fun _ => ?_
    split
    · exact obeys_error
    · exact obeys_error
    · exact (stays_ask (by exact hfile)).bind fun _ _ => ih _ _ _

theorem stays_step (hfile : scope.opened file) (worker : LaneWorker) :
    Stays scope (fun _ => True) (worker.step file) := by
  refine obeys_ite (fun _ => obeys_ok trivial) fun _ => obeys_ite (fun _ => obeys_ok trivial) fun _ => ?_
  unfold LaneWorker.write
  split
  · exact obeys_ok trivial
  · refine (obeys_request (by exact hfile)).bind fun r _ => ?_
    split
    · exact obeys_ok trivial
    · exact obeys_ok trivial

theorem stays_runWorkers (hfile : scope.opened file) (workers : List LaneWorker) (schedule : List Nat) :
    Stays scope (fun _ => True) (runWorkers file workers schedule) := by
  induction schedule generalizing workers with
  | nil => exact obeys_ok trivial
  | cons lane schedule ih =>
    rw [runWorkers]
    split
    · exact ih _
    · exact (stays_step hfile _).bind fun _ _ => ih _

theorem stays_receiveLanes [Sha256] {auth : Auth.SessionAuth} {size : Nat} {events : Tcp4Events}
    (hd : Serves scope pid dest) :
    Stays scope (fun file => ∀ place, file = some place → scope.opened place)
      (receiveLanes auth (temporaryPath pid dest) size events) := by
  have ht : scope.work (temporaryPath pid dest) := hd.work _ (temporary_mem pid)
  refine (stays_ask (by exact .inr ht)).bind fun file hfile => ?_
  have hopened := hfile ht file rfl
  refine (stays_ask (by exact hopened)).bind fun _ _ => ?_
  refine Obeys.bind (Q := fun _ => True) (fun _ _ => trivial) fun lanes _ => ?_
  cases lanes with
  | none => exact obeys_ok fun place hplace => by cases hplace
  | some lanes =>
    refine (stays_runWorkers hopened _ _).bind fun workers _ => ?_
    split
    · exact obeys_ok fun place hplace => by cases hplace
    · exact obeys_error
    · refine obeys_ok fun place hplace => ?_
      cases hplace
      exact hopened

end PacketTide
