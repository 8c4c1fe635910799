import PacketTide.FileSystem.Proofs.BytesProofs
import PacketTide.Proofs.LaneProofs

/-!
# Reassembly

The threads of the receiver write to ranges of their own, so they do not disturb each other, whichever takes
its turn next.
-/

namespace PacketTide

open Effects FileSystem Prog Text

/-! ## One thread -/

section Thread

variable {source bytes bytes' : List UInt8} {times times' : Nat → Nat} {start stop : Nat} {worker : LaneWorker}

/-- How far a thread has come with its range, given what the file holds and how often each byte of it has been
written. -/
structure Working (source : List UInt8) (start stop : Nat) (bytes : List UInt8) (times : Nat → Nat)
    (worker : LaneWorker) : Prop where
  stop_eq : worker.stop = stop
  start_le : start ≤ worker.offset
  le_stop : worker.offset ≤ stop
  coming : worker.failure = none →
    worker.pending ++ leadingBytes worker.stream.input <+: (source.drop worker.offset).take (stop - worker.offset)
  written : ∀ k, start ≤ k → k < worker.offset → times k = 1 ∧ bytes[k]? = source[k]?
  unwritten : ∀ k, worker.offset ≤ k → k < stop → times k = 0

/-- A thread is not disturbed by what happens outside of its range. -/
theorem Working.frame (h : Working source start stop bytes times worker)
    (hsame : ∀ k, start ≤ k → k < stop → times' k = times k ∧ bytes'[k]? = bytes[k]?) :
    Working source start stop bytes' times' worker := by
  refine ⟨h.stop_eq, h.start_le, h.le_stop, h.coming, fun k hk hlt => ?_, fun k hk hlt => ?_⟩
  · obtain ⟨htimes, hbytes⟩ := hsame k hk (hlt.trans_le h.le_stop)
    rw [htimes, hbytes]
    exact h.written k hk hlt
  · rw [(hsame k (h.start_le.trans hk) hlt).1]
    exact h.unwritten k hk hlt

theorem Working.failed (h : Working source start stop bytes times worker) (stream : DataStream) (e : AnyError) :
    Working source start stop bytes times { worker with stream, failure := some e } :=
  ⟨h.stop_eq, h.start_le, h.le_stop, fun hnone => (nomatch hnone), h.written, h.unwritten⟩

/-- What a thread reads belongs to its place. -/
theorem Working.read (h : Working source start stop bytes times worker) (hpending : worker.pending = [])
    (hfailure : worker.failure = none) : Working source start stop bytes times worker.read := by
  unfold LaneWorker.read
  split
  · exact h
  next hmore =>
    have hcount : 0 < min (worker.stop - worker.offset) bulkBufferLen := by
      have hbuffer : 0 < bulkBufferLen := by decide
      omega
    rcases read_cases worker.stream hcount with ⟨e, input, -, hread⟩ | ⟨left, -, hread⟩ |
      ⟨b, piece, rest, sizes, -, hinput, hread⟩
    · rw [hread]
      exact h.failed _ _
    · rw [hread]
      exact h.failed _ _
    · rw [hread]
      refine ⟨h.stop_eq, h.start_le, h.le_stop, fun _ => ?_, h.written, h.unwritten⟩
      have hcoming := h.coming hfailure
      rwa [hpending, List.nil_append, hinput, leadingBytes_append] at hcoming

/-- What a thread writes belongs to its place and has not been written before. -/
theorem Working.write {piece rest : List UInt8} (h : Working source start stop bytes times worker)
    (hfailure : worker.failure = none) (hpending : worker.pending = piece ++ rest)
    (hlength : bytes.length = source.length) (hstop : stop ≤ source.length) (writes : List Nat) :
    worker.offset + piece.length ≤ bytes.length ∧ worker.offset + piece.length ≤ stop ∧
    Working source start stop (FS.splice worker.offset piece bytes)
      (fun k => times k + if worker.offset ≤ k ∧ k < worker.offset + piece.length then 1 else 0)
      { worker with offset := worker.offset + piece.length, pending := rest, writes } := by
  have hle := h.le_stop
  obtain ⟨tail, htail⟩ := h.coming hfailure
  rw [hpending, List.append_assoc, List.append_assoc] at htail
  have hfits := congrArg List.length htail
  rw [List.length_append, List.length_take, List.length_drop] at hfits
  have hinside : worker.offset + piece.length ≤ bytes.length := by omega
  have hpiece : ∀ k, worker.offset ≤ k → k < worker.offset + piece.length →
      piece[k - worker.offset]? = source[k]? := by
    intro k hk hlt
    have hget := congrArg (fun l => l[k - worker.offset]?) htail
    rw [List.getElem?_append_left (by omega), List.getElem?_take_of_lt (by omega), List.getElem?_drop] at hget
    rw [hget]
    congr 1
    omega
  refine ⟨hinside, by omega, h.stop_eq, h.start_le.trans (Nat.le_add_right _ _), by dsimp only; omega, fun _ => ?_,
    fun k hk hlt => ?_, fun k hk hlt => ?_⟩
  · refine ⟨tail, ?_⟩
    have hdrop := congrArg (List.drop piece.length) htail
    rw [List.drop_left, List.drop_take, List.drop_drop] at hdrop
    rw [List.append_assoc, hdrop, Nat.sub_add_eq]
  · change k < worker.offset + piece.length at hlt
    rw [FS.getElem?_splice hinside]
    by_cases hold : k < worker.offset
    · obtain ⟨htimes, hbytes⟩ := h.written k hk hold
      have hbefore : ¬(worker.offset ≤ k ∧ k < worker.offset + piece.length) := by omega
      rw [if_neg hbefore, if_neg hbefore, htimes]
      exact ⟨rfl, hbytes⟩
    · have hnow : worker.offset ≤ k ∧ k < worker.offset + piece.length := by omega
      rw [if_pos hnow, if_pos hnow, h.unwritten k hnow.1 (by omega)]
      exact ⟨rfl, hpiece k hnow.1 hnow.2⟩
  · have hafter : ¬(worker.offset ≤ k ∧ k < worker.offset + piece.length) := fun hnow => absurd hk (not_le.2 hnow.2)
    rw [h.unwritten k ((Nat.le_add_right _ _).trans hk) hlt, if_neg hafter]

end Thread

/-! ## All threads -/

section Threads

variable {source bytes bytes' : List UInt8} {file : Loc} {workers : List LaneWorker} {s t : FS × List FsCall}
  {lane : Nat} {worker worker' : LaneWorker}

/-- How far all threads have come with the bytes of the file. -/
structure Reassembling (source : List UInt8) (file : Loc) (bytes : List UInt8) (workers : List LaneWorker)
    (s : FS × List FsCall) : Prop where
  view_eq : s.1.view file = some (.file bytes)
  length_bytes : bytes.length = source.length
  length_workers : workers.length = Auth.tcp4Lanes
  working : ∀ (lane : Nat) worker, workers[lane]? = some worker →
    Working source (tcp4LaneRange source.length lane).1 (tcp4LaneRange source.length lane).2 bytes
      (timesWritten file s.2) worker

theorem timesWritten_writeAt (file : Loc) (calls : List FsCall) (offset : Nat) (piece : List UInt8) (k : Nat) :
    timesWritten file (calls ++ [.writeAt file offset piece]) k =
      timesWritten file calls k + if offset ≤ k ∧ k < offset + piece.length then 1 else 0 := by
  unfold timesWritten
  rw [List.countP_append, List.countP_singleton]
  congr 1
  by_cases hk : offset ≤ k ∧ k < offset + piece.length
  · rw [if_pos hk, if_pos]
    exact decide_eq_true ⟨rfl, hk⟩
  · rw [if_neg hk, if_neg]
    intro hwrites
    exact hk (of_decide_eq_true hwrites).2

/-- One thread has gone on, and nothing has happened outside of its range. -/
theorem Reassembling.set (h : Reassembling source file bytes workers s) (hlane : lane < workers.length)
    (hview : t.1.view file = some (.file bytes')) (hlength : bytes'.length = source.length)
    (hworking : Working source (tcp4LaneRange source.length lane).1 (tcp4LaneRange source.length lane).2 bytes'
      (timesWritten file t.2) worker')
    (hsame : ∀ k, ¬((tcp4LaneRange source.length lane).1 ≤ k ∧ k < (tcp4LaneRange source.length lane).2) →
      timesWritten file t.2 k = timesWritten file s.2 k ∧ bytes'[k]? = bytes[k]?) :
    Reassembling source file bytes' (workers.set lane worker') t := by
  refine ⟨hview, hlength, List.length_set.trans h.length_workers, fun other worker hother => ?_⟩
  by_cases hne : other = lane
  · subst hne
    rw [List.getElem?_set_self hlane] at hother
    cases hother
    exact hworking
  · rw [List.getElem?_set_ne (Ne.symm hne)] at hother
    refine (h.working other worker hother).frame fun k hk hlt => hsame k fun hinside => ?_
    exact hne (lane_unique hk hlt hinside.1 hinside.2)

/-- Whatever a thread does when it is its turn, all threads have come to some point then. -/
theorem Reassembling.step (h : Reassembling source file bytes workers s) (hworker : workers[lane]? = some worker) :
    Returns machine.recording refuse (worker.step file)
      (fun worker' t => ∃ bytes', Reassembling source file bytes' (workers.set lane worker') t) s := by
  obtain ⟨hlane, -⟩ := List.getElem?_eq_some_iff.1 hworker
  have hworking := h.working lane worker hworker
  have hquiet : ∀ {worker'}, Working source (tcp4LaneRange source.length lane).1 (tcp4LaneRange source.length lane).2
      bytes (timesWritten file s.2) worker' → ∃ bytes', Reassembling source file bytes' (workers.set lane worker') s :=
    fun hnext => ⟨bytes, h.set hlane h.view_eq h.length_bytes hnext fun _ _ => ⟨rfl, rfl⟩⟩
  unfold LaneWorker.step
  split
  · exact returns_ok (hquiet hworking)
  next hnone =>
  have hfailure : worker.failure = none := Option.not_isSome_iff_eq_none.1 hnone
  split
  next hpending => exact returns_ok (hquiet (hworking.read hpending hfailure))
  unfold LaneWorker.write
  split
  next => exact returns_ok (hquiet (hworking.failed _ _))
  next b piece hpiece =>
  have hprefix : b :: piece <+: worker.pending := hpiece ▸ List.take_prefix _ _
  have hsplit : worker.pending = (b :: piece) ++ worker.pending.drop (piece.length + 1) :=
    (List.prefix_iff_eq_append.1 hprefix).symm
  have hstop := @laneRange_le_size source.length lane (hlane.trans_eq h.length_workers)
  obtain ⟨hinside, hle, hnext⟩ := hworking.write hfailure hsplit h.length_bytes hstop worker.writes.tail
  refine returns_call (fun e => returns_ok (hquiet (hworking.failed _ _)))
    (returns_ok ⟨FS.splice worker.offset (b :: piece) bytes, h.set hlane ?_ ?_ ?_ ?_⟩)
  · show (s.1.store file (FS.splice worker.offset (b :: piece))).view file = _
    rw [FS.view_store h.view_eq, Function.update_self]
  · rw [FS.length_splice hinside, h.length_bytes]
  · refine hnext.frame fun k _ _ => ⟨timesWritten_writeAt file s.2 _ _ k, rfl⟩
  · intro k houtside
    have hbefore : ¬(worker.offset ≤ k ∧ k < worker.offset + (b :: piece).length) := by
      have hstart := hworking.start_le
      omega
    refine ⟨(timesWritten_writeAt file s.2 _ _ k).trans ?_, ?_⟩
    · rw [if_neg hbefore]
      rfl
    · rw [FS.getElem?_splice hinside, if_neg hbefore]

/-- The threads take their turns in any order. -/
theorem Reassembling.run {schedule : List Nat} (h : Reassembling source file bytes workers s) :
    Returns machine.recording refuse (runWorkers file workers schedule)
      (fun workers' t => ∃ bytes', Reassembling source file bytes' workers' t) s := by
  induction schedule generalizing bytes workers s with
  | nil => exact returns_ok ⟨bytes, h⟩
  | cons lane schedule ih =>
    unfold runWorkers
    split
    next => exact ih h
    next worker hworker =>
      refine returns_bind ((h.step hworker).mono fun worker' t hstep => ?_)
      obtain ⟨bytes', hstep⟩ := hstep
      exact ih hstep

theorem finished_of_joinWorkers (h : joinWorkers workers = some (.ok ())) :
    ∀ worker ∈ workers, worker.failure = none ∧ worker.stop ≤ worker.offset := by
  induction workers with
  | nil => exact fun worker hmem => absurd hmem List.not_mem_nil
  | cons first workers ih =>
    unfold joinWorkers at h
    split at h
    next => cases h
    next hfailure =>
      split at h
      next => cases h
      next hdone =>
        intro worker hmem
        rcases List.mem_cons.1 hmem with rfl | hmem
        · exact ⟨hfailure, not_lt.1 fun hlt => hdone (.inr hlt)⟩
        · exact ih h worker hmem

/-- When all threads have finished, every byte is there, written by the thread that it belongs to. -/
theorem Reassembling.finished (h : Reassembling source file bytes workers s)
    (hjoin : joinWorkers workers = some (.ok ())) :
    bytes = source ∧ ∀ k < source.length, timesWritten file s.2 k = 1 := by
  have hbyte : ∀ k < source.length, timesWritten file s.2 k = 1 ∧ bytes[k]? = source[k]? := by
    intro k hk
    obtain ⟨lane, hlane, hstart, hstop⟩ := exists_lane hk
    obtain ⟨worker, hworker⟩ : ∃ worker, workers[lane]? = some worker :=
      ⟨_, List.getElem?_eq_getElem (hlane.trans_eq h.length_workers.symm)⟩
    have hworking := h.working lane worker hworker
    obtain ⟨-, hdone⟩ := finished_of_joinWorkers hjoin worker (List.mem_of_getElem? hworker)
    exact hworking.written k hstart (hstop.trans_le (hworking.stop_eq ▸ hdone))
  refine ⟨List.ext_getElem? fun k => ?_, fun k hk => (hbyte k hk).1⟩
  by_cases hk : k < source.length
  · exact (hbyte k hk).2
  · rw [List.getElem?_eq_none (not_lt.1 hk), List.getElem?_eq_none (h.length_bytes.trans_le (not_lt.1 hk))]

end Threads

/-! ## From the start to the end -/

section Transfer

variable [Sha256] {r : Tcp4Run} {file : Loc} {bytes : List UInt8} {lanes : List DataStream} {s : FS × List FsCall}

/-- The threads start at the beginning of their ranges, with the connections of the sender. -/
theorem Tcp4Run.Carries.start (hcarries : r.Carries) (hlength : lanes.length = Auth.tcp4Lanes)
    (hassigned : Assigned r.auth r.events.accepted lanes) (hview : s.1.view file = some (.file bytes))
    (hbytes : bytes.length = r.sender.source.length) (hnothing : ∀ k, timesWritten file s.2 k = 0) :
    Reassembling r.sender.source file bytes
      (startWorkers r.sender.source.length r.events.writes lanes) s := by
  refine ⟨hview, hbytes, ?_, fun lane worker hworker => ?_⟩
  · unfold startWorkers
    rw [List.length_map, List.length_zipIdx, hlength]
  · unfold startWorkers at hworker
    rw [List.getElem?_map, List.getElem?_zipIdx] at hworker
    obtain ⟨entry, hentry, rfl⟩ := Option.map_eq_some_iff.1 hworker
    obtain ⟨left, hleft, rfl⟩ := Option.map_eq_some_iff.1 hentry
    have hlane : lane < Auth.tcp4Lanes := (List.getElem?_eq_some_iff.1 hleft).1.trans_eq hlength
    obtain ⟨stream, hstream, hgreets⟩ := hassigned.exists_greets hlane hleft
    rw [Nat.zero_add]
    refine ⟨rfl, le_rfl, laneRange_le _ _, fun _ => ?_, fun k hk hlt => absurd hlt (not_lt.2 hk),
      fun k _ _ => hnothing k⟩
    obtain ⟨own, hown, hsent⟩ := hcarries stream hstream lane left hgreets
    exact leadingBytes_of_greets hgreets hown hsent

/-- A receiver that has received all lanes has put the object together. -/
theorem Tcp4Run.Finishes.reassembles {t : FS} {calls : List FsCall} (hcarries : r.Carries)
    (h : r.Finishes file t calls) :
    t.view file = some (.file r.sender.source) ∧
      ∀ k < r.sender.source.length, timesWritten file calls k = 1 := by
  have hreturns : Returns machine.recording refuse
      (receiveLanes r.auth r.temporary r.sender.source.length r.events)
      (fun found t => ∀ file, found = some file → t.1.view file = some (.file r.sender.source) ∧
        ∀ k < r.sender.source.length, timesWritten file t.2 k = 1) (r.fs, []) := by
    have hhome : r.fs.view r.fs.home ≠ none := by
      rw [r.home]
      exact Option.some_ne_none _
    refine returns_bind (returns_ask_recording fun file t hopen => ?_)
    have hempty := FS.view_of_openFile rfl rfl rfl hhome hopen
    refine returns_bind (returns_ask_recording fun _ t' hset => ?_)
    have hview : t'.view file = some (.file (FS.resize r.sender.source.length [])) := by
      cases hset
      rw [FS.view_store hempty, Function.update_self]
    rcases haccept : acceptLanes r.auth (List.replicate Auth.tcp4Lanes none) r.events.accepted with e | _ | lanes
    · exact returns_error
    · exact returns_ok fun file hfile => (nomatch hfile)
    obtain ⟨hlength, hassigned⟩ := assigned_of_acceptLanes haccept
    have hstart := @Tcp4Run.Carries.start _ r file _ lanes
      (t', [.openFile r.temporary { write := true, create := true, truncate := true },
        .setLen file r.sender.source.length])
      hcarries hlength hassigned hview (FS.length_resize _ _) (fun _ => rfl)
    refine returns_bind (returns_ok (returns_bind (hstart.run.mono fun workers u hrun => ?_)))
    obtain ⟨bytes, hrun⟩ := hrun
    rcases hjoin : joinWorkers workers with _ | e | _
    · exact returns_ok fun file hfile => (nomatch hfile)
    · exact returns_error
    · refine returns_ok fun file hfile => ?_
      cases hfile
      obtain ⟨rfl, htimes⟩ := hrun.finished hjoin
      exact ⟨hrun.view_eq, htimes⟩
  exact hreturns _ _ h file rfl

/-- The lanes of an object are computed without overflow and fit together, every connection that is taken for a
lane has greeted for it, and no other one has. So a receiver whose threads all finish has written every byte of
the object once, and to its place. -/
theorem tcp4_reassembles :
    (∀ size < 2 ^ 64, SplitsLanes size) ∧
    (∀ auth accepted lanes, acceptLanes auth (List.replicate Auth.tcp4Lanes none) accepted = .ok (some lanes) →
      Assigned auth accepted lanes) ∧
    ∀ r : Tcp4Run, r.Carries → ∀ file t calls, r.Finishes file t calls →
      t.view file = some (.file r.sender.source) ∧
        ∀ k < r.sender.source.length, timesWritten file calls k = 1 :=
  ⟨fun _ hsize => splitsLanes hsize, fun _ _ _ haccept => (assigned_of_acceptLanes haccept).2,
    fun _ hcarries _ _ _ hfinishes => hfinishes.reassembles hcarries⟩

/-! ## An example -/

/-- The connection of a lane that carries some bytes, of which the first read returns one only. -/
def laneStream (lane : Nat) (bytes : List UInt8) : DataStream where
  input := (laneGreeting Auth.sampleAuth lane).map .ok ++ .ok newline :: bytes.map .ok
  sizes := [0]

/-- Five bytes over connections that come in another order than they have been opened. -/
def crossedRun : Tcp4Run where
  sender := { source := [10, 20, 30, 40, 50] }
  auth := Auth.sampleAuth
  temporary := ⟨none, [⟨ascii "object", by decide⟩]⟩
  events := {
    accepted := [.connection (laneStream 2 [40]), .connection (laneStream 0 [10, 20]),
      .connection (laneStream 3 [50]), .connection (laneStream 1 [30])]
    schedule := [3, 0, 1, 0, 2, 3, 0, 1, 2, 0] }
  fs := .empty
  home := rfl

/-- A connection with the greeting of the sender takes its lane. -/
theorem acceptLanes_connection {auth : Auth.SessionAuth} {slots : List (Option DataStream)} {accepted : List Arrival}
    {lane : Nat} {stream : DataStream} {rest : List (Except Errno UInt8)} (hsession : auth.session.length = 16)
    (hlane : lane < Auth.tcp4Lanes) (hfree : slots[lane]? = some none)
    (hinput : stream.input = (laneGreeting auth lane).map .ok ++ .ok newline :: rest) :
    acceptLanes auth slots (.connection stream :: accepted) =
      acceptLanes auth (slots.set lane (some { stream with input := rest })) accepted := by
  have hopen : slots.all Option.isSome ≠ true := fun hall => by
    cases List.all_eq_true.1 hall none (List.mem_of_getElem? hfree)
  obtain ⟨t, hread, rfl⟩ := @run_readTcp4Hello _ auth lane { input := stream.input } rest hsession hlane hinput
  rw [acceptLanes, if_neg hopen, hread]
  dsimp only
  rw [hfree]

theorem acceptLanes_crossedRun : acceptLanes crossedRun.auth (List.replicate Auth.tcp4Lanes none)
    crossedRun.events.accepted = .ok (some [⟨[.ok 10, .ok 20], [0]⟩, ⟨[.ok 30], [0]⟩, ⟨[.ok 40], [0]⟩,
      ⟨[.ok 50], [0]⟩]) := by
  have hconnect : ∀ {slots accepted} (lane : Nat) (bytes : List UInt8), lane < Auth.tcp4Lanes →
      slots[lane]? = some none → acceptLanes Auth.sampleAuth slots (.connection (laneStream lane bytes) :: accepted) =
        acceptLanes Auth.sampleAuth (slots.set lane (some ⟨bytes.map .ok, [0]⟩)) accepted :=
    fun lane bytes hlane hfree => acceptLanes_connection rfl hlane hfree rfl
  dsimp only [crossedRun]
  rw [hconnect 2 [40] (by decide) rfl, hconnect 0 [10, 20] (by decide) rfl, hconnect 3 [50] (by decide) rfl,
    hconnect 1 [30] (by decide) rfl]
  rfl

theorem leadingBytes_laneStream (lane : Nat) (bytes : List UInt8) :
    leadingBytes (laneStream lane bytes).input = laneGreeting Auth.sampleAuth lane ++ newline :: bytes := by
  have hall : leadingBytes (bytes.map .ok) = bytes := by
    rw [← List.append_nil (bytes.map _), leadingBytes_append]
    exact List.append_nil bytes
  unfold laneStream
  rw [leadingBytes_append, leadingBytes, hall]

theorem carries_crossedRun : crossedRun.Carries := by
  have hown : ∀ lane bytes, crossedRun.sender.sentOn crossedRun.auth lane =
      (laneGreeting Auth.sampleAuth lane ++ [newline]) ++ bytes → lane < Auth.tcp4Lanes →
      ∃ own < Auth.tcp4Lanes,
        leadingBytes (laneStream lane bytes).input <+: crossedRun.sender.sentOn crossedRun.auth own := by
    intro lane bytes hsent hlane
    refine ⟨lane, hlane, ?_⟩
    rw [leadingBytes_laneStream, hsent, List.append_assoc]
    exact List.prefix_rfl
  intro stream hstream lane left _
  rcases List.mem_cons.1 hstream with rfl | hstream
  · exact hown 2 [40] (by unfold Tcp4Send.sentOn; dsimp only [crossedRun]; rfl) (by decide)
  rcases List.mem_cons.1 hstream with rfl | hstream
  · exact hown 0 [10, 20] (by unfold Tcp4Send.sentOn; dsimp only [crossedRun]; rfl) (by decide)
  rcases List.mem_cons.1 hstream with rfl | hstream
  · exact hown 3 [50] (by unfold Tcp4Send.sentOn; dsimp only [crossedRun]; rfl) (by decide)
  · rw [List.mem_singleton.1 hstream]
    exact hown 1 [30] (by unfold Tcp4Send.sentOn; dsimp only [crossedRun]; rfl) (by decide)

theorem finishes_crossedRun : ∃ file t calls, crossedRun.Finishes file t calls := by
  have hfirst : ((receiveLanes crossedRun.auth crossedRun.temporary crossedRun.sender.source.length
      crossedRun.events).run machine.recording (crossedRun.fs, [])).1 = .ok (some [⟨ascii "object", by decide⟩]) := by
    rw [receiveLanes, acceptLanes_crossedRun]
    dsimp only [crossedRun]
    decide +kernel
  rcases hrun : (receiveLanes crossedRun.auth crossedRun.temporary crossedRun.sender.source.length
    crossedRun.events).run machine.recording (crossedRun.fs, []) with ⟨result, t, calls⟩
  rw [hrun] at hfirst
  dsimp only at hfirst
  subst hfirst
  exact ⟨_, t, calls, Succeeds.of_run hrun⟩

end Transfer

/-- The rule, for connections and threads in another order. -/
theorem tcp4_reassembles_crossed : ∃ file t calls, @Tcp4Run.Finishes sha2 (@crossedRun sha2) file t calls ∧
    t.view file = some (.file [10, 20, 30, 40, 50]) ∧ ∀ k < 5, timesWritten file calls k = 1 :=
  (@finishes_crossedRun sha2).imp fun file h => h.imp fun t h => h.imp fun calls hfinishes => ⟨hfinishes,
    (@tcp4_reassembles sha2).2.2 (@crossedRun sha2) (@carries_crossedRun sha2) file t calls hfinishes⟩

end PacketTide
