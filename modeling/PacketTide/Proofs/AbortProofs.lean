import PacketTide.Proofs.ConsistencyProofs
import PacketTide.ReceiveAborts

/-!
# Receipts when a transfer is stopped

The receipts on disk are those of the last checkpoint. They cover all chunks just if nothing has been
accepted since.
-/

namespace PacketTide

open Effects FileSystem FS Prog Text

section

variable {r : UdpReceiver} {file : Loc} {content : List UInt8} {s s' : Receiving} {fs t : FS}
  {site : Site} {a b : LoopState}

/-! ## Receipts on disk -/

/-- The receipts on disk are a part of those in memory, and all of them just if the mark that tells so
is clear. -/
structure Saved (r : UdpReceiver) (s : Receiving) (fs : FS) (saved : Bitmap) : Prop where
  on_disk : receiptsOnDisk r fs = some saved
  part : ∀ i, bitmapContains saved i → bitmapContains s.resume.bitmap i
  clean : s.checkpointDirty = false → saved = s.resume.bitmap
  dirty : s.checkpointDirty = true →
    ∃ i, bitmapContains s.resume.bitmap i = true ∧ bitmapContains saved i = false

theorem Saved.kept_iff {saved : Bitmap} (h : Saved r s fs saved) :
    ReceiptsKept r s.resume.bitmap fs ↔ s.checkpointDirty = false := by
  constructor
  · rintro ⟨bitmap, hdisk, hkept⟩
    rw [h.on_disk] at hdisk
    cases hdisk
    by_contra hdirty
    obtain ⟨i, hi, hlost⟩ := h.dirty (by simpa using hdirty)
    rw [hkept i hi] at hlost
    cases hlost
  · intro hclean
    exact ⟨saved, h.on_disk, fun i hi => h.clean hclean ▸ hi⟩

/-- What the datagram of a turn does to the receipts. -/
theorem TookSocket.receipts [Sha256] {socket : Except Errno (Option (List UInt8))}
    {content' : List UInt8} (h : TookSocket r s content socket s' content') :
    s'.resume.bitmap = bitmapAtEvents r s socket ∧ s'.resume.identity = s.resume.identity ∧
      s'.checkpointDirty = dirtyAtEvents r s socket ∧ s'.lastCheckpoint = s.lastCheckpoint := by
  unfold bitmapAtEvents dirtyAtEvents
  cases h with
  | none =>
    exact ⟨rfl, rfl, (Bool.or_false _).symm, rfl⟩
  | datagram h =>
    cases h with
    | invalid h =>
      rw [acceptedChunk, h]
      exact ⟨rfl, rfl, (Bool.or_false _).symm, rfl⟩
    | duplicate h hbit =>
      rw [acceptedChunk, h, Option.bind_some, if_neg (by rw [hbit]; decide)]
      exact ⟨rfl, rfl, (Bool.or_false _).symm, rfl⟩
    | accepted h hbit _ hs' =>
      rw [acceptedChunk, h, Option.bind_some, if_pos hbit]
      rcases hs' with rfl | rfl
      · exact ⟨rfl, rfl, (Bool.or_true _).symm, rfl⟩
      · exact ⟨rfl, rfl, (Bool.or_true _).symm, rfl⟩

theorem acceptedChunk_some [Sha256] {socket : Except Errno (Option (List UInt8))} {i : Nat}
    (h : acceptedChunk r s socket = some i) :
    bitmapContains s.resume.bitmap i = false ∧ i < r.hello.chunks := by
  unfold acceptedChunk at h
  split at h
  next datagram =>
    obtain ⟨packet, hcheck, hpacket⟩ := Option.bind_eq_some_iff.1 h
    split at hpacket
    next hbit =>
      cases hpacket
      exact ⟨hbit, (checkPacket_some hcheck).1⟩
    next => cases hpacket
  next => cases h

/-- Writing a chunk leaves the receipts on disk behind. -/
theorem Saved.took [Sha256] {socket : Except Errno (Option (List UInt8))} {content' : List UInt8}
    {saved : Bitmap} (hs : s.Sound r content) (hd : OnDisk r.pid r.destination file content fs)
    (h : Saved r s fs saved) (htook : TookSocket r s content socket s' content')
    (hl : t.Looks fs.home (Function.update fs.view file (some (.file content')))) :
    Saved r s' t saved := by
  obtain ⟨hbitmap, -, hdirty, -⟩ := htook.receipts
  have hdisk : receiptsOnDisk r t = some saved := by
    rw [receiptsOnDisk, hl.1, hl.2, Function.update_of_ne hd.file_ne_map.symm]
    exact h.on_disk
  rcases haccepted : acceptedChunk r s socket with _ | i
  · rw [bitmapAtEvents, haccepted] at hbitmap
    rw [dirtyAtEvents, haccepted, Option.isSome_none, Bool.or_false] at hdirty
    refine ⟨hdisk, ?_, ?_, ?_⟩
    · rw [hbitmap]
      exact h.part
    · rw [hbitmap, hdirty]
      exact h.clean
    · rw [hbitmap, hdirty]
      exact h.dirty
  · obtain ⟨hnew, hlt⟩ := acceptedChunk_some haccepted
    rw [bitmapAtEvents, haccepted] at hbitmap
    rw [dirtyAtEvents, haccepted, Option.isSome_some, Bool.or_true] at hdirty
    refine ⟨hdisk, fun j hj => ?_, fun hclean => ?_, fun _ => ⟨i, ?_, ?_⟩⟩
    · rw [hbitmap]
      exact bitmapContains_insert_of (h.part j hj)
    · rw [hdirty] at hclean
      cases hclean
    · rw [hbitmap]
      show bitmapContains (bitmapInsert s.resume.bitmap i) i = true
      rw [bitmapContains_bitmapInsert (hs.bitmap.place_lt hlt), decide_eq_true rfl, Bool.true_or]
    · by_contra hlost
      rw [h.part i (by simpa using hlost)] at hnew
      cases hnew

theorem Saved.hear {saved : Bitmap} (h : Saved r s fs saved) (clock : Instant)
    (events : List ControlEvent) : Saved r (s.hear clock events) fs saved := by
  unfold Receiving.hear
  split
  · exact { h with }
  · exact h

/-- A checkpoint brings the receipts on disk up to date. -/
theorem Saved.checkpointed {saved : Bitmap} {turn : Turn} (hr : r.hello.identity = some r.identity)
    (hs : s.Sound r content) (h : Saved r s fs saved)
    (hl : t.Looks fs.home (checkpointedView r s turn fs)) :
    ∃ saved', Saved r (s.checkpointed turn) t saved' := by
  unfold PacketTide.checkpointedView at hl
  unfold Receiving.checkpointed
  split at hl
  next hdue =>
    rw [if_pos hdue]
    have hbitmap : BitmapFor r.identity.chunks s.resume.bitmap := by
      rw [(identity_fields hr).2.1]
      exact hs.bitmap
    refine ⟨s.resume.bitmap, receipts_checkpointed hs.identity hbitmap hl, fun _ hi => hi,
      fun _ => rfl, fun hdirty => ?_⟩
    cases hdirty
  next hdue =>
    rw [if_neg hdue]
    refine ⟨saved, ?_, h.part, h.clean, h.dirty⟩
    rw [receiptsOnDisk, hl.1, hl.2]
    exact h.on_disk

theorem Saved.report {saved : Bitmap} {hello : Hello} {turn : Turn} {lines : List Str}
    (h : Saved r s fs saved) (hreported : Reported hello s turn s' lines) : Saved r s' fs saved := by
  cases hreported with
  | quiet _ => exact h
  | due _ => exact { h with }

/-! ## Reachable states -/

/-- A state of the loop whose receipts on disk are accounted for. -/
def Recorded (r : UdpReceiver) (file : Loc) (a : LoopState) : Prop :=
  ∃ content saved, a.receiving.Sound r content ∧
    OnDisk r.pid r.destination file content a.site.fs ∧ Saved r a.receiving a.site.fs saved

theorem recorded_starts [Sha256] (hr : r.Invoked) (h : Starts r file a) : Recorded r file a := by
  obtain ⟨site, clock, hs, hrun⟩ := h
  obtain ⟨reused, content, hentered⟩ := returns_startReceiving hr clock hs _ _ hrun
  refine ⟨content, reused.resume.bitmap, hentered.sound, hentered.disk, ?_⟩
  have hstate : a.receiving = ((Receiving.start reused.resume).advanced r content).enterLoop clock :=
    hentered.state_eq
  rw [hstate]
  exact ⟨hentered.opened.receipts, fun _ hi => hi, fun _ => rfl, fun hdirty => nomatch hdirty⟩

theorem Recorded.step [Sha256] (hr : r.Invoked) (ha : Recorded r file a) (h : TurnStep r file a b) :
    Recorded r file b := by
  have hb := hr.able.bounded
  obtain ⟨content, saved, hs, hd, hsaved⟩ := ha
  obtain ⟨turn, hrun⟩ := h
  obtain ⟨content', hwent⟩ := wentOn_of_succeeds hb hs hd hrun
  obtain ⟨s₁, s₂, u, pongs, lines, htook, rfl, hu, -, hl, hreported, -, -⟩ := hwent.begun
  have hsaved₁ := (hsaved.took hs hd htook hu).hear turn.endedClock turn.events
  have hs₁ := (htook.sound hb hs).hear turn.endedClock turn.events
  obtain ⟨saved', hsaved₂⟩ := hsaved₁.checkpointed hr.identity hs₁ hl
  exact ⟨content', saved', hwent.sound, hwent.disk, hsaved₂.report hreported⟩

theorem LoopReachable.recorded [Sha256] (hr : r.Invoked) (h : LoopReachable r file b) :
    Recorded r file b := by
  obtain ⟨a, hstart, hsteps⟩ := h
  induction hsteps with
  | refl => exact recorded_starts hr hstart
  | tail _ hstep ih => exact ih.step hr hstep

/-! ## The turn that stops -/

theorem run_flushReceipts {saved : Bitmap} (hr : r.hello.identity = some r.identity)
    (hs : s.Sound r content) (hd : OnDisk r.pid r.destination file content fs)
    (h : Saved r s fs saved) :
    ∃ t, (flushReceipts r.pid file s).run machine fs = (.ok (), t) ∧
      ReceiptsKept r s.resume.bitmap t := by
  unfold flushReceipts
  split
  · obtain ⟨t, hrun, hl⟩ := hd.checkpoint hs.mapPath
    have hbitmap : BitmapFor r.identity.chunks s.resume.bitmap := by
      rw [(identity_fields hr).2.1]
      exact hs.bitmap
    exact ⟨t, hrun, s.resume.bitmap, receipts_checkpointed hs.identity hbitmap hl, fun _ hi => hi⟩
  next hclean => exact ⟨fs, rfl, h.kept_iff.2 (by simpa using hclean)⟩

theorem run_sendControl (payload : Str) (site : Site) :
    (sendControl payload).run siteMachine site =
      ((site.control.attempt payload).1, ⟨site.fs, (site.control.attempt payload).2⟩) := by
  unfold sendControl
  rw [run_call]
  have hexec : siteMachine.exec (.send payload) site =
      ((site.control.attempt payload).1, ⟨site.fs, (site.control.attempt payload).2⟩) := rfl
  rw [hexec]
  rcases (site.control.attempt payload).1 with e | u <;> rfl

/-- A payload that fits is written unless the write fails. -/
theorem attempt_payload {writer : ControlWriter} {payload : Str} (h : controlPayload payload) :
    ∃ sent, writer.attempt payload =
      (if writer.fates.head? = some false then .error (.io .other) else .ok (),
        ⟨sent, writer.fates.tail⟩) := by
  unfold ControlWriter.attempt ControlWriter.send
  rw [if_neg (not_not.2 h), if_pos h]
  by_cases hfate : writer.fates.head? = some false
  · exact ⟨writer.sent, by simp only [hfate, if_true]⟩
  · exact ⟨writer.sent ++ [payload], by simp only [hfate, if_false]⟩

/-- The events of a turn end as the writes to the control channel decide. -/
theorem run_takeEvents {saved : Bitmap} (hr : r.hello.identity = some r.identity)
    (hs : s.Sound r content) (hd : OnDisk r.pid r.destination file content site.fs)
    (h : Saved r s site.fs saved) (clock : Instant) (events : List ControlEvent) :
    ∃ control, match eventsEnd site.control.fates events with
      | .goOn => (takeEvents r.pid file clock s events).run siteMachine site =
          (.ok (s.hear clock events), ⟨site.fs, control⟩)
      | .stopUnflushed => ∃ e, (takeEvents r.pid file clock s events).run siteMachine site =
          (.error e, ⟨site.fs, control⟩)
      | .stopFlushed => ∃ e t, (takeEvents r.pid file clock s events).run siteMachine site =
          (.error e, ⟨t, control⟩) ∧ ReceiptsKept r s.resume.bitmap t := by
  induction events generalizing s site with
  | nil => exact ⟨site.control, rfl⟩
  | cons event events ih =>
    have hflush : ∀ text, ∃ t, (do onFiles (flushReceipts r.pid file s); stopWith text :
        SiteProg Receiving).run siteMachine site = (.error (.message text), ⟨t, site.control⟩) ∧
          ReceiptsKept r s.resume.bitmap t := by
      intro text
      obtain ⟨t, hrun, hkept⟩ := run_flushReceipts hr hs hd h
      refine ⟨t, ?_, hkept⟩
      rw [run_bind_ok (t := ⟨t, site.control⟩) (by rw [run_onFiles, hrun])]
      rfl
    cases event with
    | ended =>
      obtain ⟨control, hcontrol⟩ := ih (s := s.end clock) { hs with } hd { h with }
      refine ⟨control, ?_⟩
      rw [← Receiving.hear_cons_ended]
      exact hcontrol
    | ping =>
      obtain ⟨sent, hattempt⟩ := @attempt_payload site.control (ascii "PONG") (by decide)
      have hpong := run_sendControl (ascii "PONG") site
      rw [hattempt] at hpong
      rw [eventsEnd]
      by_cases hfate : site.control.fates.head? = some false
      · rw [if_pos hfate] at hpong ⊢
        exact ⟨_, _, run_bind_error hpong⟩
      · rw [if_neg hfate] at hpong ⊢
        obtain ⟨control, hcontrol⟩ := @ih _ ⟨site.fs, ⟨sent, site.control.fates.tail⟩⟩ hs hd h
        have hhear : s.hear clock (.ping :: events) = s.hear clock events := by
          unfold Receiving.hear
          simp
        refine ⟨control, ?_⟩
        rw [takeEvents, run_bind_ok hpong, hhear]
        exact hcontrol
    | completeAck => exact ⟨site.control, _, rfl⟩
    | cancel reason =>
      obtain ⟨t, hrun, hkept⟩ := hflush "sender cancelled transfer"
      exact ⟨site.control, _, t, hrun, hkept⟩
    | error text =>
      obtain ⟨t, hrun, hkept⟩ := hflush text
      exact ⟨site.control, _, t, hrun, hkept⟩

theorem bitmap_hear (s : Receiving) (clock : Instant) (events : List ControlEvent) :
    (s.hear clock events).resume = s.resume ∧
      (s.hear clock events).checkpointDirty = s.checkpointDirty ∧
      (s.hear clock events).lastCheckpoint = s.lastCheckpoint := by
  unfold Receiving.hear
  split <;> exact ⟨rfl, rfl, rfl⟩

theorem dirty_checkpointed (s : Receiving) (turn : Turn) :
    (s.checkpointed turn).checkpointDirty = false ↔ ¬(s.checkpointDirty = true ∧
      elapsed s.lastCheckpoint turn.checkpointClock < resumeCheckpointInterval) := by
  unfold Receiving.checkpointed
  split
  next hdue => exact ⟨fun _ h => absurd h.2 (Nat.not_lt.2 hdue.2), fun _ => rfl⟩
  next hdue =>
    rw [← Bool.not_eq_true, not_iff_not]
    refine ⟨fun hdirty => ⟨hdirty, Nat.not_le.1 fun hle => hdue ⟨hdirty, hle⟩⟩, fun h => h.1⟩

/-- A sequence of programs that leave the files alone. -/
theorem fs_bind {α β : Type} {p : SiteProg α} {f : α → SiteProg β}
    (hp : ∀ site, (p.run siteMachine site).2.fs = site.fs)
    (hf : ∀ a site, ((f a).run siteMachine site).2.fs = site.fs) (site : Site) :
    ((p >>= f).run siteMachine site).2.fs = site.fs := by
  have hfirst := hp site
  rw [run_bind]
  rcases hrun : p.run siteMachine site with ⟨e | v, t⟩
  · rw [hrun] at hfirst
    exact hfirst
  · rw [hrun] at hfirst
    exact (hf v t).trans hfirst

theorem fs_sendControl (payload : Str) (site : Site) :
    ((sendControl payload).run siteMachine site).2.fs = site.fs := by
  rw [run_sendControl]

/-- A report leaves the files alone, whether it is written or not. -/
theorem fs_reportIfDue (hello : Hello) (s : Receiving) (turn : Turn) (site : Site) :
    ((do let s ← reportIfDue hello s turn; return .running s : SiteProg Turned).run siteMachine
      site).2.fs = site.fs := by
  refine fs_bind (fun site => ?_) (fun _ _ => rfl) site
  unfold reportIfDue
  split
  · exact fs_bind (fs_sendControl _) (fun _ _ => rfl) site
  · rfl

/-- Where a turn goes on from the events, if it does not end the transfer. -/
theorem run_after_events [Sha256] {turn : Turn} {s₂ : Receiving} {u : Site}
    (hrun : (beginTurn r file s turn).run siteMachine site = (.ok s₂, u))
    (hgo : ¬(s₂.ended ∧ s₂.resume.receivedCount = r.hello.chunks)) :
    (receiveTurn r file s turn).run siteMachine site =
      (do let s ← onFiles (checkpointIfDue r.pid file s₂ turn)
          let s ← reportIfDue r.hello s turn
          return .running s : SiteProg Turned).run siteMachine u := by
  unfold receiveTurn
  rw [run_bind_ok hrun, if_neg hgo]

/-- A turn that ends with an error before the end of the transfer keeps the receipts of all chunks
that have been accepted just if it does not stop unflushed. -/
theorem abort_keeps_receipts_iff [Sha256] {turn : Turn} {e : AnyError} {t : Site} (hr : r.Invoked)
    (ha : LoopReachable r file a)
    (hrun : (receiveTurn r file a.receiving turn).run siteMachine a.site = (.error e, t))
    (hbefore : BeforeCompletion r file a turn) :
    ReceiptsKept r (bitmapAtEvents r a.receiving turn.socket) t.fs ↔ ¬StopsUnflushed r a turn := by
  have hb := hr.able.bounded
  obtain ⟨content, saved, hs, hd, hsaved⟩ := ha.recorded hr
  rcases hsocket : turn.socket with errno | datagram
  · -- the socket fails, and the receipts are flushed
    obtain ⟨u, hflush, hkept⟩ := run_flushReceipts hr.identity hs hd hsaved
    have htake : (takeSocket r file a.receiving turn.socket).run machine a.site.fs =
        (.error (.io errno), u) := by
      rw [hsocket]
      exact run_bind_ok hflush
    have hturn : (receiveTurn r file a.receiving turn).run siteMachine a.site =
        (.error (.io errno), ⟨u, a.site.control⟩) := by
      refine run_bind_error (run_bind_error ?_)
      rw [run_onFiles, htake]
    rw [hrun] at hturn
    cases hturn
    refine ⟨fun _ hstop => hstop.2.1 errno hsocket, fun _ => ?_⟩
    exact hkept
  -- the socket hands over a datagram or nothing
  obtain ⟨s₁, content', u, htake, htook, hl⟩ : ∃ s₁ content' u,
      (takeSocket r file a.receiving turn.socket).run machine a.site.fs = (.ok s₁, u) ∧
        TookSocket r a.receiving content turn.socket s₁ content' ∧
        u.Looks a.site.fs.home (Function.update a.site.fs.view file (some (.file content'))) := by
    rw [hsocket]
    rcases datagram with _ | datagram
    · refine ⟨a.receiving, content, a.site.fs, rfl, .none, rfl, ?_⟩
      rw [← hd.shape, Function.update_eq_self]
    · obtain ⟨s₁, content', u, htake, htook, hl⟩ := run_receiveDatagram hb hs hd datagram
      exact ⟨s₁, content', u, htake, .datagram htook, hl⟩
  have hs₁ := htook.sound hb hs
  have hd₁ := hd.holds hl
  have hsaved₁ := hsaved.took hs hd htook hl
  obtain ⟨hbitmap, -, hdirty, hlast⟩ := htook.receipts
  have htaken : (onFiles (takeSocket r file a.receiving turn.socket)).run siteMachine a.site =
      (.ok s₁, ⟨u, a.site.control⟩) := by
    rw [run_onFiles, htake]
  rw [hsocket] at hbitmap hdirty
  rw [← hbitmap]
  have hstops : StopsUnflushed r a turn ↔ s₁.checkpointDirty = true ∧
      (eventsEnd a.site.control.fates turn.events = .stopUnflushed ∨
        eventsEnd a.site.control.fates turn.events = .goOn ∧
          elapsed a.receiving.lastCheckpoint turn.checkpointClock < resumeCheckpointInterval) := by
    unfold StopsUnflushed
    rw [hsocket, ← hdirty]
    exact ⟨fun h => ⟨h.1, h.2.2⟩, fun h => ⟨h.1, by nofun, h.2⟩⟩
  obtain ⟨control, hevents⟩ := @run_takeEvents _ _ _ _ ⟨u, a.site.control⟩ _ hr.identity hs₁ hd₁
      hsaved₁ turn.endedClock turn.events
  have hfates : ({ fs := u, control := a.site.control } : Site).control.fates =
      a.site.control.fates := rfl
  rw [hfates] at hevents
  rw [hstops]
  rcases hend : eventsEnd a.site.control.fates turn.events with _ | _ | _
  · -- the events let the turn go on, so the report has failed
    rw [hend] at hevents
    have hbegin : (beginTurn r file a.receiving turn).run siteMachine a.site = (.ok _, _) :=
      (run_bind_ok htaken).trans hevents
    have hgo := hbefore _ _ hbegin
    rw [run_after_events hbegin hgo] at hrun
    obtain ⟨hresume, hdirty₂, hlast₂⟩ := bitmap_hear s₁ turn.endedClock turn.events
    have hs₂ := hs₁.hear turn.endedClock turn.events
    have hsaved₂ := hsaved₁.hear turn.endedClock turn.events
    generalize s₁.hear turn.endedClock turn.events = s₂ at *
    obtain ⟨v, hcheckpoint, hlv⟩ := run_checkpointIfDue hs₂ hd₁ turn
    rw [run_bind_ok (t := ⟨v, control⟩) (by rw [run_onFiles, hcheckpoint])] at hrun
    obtain ⟨saved', hsaved₃⟩ := hsaved₂.checkpointed hr.identity hs₂ hlv
    have hfs : t.fs = v := by
      have hkeep := fs_reportIfDue r.hello (s₂.checkpointed turn) turn ⟨v, control⟩
      rw [hrun] at hkeep
      exact hkeep
    have hbitmap₃ : (s₂.checkpointed turn).resume = s₁.resume := by
      unfold Receiving.checkpointed
      split <;> exact hresume
    rw [hfs, ← hbitmap₃, hsaved₃.kept_iff, dirty_checkpointed, hdirty₂, hlast₂, hlast]
    simp
  · rw [hend] at hevents
    obtain ⟨e', v, hevents, hkept⟩ := hevents
    have hturn : (receiveTurn r file a.receiving turn).run siteMachine a.site = (.error e', _) :=
      run_bind_error ((run_bind_ok htaken).trans hevents)
    rw [hrun] at hturn
    cases hturn
    refine ⟨fun _ hstop => ?_, fun _ => hkept⟩
    rcases hstop.2 with h | h
    · cases h
    · cases h.1
  · rw [hend] at hevents
    obtain ⟨e', hevents⟩ := hevents
    have hturn : (receiveTurn r file a.receiving turn).run siteMachine a.site = (.error e', _) :=
      run_bind_error ((run_bind_ok htaken).trans hevents)
    rw [hrun] at hturn
    cases hturn
    rw [hsaved₁.kept_iff]
    simp

end

/-! ## A turn that loses a receipt -/

section Example

/-- The files and the control channel of a receiver of one byte when its loop starts, given whether
each write to the channel succeeds. -/
def singleSiteWith (fates : List Bool) : Site :=
  ((@startReceiving constantDigest singleReceiver 0).run siteMachine ⟨FS.empty, { fates }⟩).2

/-- The loop of a receiver whose fourth write fails. -/
def brokenStart : LoopState := ⟨singleStart, singleSiteWith [true, true, true, false]⟩

theorem reachable_broken :
    @LoopReachable constantDigest singleReceiver (partOf singleFile).names brokenStart := by
  have hrun : (@startReceiving constantDigest singleReceiver 0).run siteMachine
      ⟨FS.empty, { fates := [true, true, true, false] }⟩ =
        (.ok ((partOf singleFile).names, singleStart), singleSiteWith [true, true, true, false]) :=
    Prod.ext (by decide) rfl
  exact ⟨_, ⟨⟨FS.empty, { fates := [true, true, true, false] }⟩, 0, sited_empty 7, .of_run hrun⟩, .refl⟩

/-- The chunk arrives, and then a `PONG` cannot be written. -/
def brokenTurn : Turn := { socket := .ok (some singleDatagram), events := [.ping] }

/-- What that turn leaves. -/
def brokenEnd : Site :=
  ((@receiveTurn constantDigest singleReceiver (partOf singleFile).names singleStart
    brokenTurn).run siteMachine brokenStart.site).2

theorem not_abort_keeps_receipts :
    ¬∀ (_ : Sha256) (r : UdpReceiver) (file : Loc) (a : LoopState) (turn : Turn),
      r.Invoked → LoopReachable r file a → AbortKeepsReceipts r file a turn := by
  intro hall
  have hbegin : ((@beginTurn constantDigest singleReceiver (partOf singleFile).names singleStart
      brokenTurn).run siteMachine brokenStart.site).1 = .error (.io .other) := by decide
  have hturn : (@receiveTurn constantDigest singleReceiver (partOf singleFile).names
      brokenStart.receiving brokenTurn).run siteMachine brokenStart.site =
        (.error (.io .other), brokenEnd) :=
    Prod.ext (by decide) rfl
  obtain ⟨saved, hdisk, hkept⟩ := hall constantDigest _ _ _ brokenTurn
    (@invoked_single constantDigest) reachable_broken _ _ hturn fun s t hrun => by
      have hfirst := congrArg Prod.fst hrun
      rw [show brokenStart.receiving = singleStart from rfl, hbegin] at hfirst
      cases hfirst
  have hlost : receiptsOnDisk singleReceiver brokenEnd.fs = some [0#64] := by decide
  rw [hlost] at hdisk
  cases hdisk
  have hbit : bitmapContains (@bitmapAtEvents constantDigest singleReceiver singleStart
      brokenTurn.socket) 0 = true := by decide
  exact absurd (hkept 0 hbit) (by decide)

/-- The rule, for a turn in which the chunk arrives and the sender then cancels. -/
theorem abort_keeps_receipts_cancelled :
    ReceiptsKept singleReceiver [1#64]
      ((@receiveTurn constantDigest singleReceiver (partOf singleFile).names singleStart
        { socket := .ok (some singleDatagram), events := [.cancel []] }).run siteMachine
          brokenStart.site).2.fs := by
  have hbegin : ((@beginTurn constantDigest singleReceiver (partOf singleFile).names singleStart
      { socket := .ok (some singleDatagram), events := [.cancel []] }).run siteMachine
        brokenStart.site).1 = .error (.message "sender cancelled transfer") := by decide
  have hturn : ((@receiveTurn constantDigest singleReceiver (partOf singleFile).names singleStart
      { socket := .ok (some singleDatagram), events := [.cancel []] }).run siteMachine
        brokenStart.site).1 = .error (.message "sender cancelled transfer") := by decide
  refine (@abort_keeps_receipts_iff singleReceiver _ brokenStart constantDigest
    { socket := .ok (some singleDatagram), events := [.cancel []] } _ _
      (@invoked_single constantDigest) reachable_broken (Prod.ext hturn rfl) ?_).2 ?_
  · intro s t hrun
    have hfirst := congrArg Prod.fst hrun
    rw [show brokenStart.receiving = singleStart from rfl, hbegin] at hfirst
    cases hfirst
  · rintro ⟨-, -, h | h⟩
    · exact absurd h (by decide)
    · exact absurd h.1 (by decide)

end Example

end PacketTide
