import PacketTide.Proofs.StartProofs

/-!
# What a turn of the loop does

A turn takes a datagram and the events, and then completes the transfer or goes on with a checkpoint
and a report.
-/

namespace PacketTide

open Effects FileSystem FS Prog Text ResumeState

/-- The state after events that let the loop go on. -/
def Receiving.hear (s : Receiving) (clock : Instant) (events : List ControlEvent) : Receiving :=
  if .ended ∈ events then s.end clock else s

theorem strict_receiveDatagram [Sha256] {key : Hash} {layout : ChunkLayout} {file : Loc} {s : Receiving}
    {datagram : List UInt8} : (receiveDatagram key layout file s datagram).Strict refuse := by
  unfold receiveDatagram
  split
  · exact strict_done _
  · refine Strict.bind (strict_ite ?_ (strict_done _)) fun _ => strict_done _
    exact strict_ask.bind fun _ => strict_ite strict_advance (strict_done _)

theorem strict_flushReceipts {pid : Nat} {file : Loc} {s : Receiving} :
    (flushReceipts pid file s).Strict refuse :=
  strict_ite strict_checkpoint (strict_done _)

theorem strict_checkpointIfDue {pid : Nat} {file : Loc} {s : Receiving} {turn : Turn} :
    (checkpointIfDue pid file s turn).Strict refuse :=
  strict_ite (strict_checkpoint.bind fun _ => strict_done _) (strict_done _)

/-- What the socket hands over and what becomes of it. -/
inductive TookSocket [Sha256] (r : UdpReceiver) (s : Receiving) (content : List UInt8) :
    Except Errno (Option (List UInt8)) → Receiving → List UInt8 → Prop where
  | none : TookSocket r s content (.ok none) s content
  | datagram {datagram content' : List UInt8} {s' : Receiving}
      (h : Took r s content datagram s' content') :
      TookSocket r s content (.ok (some datagram)) s' content'

section

variable {r : UdpReceiver} {file : Loc} {content : List UInt8} {s : Receiving} {fs : FS}
  {site : Site}

theorem Receiving.hashed_hear (s : Receiving) (clock : Instant) (events : List ControlEvent) :
    (s.hear clock events).hashed = s.hashed ∧ (s.hear clock events).hashFrontier = s.hashFrontier := by
  unfold Receiving.hear
  split <;> exact ⟨rfl, rfl⟩

theorem Receiving.end_end (s : Receiving) (clock : Instant) :
    (s.end clock).end clock = s.end clock := by
  unfold Receiving.end
  rcases s.endedAt with _ | _ <;> rfl

theorem Receiving.hear_cons_ended (s : Receiving) (clock : Instant) (events : List ControlEvent) :
    (s.end clock).hear clock events = s.hear clock (.ended :: events) := by
  unfold Receiving.hear
  rw [if_pos (List.mem_cons_self)]
  split
  · exact s.end_end clock
  · rfl

/-- Events that let the loop go on are answered, and change nothing but the end of the first pass. -/
theorem returns_takeEvents (pid : Nat) (file : Loc) (clock : Instant) (events : List ControlEvent) :
    Returns siteMachine siteRefuse (takeEvents pid file clock s events)
      (fun s' t => s' = s.hear clock events ∧ t.fs = site.fs ∧
        ∃ pongs, t.control.sent = site.control.sent ++ List.replicate pongs (ascii "PONG")) site := by
  induction events generalizing s site with
  | nil => exact returns_ok ⟨rfl, rfl, 0, by rw [List.replicate_zero, List.append_nil]⟩
  | cons event events ih =>
    cases event with
    | ended =>
      refine ih.mono fun s' t h => ⟨?_, h.2⟩
      rw [h.1, Receiving.hear_cons_ended]
    | ping =>
      refine returns_bind (returns_sendControl fun control _ hsent => ih.mono fun s' t h => ?_)
      obtain ⟨rfl, hfs, pongs, hpongs⟩ := h
      refine ⟨?_, hfs, pongs + 1, ?_⟩
      · unfold Receiving.hear
        simp
      · rw [hpongs, hsent, List.replicate_succ, List.append_assoc, List.singleton_append]
    | completeAck => exact returns_error
    | cancel reason => exact returns_bind fun a t _ => returns_error
    | error text => exact returns_bind fun a t _ => returns_error

theorem TookSocket.sound [Sha256] {socket : Except Errno (Option (List UInt8))} {s' : Receiving}
    {content' : List UInt8} (hb : r.hello.Bounded) (hs : s.Sound r content)
    (h : TookSocket r s content socket s' content') : s'.Sound r content' := by
  cases h with
  | none => exact hs
  | datagram h => exact h.sound hb hs

theorem Receiving.Sound.hear (h : s.Sound r content) (clock : Instant) (events : List ControlEvent) :
    (s.hear clock events).Sound r content := by
  unfold Receiving.hear
  split
  · exact { h with }
  · exact h

/-- What the first part of a turn leaves. -/
structure Begun [Sha256] (r : UdpReceiver) (file : Loc) (s : Receiving) (content : List UInt8)
    (turn : Turn) (sent : List Str) (fs : FS) (s' : Receiving) (content' : List UInt8) (t : Site) :
    Prop where
  took : ∃ s₁, TookSocket r s content turn.socket s₁ content' ∧
    s' = s₁.hear turn.endedClock turn.events
  looks : t.fs.Looks fs.home (Function.update fs.view file (some (.file content')))
  disk : OnDisk r.pid r.destination file content' t.fs
  sound : s'.Sound r content'
  sent_eq : ∃ pongs, t.control.sent = sent ++ List.replicate pongs (ascii "PONG")

theorem returns_takeSocket [Sha256] (hb : r.hello.Bounded) (hs : s.Sound r content)
    (hd : OnDisk r.pid r.destination file content fs) (socket : Except Errno (Option (List UInt8))) :
    Returns machine refuse (takeSocket r file s socket) (fun s₁ t => ∃ content',
      TookSocket r s content socket s₁ content' ∧
        t.Looks fs.home (Function.update fs.view file (some (.file content')))) fs := by
  rcases socket with e | _ | datagram
  · exact returns_bind fun a t _ => returns_error
  · refine returns_ok ⟨content, .none, rfl, ?_⟩
    rw [← hd.shape, Function.update_eq_self]
  · obtain ⟨s₁, content', t, hrun, htook, hl⟩ := run_receiveDatagram hb hs hd datagram
    exact strict_receiveDatagram.returns hrun ⟨content', .datagram htook, hl⟩

theorem returns_beginTurn [Sha256] (hb : r.hello.Bounded) (hs : s.Sound r content)
    (hd : OnDisk r.pid r.destination file content site.fs) (turn : Turn) :
    Returns siteMachine siteRefuse (beginTurn r file s turn)
      (fun s' t => ∃ content', Begun r file s content turn site.control.sent site.fs s' content' t) site := by
  refine returns_bind (returns_onFiles ((returns_takeSocket hb hs hd turn.socket).mono
    fun s₁ t h => ?_))
  obtain ⟨content', htook, hl⟩ := h
  refine (returns_takeEvents r.pid file turn.endedClock turn.events).mono fun s' u h => ?_
  obtain ⟨rfl, hfs, hpongs⟩ := h
  have hfs : u.fs = t := hfs
  rw [← hfs] at hl
  exact ⟨content', ⟨s₁, htook, rfl⟩, hl, hd.holds hl, (htook.sound hb hs).hear _ _, hpongs⟩

/-! ## The rest of a turn -/

/-- The state after the check for a checkpoint. -/
def Receiving.checkpointed (s : Receiving) (turn : Turn) : Receiving :=
  if s.checkpointDirty ∧ resumeCheckpointInterval ≤ elapsed s.lastCheckpoint turn.checkpointClock then
    { s with checkpointDirty := false, lastCheckpoint := turn.checkpointedClock }
  else s

theorem Receiving.hashed_checkpointed (s : Receiving) (turn : Turn) :
    (s.checkpointed turn).hashed = s.hashed ∧ (s.checkpointed turn).hashFrontier = s.hashFrontier := by
  unfold Receiving.checkpointed
  split <;> exact ⟨rfl, rfl⟩

theorem Receiving.Sound.checkpointed (h : s.Sound r content) (turn : Turn) :
    (s.checkpointed turn).Sound r content := by
  unfold Receiving.checkpointed
  split
  · exact { h with }
  · exact h

/-- The view after the check for a checkpoint. -/
def checkpointedView (r : UdpReceiver) (s : Receiving) (turn : Turn) (fs : FS) : View :=
  if s.checkpointDirty ∧ resumeCheckpointInterval ≤ elapsed s.lastCheckpoint turn.checkpointClock then
    checkpointed r.pid fs.home r.destination (mapBytes s.resume.identity s.resume.bitmap) fs.view
  else fs.view

theorem run_checkpointIfDue (hs : s.Sound r content)
    (hd : OnDisk r.pid r.destination file content fs) (turn : Turn) :
    ∃ t, (checkpointIfDue r.pid file s turn).run machine fs = (.ok (s.checkpointed turn), t) ∧
      t.Looks fs.home (checkpointedView r s turn fs) := by
  unfold checkpointIfDue Receiving.checkpointed checkpointedView
  split
  · obtain ⟨t, hrun, hl⟩ := hd.checkpoint hs.mapPath
    exact ⟨t, run_bind_ok hrun, hl⟩
  · exact ⟨fs, rfl, rfl, rfl⟩

theorem OnDisk.checkpointedView {t : FS} {turn : Turn}
    (hd : OnDisk r.pid r.destination file content fs)
    (hl : t.Looks fs.home (checkpointedView r s turn fs)) :
    OnDisk r.pid r.destination file content t := by
  unfold PacketTide.checkpointedView at hl
  split at hl
  · exact hd.checkpointed hl
  · exact hd.looks hl

/-- Whether a report is due. -/
def ReportDue (hello : Hello) (s : Receiving) (turn : Turn) : Prop :=
  millis hello.reportInterval ≤ elapsed s.lastReport turn.reportClock

/-- The state and the lines that a turn ends with. -/
inductive Reported (hello : Hello) (s : Receiving) (turn : Turn) : Receiving → List Str → Prop where
  | quiet (h : ¬ReportDue hello s turn) : Reported hello s turn s []
  | due (h : ReportDue hello s turn) : Reported hello s turn (s.report hello turn).1
      [formatFeedbackReport (s.report hello turn).1.telemetry (s.report hello turn).2]

theorem Receiving.Sound.report (h : s.Sound r content) (turn : Turn) :
    (s.report r.hello turn).1.Sound r content := { h with }

theorem Reported.sound {turn : Turn} {s' : Receiving} {lines : List Str} (hs : s.Sound r content)
    (h : Reported r.hello s turn s' lines) : s'.Sound r content := by
  cases h with
  | quiet _ => exact hs
  | due _ => exact hs.report turn

theorem Reported.hashed_eq {hello : Hello} {turn : Turn} {s' : Receiving} {lines : List Str}
    (h : Reported hello s turn s' lines) :
    s'.hashed = s.hashed ∧ s'.hashFrontier = s.hashFrontier := by
  cases h with
  | quiet _ => exact ⟨rfl, rfl⟩
  | due _ => exact ⟨rfl, rfl⟩

theorem returns_reportIfDue (hello : Hello) (turn : Turn) :
    Returns siteMachine siteRefuse (reportIfDue hello s turn)
      (fun s' t => t.fs = site.fs ∧ ∃ lines, Reported hello s turn s' lines ∧
        (∀ line ∈ lines, controlPayload line) ∧
        t.control.sent = site.control.sent ++ lines) site := by
  unfold reportIfDue
  split
  next hdue =>
    refine returns_bind (returns_sendControl fun control hpayload hsent => returns_ok ?_)
    exact ⟨rfl, _, .due hdue, List.forall_mem_singleton.2 hpayload, hsent⟩
  next hquiet =>
    exact returns_ok ⟨rfl, [], .quiet hquiet, by simp, by rw [List.append_nil]⟩

/-- What a turn leaves, after which the loop goes on. -/
structure WentOn [Sha256] (r : UdpReceiver) (file : Loc) (s : Receiving) (content : List UInt8)
    (turn : Turn) (site : Site) (s' : Receiving) (content' : List UInt8) (t : Site) : Prop where
  begun : ∃ s₁ s₂ u pongs lines, TookSocket r s content turn.socket s₁ content' ∧
    s₂ = s₁.hear turn.endedClock turn.events ∧
    u.Looks site.fs.home (Function.update site.fs.view file (some (.file content'))) ∧
    ¬(s₂.ended ∧ s₂.resume.receivedCount = r.hello.chunks) ∧
    t.fs.Looks u.home (checkpointedView r s₂ turn u) ∧
    Reported r.hello (s₂.checkpointed turn) turn s' lines ∧
    (∀ line ∈ lines, controlPayload line) ∧
    t.control.sent = site.control.sent ++ List.replicate pongs (ascii "PONG") ++ lines
  disk : OnDisk r.pid r.destination file content' t.fs
  sound : s'.Sound r content'

/-- A turn after which the loop goes on. -/
theorem wentOn_of_succeeds [Sha256] (hb : r.hello.Bounded) (hs : s.Sound r content)
    (hd : OnDisk r.pid r.destination file content site.fs) {turn : Turn} {s' : Receiving} {t : Site}
    (h : Succeeds siteMachine siteRefuse (receiveTurn r file s turn) site (.running s') t) :
    ∃ content', WentOn r file s content turn site s' content' t := by
  obtain ⟨s₂, u, hbegin, hrest⟩ := succeeds_bind h
  obtain ⟨content', hbegun⟩ := returns_beginTurn hb hs hd turn s₂ u hbegin
  obtain ⟨s₁, htook, hs₂⟩ := hbegun.took
  obtain ⟨pongs, hpongs⟩ := hbegun.sent_eq
  split at hrest
  · obtain ⟨s₃, w, -, hdone⟩ := succeeds_bind hrest
    cases (succeeds_done hdone).1
  next hgo =>
    obtain ⟨x, hcheckpoint, hx⟩ := run_checkpointIfDue hbegun.sound hbegun.disk turn
    obtain ⟨s₃, w, hrun₃, hrest⟩ := succeeds_bind hrest
    obtain ⟨hrun₃, hcontrol⟩ := succeeds_onFiles hrun₃
    have heq := strict_checkpointIfDue.run_of_succeeds hrun₃
    rw [hcheckpoint] at heq
    cases heq
    obtain ⟨s₄, y, hreport, hdone⟩ := succeeds_bind hrest
    obtain ⟨hs₄, rfl⟩ := succeeds_done hdone
    cases hs₄
    obtain ⟨hfs, lines, hreported, hlines, hsent⟩ := returns_reportIfDue r.hello turn _ _ hreport
    refine ⟨content', ⟨s₁, s₂, u.fs, pongs, lines, htook, hs₂, hbegun.looks, hgo, ?_, hreported,
      hlines, ?_⟩, ?_, hreported.sound (hbegun.sound.checkpointed turn)⟩
    · rw [hfs]
      exact hx
    · rw [hsent, hcontrol, ← hpongs]
    · rw [hfs]
      exact hbegun.disk.checkpointedView hx

end

end PacketTide
