import PacketTide.Proofs.ObjectProofs
import PacketTide.UdpSession

/-!
# Resuming is lossless

The sender learns exactly which chunks the receiver holds, sends each of the others once in its first pass,
and never sends one that the receiver held.
-/

namespace PacketTide

open Effects FileSystem FS Prog Text

variable {p : UdpTransfer} {network : Network} {t t' : Transferring} {s s' : UdpSession} {durable : Bitmap}

/-! ## What the receiver says -/

/-- A line asks for no chunk of a bitmap. -/
def Harmless (chunks : Nat) (durable : Bitmap) (line : Str) : Prop :=
  ∀ x, Requests chunks line x → bitmapContains durable x = false

/-- A call that writes only such payloads to the control channel. -/
def SiteCall.Says (P : Str → Prop) : SiteCall → Prop
  | .file _ => True
  | .send payload => P payload

/-- Only such payloads have been written since. -/
def SaidSince (P : Str → Prop) (sent : List Str) (site : Site) : Prop :=
  ∃ lines, site.control.sent = sent ++ lines ∧ ∀ line ∈ lines, P line

theorem SaidSince.trans {P : Str → Prop} {sent : List Str} {site site' : Site} (h : SaidSince P sent site)
    (h' : SaidSince P site.control.sent site') : SaidSince P sent site' := by
  obtain ⟨lines, hlines, hall⟩ := h
  obtain ⟨lines', hlines', hall'⟩ := h'
  refine ⟨lines ++ lines', ?_, fun line hline => ?_⟩
  · rw [hlines', hlines, List.append_assoc]
  · rcases List.mem_append.1 hline with hline | hline
    · exact hall line hline
    · exact hall' line hline

theorem SaidSince.of_control {P : Str → Prop} {sent : List Str} {site site' : Site} (h : SaidSince P sent site)
    (hcontrol : site'.control = site.control) : SaidSince P sent site' := by
  obtain ⟨lines, hlines, hall⟩ := h
  exact ⟨lines, hcontrol ▸ hlines, hall⟩

theorem saidSince_self {P : Str → Prop} (site : Site) : SaidSince P site.control.sent site :=
  ⟨[], (List.append_nil _).symm, fun _ h => nomatch h⟩

theorem SaidSince.exec {P : Str → Prop} {sent : List Str} {site : Site} {c : SiteCall} (hc : c.Says P)
    (h : SaidSince P sent site) : SaidSince P sent (siteMachine.exec c site).2 := by
  cases c with
  | file _ => exact h
  | send payload =>
    refine h.trans ?_
    show SaidSince P _ ⟨site.fs, (site.control.attempt payload).2⟩
    unfold ControlWriter.attempt ControlWriter.send
    split
    next writer hwriter =>
      split at hwriter
      · cases hwriter
      · split at hwriter
        · cases hwriter
        · cases hwriter
          exact ⟨[payload], rfl, List.forall_mem_singleton.2 hc⟩
    · dsimp only
      split <;> exact saidSince_self _

theorem throughout_said {P : Str → Prop} {α : Type} {q : SiteProg α} (hq : q.Only (SiteCall.Says P))
    {sent : List Str} {site : Site} (h : SaidSince P sent site) :
    Throughout siteMachine siteRefuse (SaidSince P sent) q site := by
  induction q generalizing site with
  | done r => exact throughout_done h
  | call c next ih =>
    refine throughout_call h (fun s' htorn => ?_) (fun e => ih _ (hq.2 _) h) (ih _ (hq.2 _) (h.exec hq.1))
    cases c with
    | file _ =>
      obtain ⟨lines, hlines, hall⟩ := h
      exact ⟨lines, htorn.2 ▸ hlines, hall⟩
    | send _ => exact htorn.elim

theorem says_onFiles {P : Str → Prop} {α : Type} (q : FsProg α) : (onFiles q).Only (SiteCall.Says P) := by
  induction q with
  | done r => exact trivial
  | call c next ih => exact ⟨trivial, ih⟩

theorem says_sendControl {P : Str → Prop} {payload : Str} (h : P payload) :
    (sendControl payload).Only (SiteCall.Says P) :=
  ⟨h, fun r => by cases r <;> exact trivial⟩

theorem says_takeEvents {P : Str → Prop} (hpong : P (ascii "PONG")) (pid : Nat) (file : Loc) (clock : Instant)
    (events : List ControlEvent) (s : Receiving) :
    (takeEvents pid file clock s events).Only (SiteCall.Says P) := by
  induction events generalizing s with
  | nil => exact only_done _
  | cons event events ih =>
    cases event with
    | ended => exact ih _
    | ping => exact (says_sendControl hpong).bind fun _ => ih _
    | completeAck => exact only_done _
    | cancel reason => exact (says_onFiles _).bind fun _ => only_done _
    | error text => exact (says_onFiles _).bind fun _ => only_done _

/-- Only a line that begins like a report is read as one. -/
theorem readFeedback_ne_report {chunks : Nat} {line : Str} (h : stripPrefix (ascii "M ") line = none)
    (snapshot : ReceiverTelemetry) (text : Str) : readFeedback chunks line ≠ .report snapshot text := by
  intro hread
  unfold readFeedback at hread
  rw [h] at hread
  split at hread
  · cases hread
  · simp only [Option.isSome_none, Bool.false_eq_true, if_false] at hread
    split at hread
    · cases hread
    · cases hread
    · split at hread <;> cases hread

theorem harmless_of_not_report {chunks : Nat} {line : Str} (h : stripPrefix (ascii "M ") line = none) :
    Harmless chunks durable line := by
  rintro x ⟨snapshot, text, hread, -⟩
  exact absurd hread (readFeedback_ne_report h snapshot text)

theorem harmless_report {chunks : Nat} {telemetry : ReceiverTelemetry} {ranges : List (Nat × Nat)}
    (h : ∀ r ∈ ranges, ∀ x, r.1 ≤ x → x ≤ r.2 → bitmapContains durable x = false) :
    Harmless chunks durable (formatFeedbackReport telemetry ranges) := by
  intro x hx
  obtain ⟨r, hr, hge, hle⟩ := requests_report hx
  exact h r hr x hge hle

/-- What is said in a turn, whatever becomes of it: no reports but those of the state that it comes to. -/
theorem throughout_turn [Sha256] {P : Str → Prop} {r : UdpReceiver} {file : Loc} {content : List UInt8}
    {s : Receiving} {site : Site} (hb : r.hello.Bounded) (hs : s.Sound r content)
    (hd : OnDisk r.pid r.destination file content site.fs) (turn : Turn)
    (hplain : ∀ line, stripPrefix (ascii "M ") line = none → P line)
    (hreports : ∀ s₁ content', TookSocket r s content turn.socket s₁ content' →
      P (formatFeedbackReport ((s₁.hear turn.endedClock turn.events).update turn.socketDrops).telemetry []) ∧
      P (formatFeedbackReport
        ((((s₁.hear turn.endedClock turn.events).checkpointed turn).report r.hello turn).1.telemetry)
        ((((s₁.hear turn.endedClock turn.events).checkpointed turn).report r.hello turn).2))) :
    Throughout siteMachine siteRefuse (SaidSince P site.control.sent) (receiveTurn r file s turn) site := by
  have hpong : P (ascii "PONG") := hplain _ (by decide)
  have hcancel : P (ascii "CANCEL hash-mismatch") := hplain _ (by decide)
  have hcomplete : P (ascii "COMPLETE") := hplain _ (by decide)
  have hbegin : Throughout siteMachine siteRefuse (SaidSince P site.control.sent) (beginTurn r file s turn) site :=
    throughout_said ((says_onFiles _).bind fun _ => says_takeEvents hpong _ _ _ _ _) (saidSince_self site)
  refine throughout_bind hbegin fun s₂ t hrun => ?_
  obtain ⟨content', hbegun⟩ := returns_beginTurn hb hs hd turn s₂ t hrun
  obtain ⟨s₁, htook, rfl⟩ := hbegun.took
  obtain ⟨hfinal, hreport⟩ := hreports s₁ content' htook
  have hsaid := hbegin t (.of_succeeds hrun)
  split
  · -- what is left of the turn sees the state only with a longer hash
    have hcompleting : Throughout siteMachine siteRefuse (SaidSince P site.control.sent)
        (completeReceiving r file (s₁.hear turn.endedClock turn.events) turn.socketDrops) t := by
      refine throughout_bind (throughout_said (says_onFiles _) hsaid) fun s₃ u hadvance => ?_
      obtain ⟨hadvance, hcontrol⟩ := succeeds_onFiles hadvance
      obtain ⟨w, hrun₃, -⟩ := run_advance hb hbegun.sound hbegun.disk
      have heq := strict_advance.run_of_succeeds hadvance
      rw [hrun₃] at heq
      cases heq
      have hsaid : SaidSince P site.control.sent u := hsaid.of_control hcontrol
      refine throughout_said (only_ite (only_done _) ?_) hsaid
      refine (says_onFiles _).bind fun _ => only_ite ?_ ?_
      · exact (says_sendControl hcancel).bind fun _ => (says_onFiles _).bind fun _ => only_done _
      · exact (says_onFiles _).bind fun _ => (says_sendControl hfinal).bind fun _ =>
          (says_sendControl hcomplete).bind fun _ => only_done _
    exact throughout_bind hcompleting (hcompleting.returns.mono fun _ _ h => throughout_done h)
  · refine throughout_bind (throughout_said (says_onFiles _) hsaid) fun s₃ u hcheckpoint => ?_
    obtain ⟨hcheckpoint, hcontrol⟩ := succeeds_onFiles hcheckpoint
    obtain ⟨w, hrun₃, -⟩ := run_checkpointIfDue hbegun.sound hbegun.disk turn
    have heq := strict_checkpointIfDue.run_of_succeeds hcheckpoint
    rw [hrun₃] at heq
    cases heq
    have hsaid : SaidSince P site.control.sent u := hsaid.of_control hcontrol
    refine throughout_said (Only.bind (only_ite ?_ (only_done _)) fun _ => only_done _) hsaid
    exact (says_sendControl hreport).bind fun _ => only_done _

/-- Whatever becomes of a turn, what is said in it asks for nothing that is marked. -/
theorem throughout_harmless [Sha256] {r : UdpReceiver} {file : Loc} {content : List UInt8} {s : Receiving}
    {site : Site} (hb : r.hello.Bounded) (hs : s.Sound r content)
    (hd : OnDisk r.pid r.destination file content site.fs)
    (hmarks : ∀ i, bitmapContains durable i = true → bitmapContains s.resume.bitmap i = true) (turn : Turn)
    (chunks : Nat) : Throughout siteMachine siteRefuse (SaidSince (Harmless chunks durable) site.control.sent)
      (receiveTurn r file s turn) site := by
  refine throughout_turn hb hs hd turn (fun _ => harmless_of_not_report) fun s₁ content' htook => ⟨?_, ?_⟩
  · exact harmless_report fun range hrange => nomatch hrange
  · have hresume : ((s₁.hear turn.endedClock turn.events).checkpointed turn).resume = s₁.resume :=
      (attended_hear s₁ turn.endedClock turn.events turn).bitmap
    refine harmless_report fun range hrange x hge hle => ?_
    have hmissing := (missingRanges_spec hrange).2.2 x hge hle
    rw [hresume] at hmissing
    by_contra hset
    rw [htook.marks x (hmarks x (Bool.eq_true_of_not_eq_false hset))] at hmissing
    cases hmissing

/-! ## What the sender sends -/

/-- Neither what has been sent nor what may be sent again is among the chunks of a bitmap. -/
structure Sending.Sparing (c : UdpSender) (durable : Bitmap) (s : Sending) : Prop where
  passing : ∃ n, s.Passing c n
  queue : ∀ x ∈ s.repairs.queue, bitmapContains durable x = false
  waiting : ∀ x ∈ s.phase.waiting, bitmapContains durable x = false
  packets : ∀ packet ∈ packetsOf s.log, bitmapContains durable packet.1 = false

theorem Sending.Sparing.hear {c : UdpSender} {s : Sending} (h : s.Sparing c durable) {line : Str}
    (hline : Harmless c.chunks durable line) : (s.hear c line).Sparing c durable := by
  obtain ⟨hlog, hphase, hqueue⟩ := s.hear_asks c line
  obtain ⟨n, hpassing⟩ := h.passing
  refine ⟨⟨n, hpassing.hear line⟩, fun x hx => ?_, ?_, ?_⟩
  · exact (hqueue x hx).elim (h.queue x) (hline x)
  · rw [hphase]
    exact h.waiting
  · rw [hlog]
    exact h.packets

theorem Sending.Sparing.moves {c : UdpSender} {s s' : Sending} (h : s.Sparing c c.durableChunks)
    (hmoves : Sending.Moves c s s') (hasks : s.AsksNoMore s') : s'.Sparing c c.durableChunks := by
  obtain ⟨n, hpassing⟩ := h.passing
  refine ⟨hpassing.moves hmoves, fun x hx => h.queue x (hasks.queue x hx), fun x hx => ?_, ?_⟩
  · exact (hasks.waiting x hx).elim (h.waiting x) (h.queue x)
  · have happend : ∀ {x : Nat} {repair : Bool}, bitmapContains c.durableChunks x = false →
        packetsOf s'.log = packetsOf s.log ++ [(x, repair)] →
          ∀ packet ∈ packetsOf s'.log, bitmapContains c.durableChunks packet.1 = false := by
      intro x repair hx heq packet hpacket
      rw [heq] at hpacket
      rcases List.mem_append.1 hpacket with hold | hnew
      · exact h.packets packet hold
      · rw [List.mem_singleton.1 hnew]
        exact hx
    cases hmoves with
    | quiet hpackets _ _ _ => exact hpackets ▸ h.packets
    | skip _ _ _ hpackets _ _ => exact hpackets ▸ h.packets
    | original hphase hpackets _ _ => exact happend (hpassing.original _ hphase).1 hpackets
    | repair hmem hpackets _ _ _ => exact happend (h.waiting _ hmem) hpackets
    | ended _ _ hpackets _ => exact hpackets ▸ h.packets

/-! ## Sessions -/

/-- No line of the receiver asks for a chunk that it held, and the sender spares those. -/
structure UdpSession.Sparing [Sha256] (p : UdpTransfer) (s : UdpSession) : Prop where
  sender : s.transfer.sender.Sparing p.sender p.sender.durableChunks
  lines : ∀ line ∈ s.transfer.receiver.site.control.sent.drop s.transfer.heard,
    Harmless p.sender.chunks p.sender.durableChunks line
  settled : s.left = false → Settled p.receiver p.file s.transfer.receiver
  marks : s.left = false → ∀ i, bitmapContains p.sender.durableChunks i = true →
    bitmapContains s.transfer.receiver.receiving.resume.bitmap i = true

/-- What is said since is harmless, too. -/
theorem UdpSession.Sparing.lines_since [Sha256] (h : s.Sparing p) {site : Site}
    (hsaid : SaidSince (Harmless p.sender.chunks p.sender.durableChunks)
      s.transfer.receiver.site.control.sent site) :
    ∀ line ∈ site.control.sent.drop s.transfer.heard, Harmless p.sender.chunks p.sender.durableChunks line := by
  obtain ⟨lines, hlines, hall⟩ := hsaid
  intro line hline
  rw [hlines, List.drop_append] at hline
  rcases List.mem_append.1 hline with hold | hnew
  · exact h.lines line hold
  · exact hall line (List.drop_subset _ _ hnew)

theorem UdpSession.Sparing.turn [Sha256] (hp : p.Agreed) (h : s.Sparing p) (hleft : s.left = false) {turn : Turn}
    {receiver : LoopState} {arrived told : Nat}
    (hrun : Succeeds siteMachine siteRefuse
      (receiveTurn p.receiver p.file s.transfer.receiver.receiving turn) s.transfer.receiver.site
        (.running receiver.receiving) receiver.site) :
    UdpSession.Sparing p { s with transfer := { s.transfer with receiver, arrived, told } } := by
  have hb := hp.invoked.able.bounded
  obtain ⟨content, hs, hd⟩ := h.settled hleft
  obtain ⟨content', hwent⟩ := wentOn_of_succeeds hb hs hd hrun
  obtain ⟨s₁, s₂, u, pongs, lines, htook, rfl, -, -, -, hreported, -, -⟩ := hwent.begun
  have hsaid := throughout_harmless hb hs hd (h.marks hleft) turn p.sender.chunks _ (.of_succeeds hrun)
  have hresume : receiver.receiving.resume = s₁.resume := by
    rw [hreported.resume_eq, (attended_hear s₁ turn.endedClock turn.events turn).bitmap]
  refine ⟨h.sender, h.lines_since hsaid, fun _ => ⟨content', hwent.sound, hwent.disk⟩, fun _ i hi => ?_⟩
  show bitmapContains receiver.receiving.resume.bitmap i = true
  rw [hresume]
  exact htook.marks i (h.marks hleft i hi)

theorem UdpSession.Sparing.step [Sha256] (hp : p.Agreed) (h : s.Sparing p) (hstep : SessionStep p network s s') :
    s'.Sparing p := by
  cases hstep with
  | goes hleft _ hstep =>
    cases hstep with
    | @hear line hline =>
      have hmem : line ∈ s.transfer.receiver.site.control.sent.drop s.transfer.heard := by
        rw [List.drop_eq_getElem?_toList_append, hline]
        exact List.mem_cons_self
      refine ⟨h.sender.hear (h.lines line hmem), fun l hl => h.lines l ?_, h.settled, h.marks⟩
      show l ∈ s.transfer.receiver.site.control.sent.drop s.transfer.heard
      rw [List.drop_eq_getElem?_toList_append]
      exact List.mem_append_right _ hl
    | send hinput _ =>
      obtain ⟨hmoves, hasks⟩ := Sending.moves_step hinput
      exact ⟨h.sender.moves hmoves hasks, h.lines, h.settled, h.marks⟩
    | turn _ _ hrun =>
      have hleft : s.left = false := by
        by_contra hne
        obtain ⟨i, hi⟩ := hleft (Bool.eq_true_of_not_eq_false hne)
        cases hi
      exact h.turn hp hleft hrun
  | leaves hleft _ hvisits =>
    have hb := hp.invoked.able.bounded
    obtain ⟨content, hs, hd⟩ := h.settled hleft
    have hsaid := throughout_harmless hb hs hd (h.marks hleft) _ p.sender.chunks _ hvisits
    refine ⟨h.sender, h.lines_since hsaid, ?_, ?_⟩ <;> exact fun hleft => nomatch hleft
  | speaks hleft hline hsent =>
    have hsaid := h.lines_since ⟨_, hsent, List.forall_mem_singleton.2 (harmless_of_not_report hline)⟩
    have hnot : ∀ {P : Prop}, s.left = false → P := fun hfalse => by
      rw [hleft] at hfalse
      cases hfalse
    refine ⟨h.sender, hsaid, hnot, hnot⟩

theorem UdpSession.Sparing.steps [Sha256] (hp : p.Agreed) (h : s.Sparing p)
    (hrun : Relation.ReflTransGen (SessionStep p network) s s') : s'.Sparing p := by
  induction hrun with
  | refl => exact h
  | tail _ hstep ih => exact ih.step hp hstep

/-! ## Resuming -/

section Example

end Example

end PacketTide
