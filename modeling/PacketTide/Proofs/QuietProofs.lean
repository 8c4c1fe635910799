import PacketTide.Effects.Proofs.ObeysProofs
import PacketTide.Proofs.SiteProofs
import PacketTide.ReceiveOn

/-!
# What a receiver has said

Only the end of a transfer tells the sender that the object is there. Up to then a receiver says other things, and
what it has said stays said.
-/

namespace PacketTide

open Effects FileSystem Prog Text

variable {α β : Type} {site t u : Site} {sent : List Str} {payload : Str} {p : SiteProg α}

/-- The sender has not been told, after some payloads. -/
def Quiet (sent : List Str) (t : Site) : Prop := ∃ said, t.control.sent = sent ++ said ∧ ascii "COMPLETE" ∉ said

theorem quiet_self : Quiet site.control.sent site := ⟨[], (List.append_nil _).symm, List.not_mem_nil⟩

theorem Quiet.not_told (h : Quiet sent t) : ¬Told sent t := by
  rintro ⟨said, hsaid, hmem⟩
  obtain ⟨said', hsaid', hnot⟩ := h
  rw [hsaid'] at hsaid
  rw [← List.append_cancel_left hsaid] at hmem
  exact hnot hmem

theorem Quiet.congr (h : Quiet sent t) (hsame : u.control.sent = t.control.sent) : Quiet sent u := by
  obtain ⟨said, hsaid, hnot⟩ := h
  exact ⟨said, hsame.trans hsaid, hnot⟩

theorem Quiet.append {more : List Str} (h : Quiet sent t) (hmore : u.control.sent = t.control.sent ++ more)
    (hnot : ascii "COMPLETE" ∉ more) : Quiet sent u := by
  obtain ⟨said, hsaid, hnot'⟩ := h
  refine ⟨said ++ more, ?_, fun hmem => (List.mem_append.1 hmem).elim hnot' hnot⟩
  rw [hmore, hsaid, List.append_assoc]

theorem Quiet.tell {more : List Str} (h : Quiet sent t) (hmore : u.control.sent = t.control.sent ++ more)
    (hmem : ascii "COMPLETE" ∈ more) : Told sent u := by
  obtain ⟨said, hsaid, -⟩ := h
  refine ⟨said ++ more, ?_, List.mem_append_right _ hmem⟩
  rw [hmore, hsaid, List.append_assoc]

theorem Told.later (h : Told sent t) (hgrows : t.control.sent <+: u.control.sent) : Told sent u := by
  obtain ⟨said, hsaid, hmem⟩ := h
  obtain ⟨more, hmore⟩ := hgrows
  refine ⟨said ++ more, ?_, List.mem_append_left _ hmem⟩
  rw [← hmore, hsaid, List.append_assoc]

/-! ## Calls -/

/-- A call that does not tell the sender that the object is there. -/
def SiteCall.Silent : SiteCall → Prop
  | .file _ => True
  | .send payload => payload ≠ ascii "COMPLETE"

/-- What has been said stays said. -/
theorem sent_grows (p : SiteProg α) :
    Returns siteMachine siteRefuse p (fun _ t => site.control.sent <+: t.control.sent) site := by
  have hobeys : p.Obeys (fun _ => True) (fun _ _ => True) fun _ => True := Only.obeys (only_any p)
  refine (hobeys.returns (I := fun t => site.control.sent <+: t.control.sent) ⟨fun c s _ hs => ⟨trivial, ?_⟩,
    fun c s t _ hs ht => ?_, fun _ _ _ => trivial⟩ (List.prefix_refl _)).mono fun _ _ ht => ht.2
  · cases c with
    | file c => exact hs
    | send payload =>
      have hsent := sent_attempt s.control payload
      exact hs.trans ⟨_, hsent.symm⟩
  · cases c with
    | file c =>
      have hcontrol : t.control = s.control := ht.2
      rw [hcontrol]
      exact hs
    | send payload => cases ht

/-- Nobody is told by a silent program. -/
theorem upholds_quiet :
    Upholds siteMachine siteRefuse SiteCall.Silent (fun _ _ => True) (Quiet sent) := by
  refine ⟨fun c s hc hs => ⟨trivial, ?_⟩, fun c s t hc hs ht => ?_, fun _ _ _ => trivial⟩
  · cases c with
    | file c => exact hs
    | send payload =>
      refine hs.append (sent_attempt s.control payload) ?_
      split
      · rw [List.mem_singleton]
        exact fun heq => hc heq.symm
      · exact List.not_mem_nil
  · cases c with
    | file c =>
      have hcontrol : t.control = s.control := ht.2
      exact hs.congr (by rw [hcontrol])
    | send payload => cases ht

theorem throughout_quiet (hp : p.Only SiteCall.Silent) (h : Quiet sent site) :
    Throughout siteMachine siteRefuse (Quiet sent) p site :=
  hp.obeys.throughout upholds_quiet h

/-! ## Silent programs -/

theorem silent_onFiles (p : FsProg α) : (onFiles p).Only SiteCall.Silent := by
  induction p with
  | done r => exact trivial
  | call c next ih => exact ⟨trivial, fun r => ih r⟩

theorem silent_sendControl (h : payload ≠ ascii "COMPLETE") : (sendControl payload).Only SiteCall.Silent :=
  ⟨h, fun r => by cases r <;> exact trivial⟩

theorem silent_sendPayloads {payloads : List Str} (h : ∀ payload ∈ payloads, payload ≠ ascii "COMPLETE") :
    (sendPayloads payloads).Only SiteCall.Silent := by
  induction payloads with
  | nil => exact only_done _
  | cons payload payloads ih =>
    obtain ⟨hpayload, hpayloads⟩ := List.forall_mem_cons.1 h
    exact (silent_sendControl hpayload).bind fun _ => ih hpayloads

/-- A payload that begins with another letter. -/
theorem ne_complete (h : payload.head? ≠ (ascii "COMPLETE").head?) : payload ≠ ascii "COMPLETE" := by
  rintro rfl
  exact h rfl

theorem report_ne_complete (telemetry : ReceiverTelemetry) (ranges : List (Nat × Nat)) :
    formatFeedbackReport telemetry ranges ≠ ascii "COMPLETE" := by
  refine ne_complete ?_
  have hhead : (formatFeedbackReport telemetry ranges).head? = some 77 := rfl
  rw [hhead]
  decide

theorem ready_ne_complete (hello : Hello) : readyPayload hello ≠ ascii "COMPLETE" := by
  refine ne_complete ?_
  have hhead : (readyPayload hello).head? = some 82 := rfl
  rw [hhead]
  decide

theorem acceptance_ne_complete (hello : Hello) (reused : Reused) :
    ∀ payload ∈ acceptancePayloads hello reused, payload ≠ ascii "COMPLETE" := by
  have hletter : ∀ payload ∈ acceptancePayloads hello reused,
      payload.head? = some 82 ∨ payload.head? = some 72 ∨ payload.head? = some 71 := by
    intro payload hmem
    unfold acceptancePayloads at hmem
    simp only [List.cons_append, List.mem_cons, List.mem_append, List.not_mem_nil, or_false] at hmem
    rcases hmem with rfl | rfl | hmem | rfl
    · exact .inl rfl
    · exact .inl rfl
    · obtain ⟨entry, -, rfl⟩ := List.mem_map.1 hmem
      exact .inr (.inl rfl)
    · exact .inr (.inr rfl)
  intro payload hmem
  refine ne_complete ?_
  rcases hletter payload hmem with h | h | h
  · rw [h]
    decide
  · rw [h]
    decide
  · rw [h]
    decide

section Loop

variable {r : UdpReceiver} {file : Loc} {s : Receiving} {turn : Turn} {pid : Nat} {clock : Instant}

theorem silent_startReceiving [Sha256] : (startReceiving r clock).Only SiteCall.Silent :=
  (silent_onFiles _).bind fun _ => (silent_onFiles _).bind fun _ =>
    (silent_sendPayloads (acceptance_ne_complete _ _)).bind fun _ => only_done _

theorem silent_takeEvents (events : List ControlEvent) :
    (takeEvents pid file clock s events).Only SiteCall.Silent := by
  induction events generalizing s with
  | nil => exact only_done _
  | cons event events ih =>
    cases event with
    | ended => exact ih
    | ping => exact (silent_sendControl (by decide)).bind fun _ => ih
    | completeAck => exact only_done _
    | cancel reason => exact (silent_onFiles _).bind fun _ => only_done _
    | error text => exact (silent_onFiles _).bind fun _ => only_done _

theorem silent_beginTurn [Sha256] : (beginTurn r file s turn).Only SiteCall.Silent :=
  (silent_onFiles _).bind fun _ => silent_takeEvents _

theorem silent_reportIfDue {hello : Hello} : (reportIfDue hello s turn).Only SiteCall.Silent :=
  only_ite ((silent_sendControl (report_ne_complete _ _)).bind fun _ => only_done _) (only_done _)

end Loop

end PacketTide
