import PacketTide.Proofs.AskProofs
import PacketTide.Site

/-!
# Rules for programs with files and a control channel
-/

namespace PacketTide

open Effects FileSystem Prog

variable {α β : Type} {site : Site} {payload : Text.Str}

/-! ## Programs over files -/

@[simp] theorem onFiles_done (r : Except AnyError α) : onFiles (.done r) = .done r := rfl

/-- A program over files runs as it does without a control channel. -/
theorem run_onFiles (p : FsProg α) (site : Site) :
    (onFiles p).run siteMachine site =
      ((p.run machine site.fs).1, ⟨(p.run machine site.fs).2, site.control⟩) := by
  induction p generalizing site with
  | done r => rfl
  | call c next ih => exact ih _ _

theorem succeeds_onFiles {p : FsProg α} {a : α} {t : Site}
    (h : Succeeds siteMachine siteRefuse (onFiles p) site a t) :
    Succeeds machine refuse p site.fs a t.fs ∧ t.control = site.control := by
  induction p generalizing site with
  | done r =>
    obtain ⟨rfl, rfl⟩ := succeeds_done h
    exact ⟨.of_run rfl, rfl⟩
  | call c next ih =>
    rcases succeeds_call h with h | ⟨e, h⟩
    · obtain ⟨hrun, hcontrol⟩ := ih _ h
      exact ⟨hrun.answered, hcontrol⟩
    · obtain ⟨hrun, hcontrol⟩ := ih _ h
      exact ⟨hrun.refused, hcontrol⟩

theorem returns_onFiles {p : FsProg α} {Q : α → Site → Prop}
    (h : Returns machine refuse p (fun a t => Q a ⟨t, site.control⟩) site.fs) :
    Returns siteMachine siteRefuse (onFiles p) Q site := by
  intro a t hrun
  obtain ⟨hrun, hcontrol⟩ := succeeds_onFiles hrun
  have hQ := h a t.fs hrun
  rwa [← hcontrol] at hQ

theorem visits_onFiles {p : FsProg α} {t : Site}
    (h : Visits siteMachine siteRefuse (onFiles p) site t) :
    Visits machine refuse p site.fs t.fs ∧ t.control = site.control := by
  induction p generalizing site with
  | done r =>
    rw [visits_done h]
    exact ⟨.here _ _, rfl⟩
  | call c next ih =>
    cases h with
    | here => exact ⟨.here _ _, rfl⟩
    | torn h => exact ⟨.torn h.1, h.2⟩
    | refused e h =>
      obtain ⟨hv, hcontrol⟩ := ih _ h
      exact ⟨.refused e hv, hcontrol⟩
    | answered h =>
      obtain ⟨hv, hcontrol⟩ := ih _ h
      exact ⟨.answered hv, hcontrol⟩

theorem throughout_onFiles {p : FsProg α} {I : Site → Prop}
    (h : Throughout machine refuse (fun t => I ⟨t, site.control⟩) p site.fs) :
    Throughout siteMachine siteRefuse I (onFiles p) site := by
  intro t hv
  obtain ⟨hv, hcontrol⟩ := visits_onFiles hv
  have hI := h t.fs hv
  rwa [← hcontrol] at hI

/-! ## The control channel -/

theorem sent_attempt (writer : ControlWriter) (payload : Text.Str) :
    (writer.attempt payload).2.sent =
      writer.sent ++ match (writer.attempt payload).1 with
        | .ok _ => [payload]
        | .error _ => [] := by
  unfold ControlWriter.attempt ControlWriter.send
  by_cases hpayload : controlPayload payload
  · by_cases hfate : writer.fates.head? = some false
    · simp [hpayload, hfate]
    · simp [hpayload, hfate]
  · simp [hpayload]

theorem controlPayload_of_attempt {writer : ControlWriter} {payload : Text.Str} {u : Unit}
    (h : (writer.attempt payload).1 = .ok u) : controlPayload payload := by
  by_contra hpayload
  unfold ControlWriter.attempt ControlWriter.send at h
  rw [if_pos hpayload] at h
  cases h

/-- A write appends its line or fails. -/
theorem ends_sendControl {Q : Except AnyError Unit → Site → Prop}
    (hfail : ∀ e control, control.sent = site.control.sent → Q (.error e) ⟨site.fs, control⟩)
    (hok : ∀ control, controlPayload payload → control.sent = site.control.sent ++ [payload] →
      Q (.ok ()) ⟨site.fs, control⟩) : Ends siteMachine (sendControl payload) Q site := by
  have hsent := sent_attempt site.control payload
  have hexec : siteMachine.exec (.send payload) site =
      ((site.control.attempt payload).1, ⟨site.fs, (site.control.attempt payload).2⟩) := rfl
  unfold Ends sendControl
  rw [run_call, hexec]
  dsimp only
  rcases hr : (site.control.attempt payload).1 with e | u
  · rw [hr, List.append_nil] at hsent
    exact hfail e _ hsent
  · rw [hr] at hsent
    exact hok _ (controlPayload_of_attempt hr) hsent

theorem strict_sendControl : (sendControl payload).Strict siteRefuse :=
  ⟨fun e => ⟨.io e, rfl⟩, fun r => by cases r <;> exact trivial⟩

theorem returns_sendControl {Q : Unit → Site → Prop}
    (h : ∀ control, controlPayload payload → control.sent = site.control.sent ++ [payload] →
      Q () ⟨site.fs, control⟩) : Returns siteMachine siteRefuse (sendControl payload) Q site := by
  have hends : Ends siteMachine (sendControl payload) (fun r t => ∀ u, r = .ok u → Q u t) site :=
    ends_sendControl (fun _ _ _ _ hu => nomatch hu) fun control hpayload hsent u hu =>
      h control hpayload hsent
  intro u t hrun
  unfold Ends at hends
  rw [strict_sendControl.run_of_succeeds hrun] at hends
  exact hends u rfl

/-- A write to the control channel leaves the files alone. -/
theorem throughout_sendControl {I : FS → Prop} (h : I site.fs) :
    Throughout siteMachine siteRefuse (fun t => I t.fs) (sendControl payload) site := by
  refine throughout_call h nofun (fun e => throughout_done h) ?_
  split
  · exact throughout_done h
  · exact throughout_done h

theorem returns_sendPayloads {payloads : List Text.Str} {Q : Unit → Site → Prop}
    (h : ∀ control, (∀ p ∈ payloads, controlPayload p) →
      control.sent = site.control.sent ++ payloads → Q () ⟨site.fs, control⟩) :
    Returns siteMachine siteRefuse (sendPayloads payloads) Q site := by
  induction payloads generalizing site with
  | nil =>
    refine returns_ok (h site.control (fun p hp => nomatch hp) ?_)
    rw [List.append_nil]
  | cons payload payloads ih =>
    refine returns_bind (returns_sendControl fun control hpayload hsent => ih ?_)
    intro control' hpayloads hsent'
    refine h control' (List.forall_mem_cons.2 ⟨hpayload, hpayloads⟩) ?_
    rw [hsent', hsent, List.append_assoc, List.singleton_append]

end PacketTide
