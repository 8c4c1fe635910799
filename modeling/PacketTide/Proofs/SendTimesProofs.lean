import PacketTide.Proofs.SendProofs
import PacketTide.SendTimes
import Mathlib.Tactic.Positivity

/-!
# When the sender gives signs of life

A sign of life is considered before every chunk of the first pass, so at most five datagrams apart, and
in the tail only before a batch is taken. So the tail keeps the deadline as long as its batches do.
-/

namespace PacketTide

open Text

variable {c : UdpSender} {s : Sending} {rate start busy : ℚ} {orders : Nat → FirstKey}
  {delays : Nat → ℚ≥0}

/-- An accepted idle timeout is between half a second and an hour. -/
theorem parseIdleTimeout_bounds {value : Option Str} {timeout : Nat}
    (h : parseIdleTimeout value = .ok timeout) : 500 ≤ timeout ∧ timeout ≤ 3600000 := by
  unfold parseIdleTimeout at h
  dsimp only at h
  split at h
  · cases h
  · split at h
    next hbounds =>
      cases h
      exact hbounds
    · cases h

theorem sendTime_le {limit : ℚ} (hr : 0 < rate)
    (hfive : 5 * transmission rate (headerSize + c.payloadBytes) ≤ limit / 3) (sequence : Nat) :
    c.sendTime rate sequence ≤ limit / 15 := by
  have hlen : c.packetLen sequence ≤ headerSize + c.payloadBytes :=
    Nat.add_le_add_left (Nat.min_le_right _ _) _
  have hle : c.sendTime rate sequence ≤ transmission rate (headerSize + c.payloadBytes) := by
    unfold UdpSender.sendTime transmission
    gcongr
  linarith

namespace Sending

/-! ## Signs of life -/

theorem beats_emit_control {payload : Str} (h : payload = ascii "PING" ∨ payload = ascii "END") :
    (s.emit (.control payload)).beats start = s.beats start ++ [s.now] := by
  simp [beats, emit, h]

theorem beats_emit_other {event : SendEvent}
    (h : event ≠ .control (ascii "PING") ∧ event ≠ .control (ascii "END")) :
    (s.emit event).beats start = s.beats start := by
  cases event with
  | packet sequence repair => simp [beats, emit]
  | control payload =>
    have hne : ¬(payload = ascii "PING" ∨ payload = ascii "END") := by
      rintro (rfl | rfl)
      · exact h.1 rfl
      · exact h.2 rfl
    simp [beats, emit, hne]

theorem lastBeat_of_beats {s' : Sending} (h : s'.beats start = s.beats start) :
    s'.lastBeat start = s.lastBeat start := by
  unfold lastBeat
  simp only [h]

theorem lastBeat_of_concat {s' : Sending} {t : ℚ} (h : s'.beats start = s.beats start ++ [t]) :
    s'.lastBeat start = t := by
  unfold lastBeat
  simp only [h, List.getLast_append_singleton]

theorem Alive.concat {s' : Sending} {limit t : ℚ} (h : s.Alive start limit)
    (hbeats : s'.beats start = s.beats start ++ [t]) (ht : t < s.lastBeat start + limit) :
    s'.Alive start limit := by
  unfold Alive at h ⊢
  rw [hbeats, List.isChain_append]
  refine ⟨h, List.IsChain.singleton _, fun x hx y hy => ?_⟩
  have hlast : (s.beats start).getLast? = some (s.lastBeat start) :=
    List.getLast?_eq_some_getLast (List.cons_ne_nil _ _)
  rw [hlast] at hx
  cases hx
  cases hy
  exact ht

/-! ## The margin of every phase -/

/-- How far the time until which the sender is busy may be from the last sign of life. -/
def Margin (c : UdpSender) (rate since busyUntil : ℚ) : SendPhase → Prop
  | .pass _ => busyUntil < since + (c.heartbeatInterval + c.idleTimeout / 3)
  | .original _ | .taking => busyUntil < since + c.heartbeatInterval
  | .between _ => busyUntil < since + (c.heartbeatInterval + c.idleTimeout / 15)
  | .interleaved _ waiting =>
    busyUntil + waiting.length * (c.idleTimeout / 15) <
      since + (c.heartbeatInterval + c.idleTimeout / 3)
  | .tail => busyUntil < since + c.idleTimeout
  | .repairing waiting =>
    busyUntil + (waiting.map (c.sendTime rate)).sum < since + c.idleTimeout
  | .acknowledged | .failed => True

/-- What holds of the times of a sender. -/
structure Punctual (c : UdpSender) (rate start : ℚ) (s : Sending) (busy : ℚ) : Prop where
  alive : s.Alive start c.idleTimeout
  heartbeat_le : s.lastHeartbeat ≤ s.lastBeat start
  beat_le : s.lastBeat start ≤ s.now
  margin : Margin c rate (s.lastBeat start) (s.now + busy) s.phase

/-- What the rate and the deadline have to be like. -/
structure Admissible (c : UdpSender) (rate : ℚ) : Prop where
  timeout : 1 / 2 ≤ c.idleTimeout
  rate_pos : 0 < rate
  five : 5 * transmission rate (headerSize + c.payloadBytes) ≤ c.idleTimeout / 3

theorem Admissible.interval_pos (h : Admissible c rate) : 0 < c.heartbeatInterval := by
  have ht := h.timeout
  exact lt_min (by linarith) one_pos

theorem interval_le (c : UdpSender) : c.heartbeatInterval ≤ c.idleTimeout / 3 := min_le_left _ _

theorem punctual_start (h : Admissible c rate) : Punctual c rate start (Sending.start c start) 0 where
  alive := List.IsChain.singleton _
  heartbeat_le := le_rfl
  beat_le := le_rfl
  margin := by
    have hpos := h.interval_pos
    have ht := h.timeout
    show start + 0 < start + (c.heartbeatInterval + c.idleTimeout / 3)
    linarith

/-- Nothing that counts has changed. -/
theorem Punctual.of_eq {s' : Sending} {busy' : ℚ} (h : Punctual c rate start s busy)
    (hbeats : s'.beats start = s.beats start) (hheart : s'.lastHeartbeat = s.lastHeartbeat)
    (hnow : s.now ≤ s'.now)
    (hmargin : Margin c rate (s.lastBeat start) (s'.now + busy') s'.phase) :
    Punctual c rate start s' busy' := by
  have hlast := lastBeat_of_beats hbeats
  refine ⟨?_, hheart ▸ hlast ▸ h.heartbeat_le, hlast ▸ h.beat_le.trans hnow, hlast ▸ hmargin⟩
  have halive := h.alive
  unfold Alive at halive ⊢
  rwa [hbeats]

/-- A sign of life is given in time. -/
theorem Punctual.beat {s' : Sending} (h : Punctual c rate start s busy)
    (hbeats : s'.beats start = s.beats start ++ [s.now]) (hnow : s'.now = s.now)
    (hheart : s'.lastHeartbeat ≤ s.now) (htime : s.now < s.lastBeat start + c.idleTimeout)
    (hmargin : Margin c rate s.now s.now s'.phase) : Punctual c rate start s' 0 := by
  have hlast := lastBeat_of_concat hbeats
  refine ⟨h.alive.concat hbeats htime, hlast ▸ hheart, (hlast.trans hnow.symm).le, ?_⟩
  rw [hlast, hnow, add_zero]
  exact hmargin

/-- Considering a sign of life, and going on to a phase that allows for the interval. -/
theorem Punctual.heartbeat (h : Punctual c rate start s busy) (hc : Admissible c rate)
    (htime : s.now < s.lastBeat start + c.idleTimeout) {phase : SendPhase}
    (hphase : ∀ since, s.now < since + c.heartbeatInterval → Margin c rate since s.now phase) :
    Punctual c rate start ((s.heartbeat c).enter phase) 0 := by
  have hpos := hc.interval_pos
  unfold Sending.heartbeat
  split
  · have hbeats : (s.emit (.control (ascii "PING"))).beats start = s.beats start ++ [s.now] :=
      beats_emit_control (.inl rfl)
    exact h.beat hbeats rfl le_rfl htime (hphase _ (by linarith))
  next hearly =>
    have hrecent : s.now < s.lastBeat start + c.heartbeatInterval := by
      have hlt := lt_of_le_of_lt (le_max_right 0 (s.now - s.lastHeartbeat)) (not_le.1 hearly)
      have hle := h.heartbeat_le
      linarith
    refine h.of_eq rfl rfl le_rfl ?_
    rw [add_zero]
    exact hphase _ hrecent

/-- Stopping with an error is no sign of life. -/
theorem Punctual.cancel (h : Punctual c rate start s busy) {busy' : ℚ} :
    Punctual c rate start s.cancel busy' :=
  h.of_eq (beats_emit_other (by decide)) rfl le_rfl trivial

/-! ## Steps -/

theorem packet_ne_beat (sequence : Nat) (repair : Bool) :
    SendEvent.packet sequence repair ≠ .control (ascii "PING") ∧
      SendEvent.packet sequence repair ≠ .control (ascii "END") :=
  ⟨SendEvent.noConfusion, SendEvent.noConfusion⟩

/-- An action of the sending thread, once it is no longer busy. -/
theorem Punctual.act (h : Punctual c rate start s 0) (hc : Admissible c rate)
    (hnow : (s.act c orders delays).now = s.now)
    (hquick : s.QuickBatch c rate start (.act orders delays)) :
    Punctual c rate start (s.act c orders delays) (s.cost c rate) := by
  have hmargin := h.margin
  have ht := hc.timeout
  have hpos := hc.interval_pos
  have hle := interval_le c
  have hsend := sendTime_le hc.rate_pos hc.five
  rw [add_zero] at hmargin
  rcases hphase : s.phase with sequence | sequence | sequence | ⟨sequence, waiting⟩ | _ | _ | waiting |
    _ | _
  all_goals rw [hphase] at hmargin
  all_goals simp only [Sending.act, hphase] at hnow ⊢
  all_goals simp only [Sending.cost, hphase]
  case pass =>
    have htime : s.now < s.lastBeat start + c.idleTimeout := by
      unfold Margin at hmargin
      linarith
    split
    · have hbeats : (s.emit (.control (ascii "END"))).beats start = s.beats start ++ [s.now] :=
        beats_emit_control (.inr rfl)
      refine h.beat hbeats rfl (h.heartbeat_le.trans h.beat_le) htime ?_
      show s.now < s.now + c.idleTimeout
      linarith
    · split
      · exact h.cancel
      · refine h.heartbeat hc htime fun since hsince => ?_
        split
        · show s.now < since + (c.heartbeatInterval + c.idleTimeout / 3)
          linarith
        · exact hsince
  case original =>
    refine h.of_eq (beats_emit_other (packet_ne_beat _ _)) rfl le_rfl ?_
    have hdatagram := hsend sequence
    unfold Margin at hmargin
    show s.now + c.sendTime rate sequence <
      s.lastBeat start + (c.heartbeatInterval + c.idleTimeout / 15)
    linarith
  case between =>
    unfold Margin at hmargin
    split
    next hsixteen =>
      rw [if_pos hsixteen] at hnow
      have hlimit : s.takeLimit = 4 := by
        rw [takeLimit, hphase]
        exact if_pos hsixteen
      refine h.of_eq rfl rfl hnow.ge ?_
      simp only at hnow
      have hfew : (((takeRepairs orders delays s.now s.repairs s.takeLimit).entries.map
          Prod.fst).length : ℚ) ≤ 4 := by
        rw [takeRepairs_queue.1, hlimit]
        exact_mod_cast List.length_take_le 4 s.repairs.queue
      have hwaiting := mul_le_mul_of_nonneg_right hfew (by linarith : 0 ≤ c.idleTimeout / 15)
      simp only [Margin]
      rw [hnow, add_zero]
      linarith
    · refine h.of_eq rfl rfl le_rfl ?_
      show s.now + 0 < s.lastBeat start + (c.heartbeatInterval + c.idleTimeout / 3)
      linarith
  case interleaved =>
    rcases waiting with _ | ⟨x, waiting⟩
    · refine h.of_eq rfl rfl le_rfl ?_
      simp only [Margin, List.length_nil, Nat.cast_zero, zero_mul, add_zero] at hmargin
      show s.now + 0 < s.lastBeat start + (c.heartbeatInterval + c.idleTimeout / 3)
      linarith
    · refine h.of_eq (beats_emit_other (packet_ne_beat _ _)) rfl le_rfl ?_
      have hdatagram := hsend x
      simp only [Margin, List.length_cons, Nat.cast_add, Nat.cast_one] at hmargin
      show s.now + c.sendTime rate x + waiting.length * (c.idleTimeout / 15) <
        s.lastBeat start + (c.heartbeatInterval + c.idleTimeout / 3)
      linarith
  case tail =>
    split
    · exact h.of_eq (beats_emit_other (by decide)) rfl le_rfl trivial
    · split
      · exact h.cancel
      · exact h.heartbeat hc hmargin fun since hsince => hsince
  case taking =>
    have hlimit : s.takeLimit = 1024 := by
      rw [takeLimit, hphase]
    rw [takeRepairs_queue.1, hlimit]
    rw [hlimit] at hnow
    unfold Margin at hmargin
    refine h.of_eq rfl rfl hnow.ge ?_
    by_cases hnil : s.repairs.queue = []
    · rw [hnil, List.take_nil, if_pos rfl, if_pos rfl, hnow]
      show s.now + 5 / 1000 < s.lastBeat start + c.idleTimeout
      linarith
    · have htaken : s.repairs.queue.take 1024 ≠ [] := by
        simpa using hnil
      rw [if_neg htaken, if_neg hnil, hnow, add_zero]
      exact hquick hphase hnil
  case repairing =>
    rcases waiting with _ | ⟨x, waiting⟩
    · refine h.of_eq rfl rfl le_rfl ?_
      simp only [Margin, List.map_nil, List.sum_nil, add_zero] at hmargin
      show s.now + 0 < s.lastBeat start + c.idleTimeout
      linarith
    · refine h.of_eq (beats_emit_other (packet_ne_beat _ _)) rfl le_rfl ?_
      simp only [Margin, List.map_cons, List.sum_cons] at hmargin
      show s.now + c.sendTime rate x + (waiting.map (c.sendTime rate)).sum <
        s.lastBeat start + c.idleTimeout
      linarith
  case acknowledged => exact h.of_eq rfl rfl le_rfl (by rw [hphase]; trivial)
  case failed => exact h.of_eq rfl rfl le_rfl (by rw [hphase]; trivial)

theorem hear_unchanged (c : UdpSender) (s : Sending) (line : Str) :
    (s.hear c line).log = s.log ∧ (s.hear c line).lastHeartbeat = s.lastHeartbeat ∧
      (s.hear c line).now = s.now ∧ (s.hear c line).phase = s.phase := by
  unfold Sending.hear
  split
  · exact ⟨rfl, rfl, rfl, rfl⟩
  · split
    · exact ⟨rfl, rfl, rfl, rfl⟩
    · exact ⟨rfl, rfl, rfl, rfl⟩
    · exact ⟨rfl, rfl, rfl, rfl⟩
    · exact ⟨rfl, rfl, rfl, rfl⟩

theorem disconnect_unchanged (s : Sending) (error : String) :
    (s.disconnect error).log = s.log ∧ (s.disconnect error).lastHeartbeat = s.lastHeartbeat ∧
      (s.disconnect error).now = s.now ∧ (s.disconnect error).phase = s.phase := by
  unfold Sending.disconnect
  split
  · exact ⟨rfl, rfl, rfl, rfl⟩
  · exact ⟨rfl, rfl, rfl, rfl⟩

theorem beats_of_log {s' : Sending} (h : s'.log = s.log) : s'.beats start = s.beats start := by
  unfold beats
  rw [h]

/-- What the reading thread does, keeps the times. -/
theorem Punctual.unchanged {s' : Sending} (h : Punctual c rate start s busy)
    (hs : s'.log = s.log ∧ s'.lastHeartbeat = s.lastHeartbeat ∧ s'.now = s.now ∧
      s'.phase = s.phase) : Punctual c rate start s' busy := by
  obtain ⟨hlog, hheart, hnow, hphase⟩ := hs
  exact h.of_eq (beats_of_log hlog) hheart hnow.ge (by rw [hnow, hphase]; exact h.margin)

theorem Punctual.run (hc : Admissible c rate) {inputs : List SendInput}
    (h : Punctual c rate start s busy) (hprompt : s.Prompt c rate busy inputs)
    (hquick : s.Along c (fun s input => s.QuickBatch c rate start input) inputs) :
    (s.run c inputs).Alive start c.idleTimeout := by
  induction inputs generalizing s busy with
  | nil => exact h.alive
  | cons input inputs ih =>
    cases input with
    | act orders delays =>
      obtain ⟨rfl, hnow, hrest⟩ := hprompt
      exact ih (h.act hc hnow hquick.1) hrest hquick.2
    | wait time =>
      refine ih (h.of_eq rfl rfl (le_add_of_nonneg_right time.2) ?_) hprompt.2 hquick.2
      have hmargin := h.margin
      have hsame : s.now + (time : ℚ) + (busy - time) = s.now + busy := by ring
      show Margin c rate (s.lastBeat start) (s.now + (time : ℚ) + (busy - time)) s.phase
      rw [hsame]
      exact hmargin
    | hear line => exact ih (h.unchanged (hear_unchanged c s line)) hprompt hquick.2
    | disconnect error => exact ih (h.unchanged (disconnect_unchanged s error)) hprompt hquick.2
    | fail =>
      refine ih ?_ hprompt hquick.2
      show Punctual c rate start (if s.ended then s else s.cancel) busy
      split
      · exact h
      · exact h.cancel

/-- In every run whose tail batches are quick, the sender gives signs of life in time. -/
theorem heartbeats_of_quickBatch (c : UdpSender) (rate start : ℚ) (inputs : List SendInput)
    (hc : Admissible c rate) (hprompt : (Sending.start c start).Prompt c rate 0 inputs)
    (hquick : (Sending.start c start).Along c (fun s input => s.QuickBatch c rate start input)
      inputs) :
    ((Sending.start c start).run c inputs).Alive start c.idleTimeout :=
  (punctual_start hc).run hc hprompt hquick

/-! ## A quick batch and a long one -/

instance decidablePrompt (c : UdpSender) (rate : ℚ) :
    (s : Sending) → (busy : ℚ) → (inputs : List SendInput) → Decidable (s.Prompt c rate busy inputs)
  | _, _, [] => .isTrue trivial
  | s, _, .act orders delays :: inputs =>
    haveI := decidablePrompt c rate (s.act c orders delays) (s.cost c rate) inputs
    inferInstanceAs (Decidable (_ ∧ _ ∧ _))
  | s, busy, .wait time :: inputs =>
    haveI := decidablePrompt c rate (s.step c (.wait time)) (busy - time) inputs
    inferInstanceAs (Decidable (_ ∧ _))
  | s, busy, .hear line :: inputs => decidablePrompt c rate (s.step c (.hear line)) busy inputs
  | s, busy, .disconnect error :: inputs =>
    decidablePrompt c rate (s.step c (.disconnect error)) busy inputs
  | s, busy, .fail :: inputs => decidablePrompt c rate (s.step c .fail) busy inputs

instance decidableQuickBatch (c : UdpSender) (rate start : ℚ) (s : Sending) :
    (input : SendInput) → Decidable (s.QuickBatch c rate start input)
  | .act _ _ => inferInstanceAs (Decidable (_ → _))
  | .hear _ | .disconnect _ | .fail | .wait _ => .isTrue trivial

instance (start limit : ℚ) (s : Sending) : Decidable (s.Alive start limit) :=
  inferInstanceAs (Decidable (List.IsChain _ _))

/-- At 1480 bytes a second, the datagrams of the three chunks take a second each, also in the tail. -/
def quickRun : List SendInput :=
  acts 2 ++ .wait 1 :: acts 3 ++ .wait 1 :: acts 3 ++ .wait 1 :: acts 2 ++
    .hear (ascii "M 0 3 0 0 0 0 0 - 0-2") :: acts 3 ++ .wait 1 :: acts 1 ++ .wait 1 :: acts 1 ++
      .wait 1 :: acts 2

theorem heartbeats_of_quickRun :
    ((Sending.start smallSender 0).run smallSender quickRun).Alive 0 30 ∧
      ((Sending.start smallSender 0).run smallSender quickRun).beats 0 = [0, 1, 2, 3, 3, 6] := by
  have hadmissible : Admissible smallSender 11840 :=
    ⟨by decide +kernel, by decide +kernel, by decide +kernel⟩
  exact ⟨heartbeats_of_quickBatch smallSender 11840 0 quickRun hadmissible (by decide +kernel)
    (by decide +kernel), by decide +kernel⟩

/-- An object of sixteen chunks and a deadline of half a second. -/
def busySender : UdpSender := ⟨22784, 16, 1424, [0, 0], 15 / 2, 1 / 2⟩

/-- A datagram takes a thirtieth of a second. All chunks are lost, and are sent again in one batch. -/
def busyRun : List SendInput :=
  (List.replicate 16 (acts 2 ++ .wait (1 / 30) :: acts 1)).flatten ++ acts 2 ++
    .hear (ascii "M 0 16 0 0 0 0 0 - 0-15") :: acts 2 ++
      (List.replicate 16 (acts 1 ++ [.wait (1 / 30)])).flatten ++ acts 2

/-- A long batch keeps the sender from giving signs of life. -/
theorem not_heartbeats : ¬∀ (c : UdpSender) (rate start : ℚ) (inputs : List SendInput),
    Admissible c rate → c.idleTimeout ≤ 3600 → (Sending.start c start).Prompt c rate 0 inputs →
    ((Sending.start c start).run c inputs).Alive start c.idleTimeout := by
  intro hclaim
  have hadmissible : Admissible busySender 355200 :=
    ⟨by decide +kernel, by decide +kernel, by decide +kernel⟩
  have halive := hclaim busySender 355200 0 busyRun hadmissible (by decide +kernel)
    (by decide +kernel)
  exact absurd halive (by decide +kernel)

end Sending

end PacketTide
