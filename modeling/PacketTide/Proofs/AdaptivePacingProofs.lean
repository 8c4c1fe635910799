import PacketTide.AdaptivePacing
import PacketTide.Proofs.PacerProofs
import PacketTide.Proofs.RateProofs

/-!
# The controller keeps the sender below its ceiling

Each rate that the pacer takes over is within the bounds, and costs at most a batch. The controller decides at
most once in an interval, so the pacer does not start anew more often than that.
-/

namespace PacketTide

variable {start c : RateController} {s t : Pacing} {begun now : ℚ} {telemetry : ReceiverTelemetry}
  {payloadBytes restarts decisions : Nat} {adaptive : Bool}

/-! ## The controller -/

/-- What no report changes: the bounds, which the rate keeps to. -/
structure Governed (start c : RateController) : Prop where
  min_eq : c.minRateMbps = start.minRateMbps
  max_eq : c.maxRateMbps = start.maxRateMbps
  interval_eq : c.decisionInterval = start.decisionInterval
  low : start.minRateMbps ≤ c.rateMbps
  high : c.rateMbps ≤ start.maxRateMbps

namespace RateController

theorem observe_of_not_decides (h : ¬c.Decides now) : c.observe telemetry now payloadBytes = c := by
  unfold observe
  rw [if_pos (not_not.1 h)]

/-- A decision is made an interval after the last one. -/
theorem lastDecision_add_le (h : c.Decides now) (hinterval : 0 < c.decisionInterval) :
    c.lastDecision + c.decisionInterval ≤ now := by
  obtain ⟨-, hlate⟩ := not_or.1 h
  rcases le_max_iff.1 (not_lt.1 hlate) with hzero | hlater
  · exact absurd hinterval (not_lt.2 hzero)
  · linarith

end RateController

theorem Governed.observe (h : Governed start c) (hordered : start.minRateMbps ≤ start.maxRateMbps) :
    Governed start (c.observe telemetry now payloadBytes) := by
  by_cases hdecides : c.Decides now
  · obtain ⟨-, hmin, hmax, hinterval, -, -⟩ := @RateController.observe_keeps c telemetry now payloadBytes hdecides
    have hclamp := @RateController.clamp_mem c
      (RateController.candidate c.rateMbps (c.signal telemetry now payloadBytes)).1 (by rwa [h.min_eq, h.max_eq])
    rw [← RateController.rate_observe hdecides, h.min_eq, h.max_eq] at hclamp
    exact ⟨hmin.trans h.min_eq, hmax.trans h.max_eq, hinterval.trans h.interval_eq, hclamp.1, hclamp.2⟩
  · rw [RateController.observe_of_not_decides hdecides]
    exact h

/-- Decisions are an interval apart. -/
theorem Governed.decides (h : Governed start c) (hinterval : 0 < start.decisionInterval) (hdecides : c.Decides now) :
    c.lastDecision + start.decisionInterval ≤ (c.observe telemetry now payloadBytes).lastDecision := by
  obtain ⟨-, -, -, -, hlast, -⟩ := @RateController.observe_keeps c telemetry now payloadBytes hdecides
  rw [← h.interval_eq] at hinterval ⊢
  rw [hlast]
  exact RateController.lastDecision_add_le hdecides hinterval

theorem Governed.rate_le (h : Governed start c) : c.bytesPerSecond ≤ start.maxRateMbps * 1000000 / 8 := by
  have hhigh := h.high
  unfold RateController.bytesPerSecond
  linarith

theorem Governed.rate_pos (h : Governed start c) (hmin : 0 < start.minRateMbps) : 0 < c.bytesPerSecond := by
  have hlow := h.low
  unfold RateController.bytesPerSecond
  linarith

/-! ## The pacer -/

/-- The pacer has been started anew a number of times, each time for a decision of the controller; it is on the
schedule of the last rate, and with each of the rates before it has sent at most a batch more than the ceiling
allows. -/
structure Throttled (start : RateController) (begun : ℚ) (restarts decisions : Nat) (s : Pacing) : Prop where
  governed : Governed start s.controller
  decided : start.lastDecision + decisions * start.decisionInterval ≤ s.controller.lastDecision
  restarts_le : restarts ≤ decisions
  current : restarts = decisions → s.pacer.bytesPerSecond = s.controller.bytesPerSecond
  rate_pos : 0 < s.pacer.bytesPerSecond
  rate_le : s.pacer.bytesPerSecond ≤ start.maxRateMbps * 1000000 / 8
  paced : Paced s.pacer.bytesPerSecond s.pacer.started s.pacer s.clock
  begun_le : begun ≤ s.pacer.started
  started_le : s.pacer.started ≤ s.clock
  elapsed : start.lastDecision + restarts * start.decisionInterval ≤ s.clock
  counted : s.pacer.bytesSent ≤ s.sent
  sent : (s.sent : ℚ) ≤ s.pacer.bytesSent + start.maxRateMbps * 1000000 / 8 * (s.pacer.started - begun) +
    restarts * Pacer.batchFor (start.maxRateMbps * 1000000 / 8)

theorem batchFor_mono {rate rate' : ℚ} (h : rate ≤ rate') : Pacer.batchFor rate ≤ Pacer.batchFor rate' := by
  unfold Pacer.batchFor
  refine Nat.floor_le_floor (min_le_min (max_le_max ?_ le_rfl) le_rfl)
  linarith

/-- What the pacer has counted, at the ceiling. -/
theorem Throttled.sent_le (h : Throttled start begun restarts decisions s) (hnow : s.clock ≤ now) :
    (s.sent : ℚ) ≤ start.maxRateMbps * 1000000 / 8 * (now - begun) +
      (restarts + 1) * Pacer.batchFor (start.maxRateMbps * 1000000 / 8) := by
  have hepoch := h.paced.sent_le h.rate_pos hnow
  have hbatch : (Pacer.batchFor s.pacer.bytesPerSecond : ℚ) ≤
      Pacer.batchFor (start.maxRateMbps * 1000000 / 8) := by
    exact_mod_cast batchFor_mono h.rate_le
  have hspan : 0 ≤ now - s.pacer.started := by
    have hstarted := h.started_le
    linarith
  have hrate := mul_le_mul_of_nonneg_right h.rate_le hspan
  have hsent := h.sent
  linarith

/-- A report may make the controller decide. -/
theorem Throttled.observe (h : Throttled start begun restarts decisions s)
    (hordered : start.minRateMbps ≤ start.maxRateMbps) (hinterval : 0 < start.decisionInterval) :
    ∃ decisions', Throttled start begun restarts decisions'
      { s with controller := s.controller.observe telemetry now payloadBytes } := by
  by_cases hdecides : s.controller.Decides now
  · have hlater := @Governed.decides _ _ _ telemetry payloadBytes h.governed hinterval hdecides
    have hdecided := h.decided
    refine ⟨decisions + 1, { h with
      governed := h.governed.observe hordered
      decided := ?_
      restarts_le := h.restarts_le.trans (Nat.le_succ _)
      current := fun heq => absurd h.restarts_le (by omega) }⟩
    show _ ≤ (s.controller.observe telemetry now payloadBytes).lastDecision
    push_cast
    linarith
  · rw [RateController.observe_of_not_decides hdecides]
    exact ⟨decisions, h⟩

theorem Throttled.wait (h : Throttled start begun restarts decisions s) (hnow : s.clock ≤ now) :
    Throttled start begun restarts decisions { s with clock := now } :=
  { h with
    paced := h.paced.wait h.rate_pos hnow
    started_le := h.started_le.trans hnow
    elapsed := h.elapsed.trans hnow }

/-- A pacer that takes over another rate starts anew, for a decision that it has not yet followed. -/
theorem Throttled.setBytesPerSecond (h : Throttled start begun restarts decisions s)
    (hmin : 0 < start.minRateMbps) (hinterval : 0 < start.decisionInterval) (hnow : s.clock ≤ now)
    (hdecided : s.controller.lastDecision ≤ now) :
    ∃ restarts', Throttled start begun restarts' decisions
      { s with pacer := s.pacer.setBytesPerSecond s.controller.bytesPerSecond now, clock := now } := by
  unfold Pacer.setBytesPerSecond
  split
  next hsame => exact ⟨restarts, h.wait hnow⟩
  next hchanged =>
    have hfollows : restarts + 1 ≤ decisions := by
      rcases h.restarts_le.lt_or_eq with hlt | heq
      · exact hlt
      · exact absurd (h.current heq) hchanged
    have hsent := h.sent_le hnow
    have hmany : ((restarts + 1 : ℕ) : ℚ) * start.decisionInterval ≤ decisions * start.decisionInterval :=
      mul_le_mul_of_nonneg_right (by exact_mod_cast hfollows) hinterval.le
    have hlast := h.decided
    refine ⟨restarts + 1, {
      governed := h.governed
      decided := h.decided
      restarts_le := hfollows
      current := fun _ => rfl
      rate_pos := h.governed.rate_pos hmin
      rate_le := h.governed.rate_le
      paced := paced_new
      begun_le := (h.begun_le.trans h.started_le).trans hnow
      started_le := le_rfl
      elapsed := ?_
      counted := Nat.zero_le _
      sent := ?_ }⟩
    · show _ ≤ now
      linarith
    · show (s.sent : ℚ) ≤ (0 : ℕ) + _ * (now - begun) + ((restarts + 1 : ℕ) : ℚ) * _
      push_cast
      linarith

/-- A datagram is counted. -/
theorem Throttled.account (h : Throttled start begun restarts decisions s) {bytes : Nat} {looked returned : ℚ}
    (hlooked : s.clock ≤ looked) (hreturned : looked + (s.pacer.accountAndWait bytes looked).2 ≤ returned)
    (hsum : s.sent + bytes < 2 ^ 64) :
    Throttled start begun restarts decisions
      { s with pacer := (s.pacer.accountAndWait bytes looked).1, sent := s.sent + bytes, clock := returned } := by
  have hcounted := h.counted
  obtain ⟨hpaced, hsent, hlater⟩ := h.paced.account (c := ⟨looked, bytes, returned⟩) h.rate_pos hlooked hreturned
    (by dsimp only; omega)
  dsimp only at hpaced hsent hlater
  have hrate := hpaced.rate_eq
  have hstarted := hpaced.started_eq
  have hbound := h.sent
  refine {
    governed := h.governed
    decided := h.decided
    restarts_le := h.restarts_le
    current := fun heq => hrate.trans (h.current heq)
    rate_pos := hrate ▸ h.rate_pos
    rate_le := hrate ▸ h.rate_le
    paced := ?_
    begun_le := hstarted ▸ h.begun_le
    started_le := hstarted ▸ h.started_le.trans hlater
    elapsed := h.elapsed.trans hlater
    counted := ?_
    sent := ?_ }
  · dsimp only
    rw [hrate, hstarted]
    exact hpaced
  · dsimp only
    rw [hsent]
    omega
  · dsimp only
    rw [hsent, hstarted]
    push_cast
    linarith

/-! ## Runs -/

theorem Throttled.step (h : Throttled start begun restarts decisions s) (hmin : 0 < start.minRateMbps)
    (hordered : start.minRateMbps ≤ start.maxRateMbps) (hinterval : 0 < start.decisionInterval)
    (hstep : PacingStep adaptive s t) (hsum : t.sent < 2 ^ 64) :
    ∃ restarts' decisions', Throttled start begun restarts' decisions' t := by
  cases hstep with
  | @datagram bytes entered looked returned hclock hdecided hlooked hreturned =>
    unfold paceWithController at hreturned ⊢
    cases adaptive with
    | false => exact ⟨restarts, decisions, h.account (hclock.trans hlooked) hreturned hsum⟩
    | true =>
      obtain ⟨restarts', hset⟩ := h.setBytesPerSecond hmin hinterval hclock hdecided
      exact ⟨restarts', decisions, hset.account hlooked hreturned hsum⟩
  | report telemetry now payloadBytes => exact ⟨restarts, h.observe hordered hinterval⟩

theorem PacingStep.sent_le (h : PacingStep adaptive s t) : s.sent ≤ t.sent := by
  cases h with
  | datagram => exact Nat.le_add_right _ _
  | report => exact le_rfl

theorem Throttled.steps (h : Throttled start begun restarts decisions s) (hmin : 0 < start.minRateMbps)
    (hordered : start.minRateMbps ≤ start.maxRateMbps) (hinterval : 0 < start.decisionInterval)
    (hsteps : Relation.ReflTransGen (PacingStep adaptive) s t) (hsum : t.sent < 2 ^ 64) :
    ∃ restarts' decisions', Throttled start begun restarts' decisions' t := by
  induction hsteps with
  | refl => exact ⟨restarts, decisions, h⟩
  | tail _ hstep ih =>
    obtain ⟨restarts', decisions', hbefore⟩ := ih (hstep.sent_le.trans_lt hsum)
    exact hbefore.step hmin hordered hinterval hstep hsum

/-- Reports that are observed before the pacer begins. -/
theorem governed_observed (h : Observed start c) (hstart : Governed start start)
    (hinterval : 0 < start.decisionInterval) : Governed start c ∧ start.lastDecision ≤ c.lastDecision := by
  induction h with
  | refl => exact ⟨hstart, le_rfl⟩
  | @tail c c' _ hobserve ih =>
    obtain ⟨telemetry, now, payloadBytes, rfl⟩ := hobserve
    obtain ⟨hgoverned, hlast⟩ := ih
    refine ⟨hgoverned.observe (hstart.low.trans hstart.high), ?_⟩
    by_cases hdecides : c.Decides now
    · have hlater := @Governed.decides _ _ _ telemetry payloadBytes hgoverned hinterval hdecides
      linarith
    · rw [RateController.observe_of_not_decides hdecides]
      exact hlast

theorem throttled_begins (h : PacingBegins start begun s) (hstart : Governed start start)
    (hmin : 0 < start.minRateMbps) (hinterval : 0 < start.decisionInterval) : Throttled start begun 0 0 s := by
  obtain ⟨hgoverned, hlast⟩ := governed_observed h.observed hstart hinterval
  obtain ⟨pacer, controller, sent, clock⟩ := s
  obtain ⟨-, hdecided, hpacer, hsent, hclock⟩ := h
  dsimp only at hgoverned hlast hdecided hpacer hsent hclock
  subst hpacer hsent hclock
  exact {
    governed := hgoverned
    decided := by simpa using hlast
    restarts_le := le_rfl
    current := fun _ => rfl
    rate_pos := hgoverned.rate_pos hmin
    rate_le := hgoverned.rate_le
    paced := paced_new
    begun_le := le_rfl
    started_le := le_rfl
    elapsed := by simpa using hlast.trans hdecided
    counted := le_rfl
    sent := by simp [Pacer.new] }

theorem governed_new (fixedRate : Option ℚ) {minRate maxRate : ℚ} (reportInterval created : ℚ)
    (hordered : minRate ≤ maxRate) : Governed (.new fixedRate minRate maxRate reportInterval created)
      (.new fixedRate minRate maxRate reportInterval created) := by
  refine ⟨rfl, rfl, rfl, ?_, ?_⟩
  · cases fixedRate with
    | none => exact le_refl minRate
    | some rate => exact le_refl rate
  · cases fixedRate with
    | none => exact hordered
    | some rate => exact le_refl rate

/-- A batch of at least two milliseconds is a hundredth of what the ceiling allows between two decisions. -/
theorem batchFor_le_rate {rate : ℚ} (h : 600000 ≤ rate) : (Pacer.batchFor rate : ℚ) ≤ rate * (2 / 1000) := by
  have hfloor : 0 ≤ min (max (rate * (2 / 1000)) 1200) 65536 :=
    le_min ((by norm_num : (0 : ℚ) ≤ 1200).trans (le_max_right _ _)) (by norm_num)
  have hmax : max (rate * (2 / 1000)) 1200 = rate * (2 / 1000) := max_eq_left (by linarith)
  refine (Nat.floor_le hfloor).trans ((min_le_left _ _).trans hmax.le)

/-- Whatever the receiver reports, the rate keeps to its bounds, and the sender has never counted more than its
ceiling allows, a batch, and a batch for each interval between decisions; at a ceiling of 4.8 megabits per second
or more this is at most a hundredth above the ceiling. -/
theorem adaptive_pacing_bounded (fixedRate : Option ℚ) (minRate maxRate reportInterval created begun : ℚ)
    (s t : Pacing) (hmin : 0 < fixedRate.getD minRate) (hordered : minRate ≤ maxRate)
    (hbegins : PacingBegins (.new fixedRate minRate maxRate reportInterval created) begun s)
    (hsteps : Relation.ReflTransGen (PacingStep fixedRate.isNone) s t) (hsum : t.sent < 2 ^ 64) :
    t.controller.rateMbps ∈ Set.Icc (fixedRate.getD minRate) (fixedRate.getD maxRate) ∧
    (t.sent : ℚ) ≤ fixedRate.getD maxRate * 1000000 / 8 * (t.clock - begun) +
      (1 + (t.clock - created) / max (reportInterval * 4) (200 / 1000)) *
        Pacer.batchFor (fixedRate.getD maxRate * 1000000 / 8) ∧
    (600000 ≤ fixedRate.getD maxRate * 1000000 / 8 →
      (t.sent : ℚ) ≤ fixedRate.getD maxRate * 1000000 / 8 * (101 / 100) * (t.clock - created) +
        Pacer.batchFor (fixedRate.getD maxRate * 1000000 / 8)) := by
  have hstart := governed_new fixedRate reportInterval created hordered
  have hlow : (RateController.new fixedRate minRate maxRate reportInterval created).minRateMbps =
      fixedRate.getD minRate := by
    cases fixedRate <;> rfl
  have hhigh : (RateController.new fixedRate minRate maxRate reportInterval created).maxRateMbps =
      fixedRate.getD maxRate := by
    cases fixedRate <;> rfl
  have hinterval : 0 < max (reportInterval * 4) (200 / 1000) :=
    (by norm_num : (0 : ℚ) < 200 / 1000).trans_le (le_max_right _ _)
  have hshort : (200 : ℚ) / 1000 ≤ max (reportInterval * 4) (200 / 1000) := le_max_right _ _
  have hbegin := throttled_begins hbegins hstart (by rw [hlow]; exact hmin) hinterval
  obtain ⟨restarts, decisions, h⟩ :=
    hbegin.steps (by rw [hlow]; exact hmin) (hstart.low.trans hstart.high) hinterval hsteps hsum
  obtain ⟨-, hlast⟩ := governed_observed hbegins.observed hstart hinterval
  have hcreated : created ≤ begun := hlast.trans hbegins.decided
  have hrestarts : (restarts : ℚ) ≤ (t.clock - created) / max (reportInterval * 4) (200 / 1000) := by
    rw [le_div_iff₀ hinterval]
    have helapsed : created + restarts * max (reportInterval * 4) (200 / 1000) ≤ t.clock := h.elapsed
    linarith
  have hsent := h.sent_le le_rfl
  rw [hhigh] at hsent
  have hmem := And.intro h.governed.low h.governed.high
  rw [hlow, hhigh] at hmem
  generalize max (reportInterval * 4) (200 / 1000) = interval at *
  generalize fixedRate.getD maxRate * 1000000 / 8 = ceiling at *
  have hall : (t.sent : ℚ) ≤ ceiling * (t.clock - begun) +
      (1 + (t.clock - created) / interval) * Pacer.batchFor ceiling := by
    have hbatches := mul_le_mul_of_nonneg_right hrestarts (Nat.cast_nonneg (α := ℚ) (Pacer.batchFor ceiling))
    linarith
  refine ⟨hmem, hall, fun hceiling => ?_⟩
  have hbatch := batchFor_le_rate hceiling
  have hclock : begun ≤ t.clock := h.begun_le.trans h.started_le
  have hspan : 0 ≤ t.clock - created := by linarith
  have hmost : (t.clock - created) / interval ≤ 5 * (t.clock - created) := by
    rw [div_le_iff₀ hinterval]
    have hlong := mul_le_mul_of_nonneg_left hshort hspan
    linarith
  have hextra : (t.clock - created) / interval * Pacer.batchFor ceiling ≤
      5 * (t.clock - created) * (ceiling * (2 / 1000)) :=
    mul_le_mul hmost hbatch (Nat.cast_nonneg _) (by linarith)
  have hlonger : ceiling * (t.clock - begun) ≤ ceiling * (t.clock - created) :=
    mul_le_mul_of_nonneg_left (by linarith) (by linarith)
  linarith

section Example

/-- A report by which the rate is doubled, from one megabit per second to two. -/
def doublingReport : ReceiverTelemetry := { acceptedDatagrams := 1000, validDatagrams := 1000 }

def doubledStart : Pacing where
  pacer := .new (RateController.new none 1 10 (1 / 20) 0).bytesPerSecond 0
  controller := .new none 1 10 (1 / 20) 0
  clock := 0

def doubledReported : Pacing :=
  { doubledStart with controller := doubledStart.controller.observe doublingReport 1 1000 }

/-- A datagram has been counted at the new rate. -/
def doubledEnd : Pacing :=
  { doubledReported with
    pacer := (paceWithController doubledReported.pacer doubledReported.controller true 1228 1 1).1
    sent := doubledReported.sent + 1228
    clock := 2 }

theorem steps_doubled : Relation.ReflTransGen (PacingStep true) doubledStart doubledEnd := by
  have hreport : PacingStep true doubledStart doubledReported := .report doublingReport 1 1000
  have hdatagram : PacingStep true doubledReported doubledEnd :=
    @PacingStep.datagram true doubledReported 1228 1 1 2 (by decide +kernel) (by decide +kernel) le_rfl
      (by decide +kernel)
  exact (Relation.ReflTransGen.single hreport).tail hdatagram

/-- The rule, for a sender that follows one report and then counts a datagram. -/
theorem adaptive_pacing_bounded_doubled : doubledEnd.controller.rateMbps = 2 ∧
    (doubledEnd.sent : ℚ) ≤ 10 * 1000000 / 8 * (101 / 100) * (doubledEnd.clock - 0) +
      Pacer.batchFor (10 * 1000000 / 8) := by
  refine ⟨by decide +kernel, ?_⟩
  exact (adaptive_pacing_bounded none 1 10 (1 / 20) 0 0 doubledStart doubledEnd (by norm_num) (by norm_num)
    ⟨.refl, le_rfl, rfl, rfl, rfl⟩ steps_doubled (by decide)).2.2 (by norm_num)

end Example

end PacketTide
