import PacketTide.RateController
import PacketTide.Settling.Basic
import Mathlib.Algebra.Order.Floor.Ring
import Mathlib.Tactic.FieldSimp
import Mathlib.Tactic.Positivity

/-!
# The rate settles

At a bottleneck the controller raises the rate as long as nothing is dropped, and lowers it as soon as
something is. So the rate settles around the bottleneck.
-/

namespace PacketTide

namespace RateController

variable {c : RateController} {telemetry : ReceiverTelemetry} {now rate : ℚ} {payloadBytes : Nat}

theorem clamp_mem (h : c.minRateMbps ≤ c.maxRateMbps) :
    c.minRateMbps ≤ c.clamp rate ∧ c.clamp rate ≤ c.maxRateMbps :=
  ⟨le_min (le_max_right _ _) h, min_le_right _ _⟩

/-- What a decision does to the rate. -/
theorem rate_observe (h : c.Decides now) :
    (c.observe telemetry now payloadBytes).rateMbps =
      c.clamp (candidate c.rateMbps (c.signal telemetry now payloadBytes)).1 := by
  unfold observe
  rw [if_neg h]

/-- What a decision keeps, and what it remembers. -/
theorem observe_keeps (h : c.Decides now) :
    (c.observe telemetry now payloadBytes).fixed = c.fixed ∧
      (c.observe telemetry now payloadBytes).minRateMbps = c.minRateMbps ∧
      (c.observe telemetry now payloadBytes).maxRateMbps = c.maxRateMbps ∧
      (c.observe telemetry now payloadBytes).decisionInterval = c.decisionInterval ∧
      (c.observe telemetry now payloadBytes).lastDecision = now ∧
      (c.observe telemetry now payloadBytes).lastTelemetry = telemetry := by
  unfold observe
  rw [if_neg h]
  exact ⟨rfl, rfl, rfl, rfl, rfl, rfl⟩

end RateController

/-! ## Raising and lowering -/

/-- A rate is raised below a limit and lowered from it on, between two bounds. -/
structure Steered (low high limit : ℚ) (r : ℕ → ℚ) : Prop where
  low_pos : 0 < low
  low_le : low ≤ limit
  le_high : limit ≤ high
  raised : ∀ n, r n < limit → r (n + 1) = min (max (max (r n * (125 / 100)) (r n + 1)) low) high
  lowered : ∀ n, limit ≤ r n → r (n + 1) = min (max (r n * (7 / 10)) low) high

section Steering

variable {low high limit : ℚ} {r : ℕ → ℚ} {n : Nat}

/-- A raise adds at least one unless it reaches the limit, and does not go far beyond it. -/
theorem Steered.raise (h : Steered low high limit r) (hn : r n < limit) :
    (r n + 1 ≤ r (n + 1) ∨ limit ≤ r (n + 1)) ∧ r (n + 1) ≤ max (125 / 100 * limit) (limit + 1) := by
  have hlow := h.low_le
  have htop : limit + 1 ≤ max (125 / 100 * limit) (limit + 1) := le_max_right _ _
  have hone : r n + 1 ≤ max (max (r n * (125 / 100)) (r n + 1)) low :=
    (le_max_right _ _).trans (le_max_left _ _)
  rw [h.raised n hn]
  constructor
  · by_cases hfull : r n + 1 ≤ high
    · exact .inl (le_min hone hfull)
    · have hpast : high ≤ r n + 1 := (not_le.1 hfull).le
      exact .inr (le_min ((h.le_high.trans hpast).trans hone) h.le_high)
  · refine (min_le_left _ _).trans (max_le (max_le_max ?_ ?_) ?_)
    · linarith
    · linarith
    · linarith

/-- A reduction takes away three tenths, unless it comes below the limit. -/
theorem Steered.reduce (h : Steered low high limit r) (hn : limit ≤ r n) :
    7 / 10 * limit ≤ r (n + 1) ∧ (r (n + 1) ≤ r n * (7 / 10) ∨ r (n + 1) ≤ limit) := by
  have hlow := h.low_le
  have hpos := h.low_pos
  have hhigh := h.le_high
  rw [h.lowered n hn]
  constructor
  · refine le_min (le_max_of_le_left ?_) ?_
    · linarith
    · linarith
  · rcases le_total (r n * (7 / 10)) low with hsmall | hlarge
    · right
      rw [max_eq_right hsmall]
      exact (min_le_left _ _).trans hlow
    · left
      rw [max_eq_left hlarge]
      exact min_le_left _ _

/-- Such a rate settles around the limit. -/
theorem Steered.settles (h : Steered low high limit r) :
    ∃ N, ∀ n, N ≤ n → r n ∈ Set.Icc (7 / 10 * limit) (max (125 / 100 * limit) (limit + 1)) := by
  have hpos : 0 < limit := h.low_pos.trans_le h.low_le
  have htop : limit + 1 ≤ max (125 / 100 * limit) (limit + 1) := le_max_right _ _
  refine Settling.settles (show (0 : ℚ) < 3 / 10 by norm_num) ?_ ?_ ?_ ?_ ?_
  · intro n hn
    rcases (h.raise (show r n < limit by linarith)).1 with hup | hdone
    · exact .inl (by linarith)
    · exact .inr (by linarith)
  · intro n hn
    rcases (h.reduce (show limit ≤ r n by linarith)).2 with hdown | hdone
    · exact .inl (by linarith)
    · exact .inr (by linarith)
  · intro n hn
    exact (h.raise (by linarith)).2
  · intro n hn
    exact (h.reduce (by linarith)).1
  · rintro n ⟨hge, hle⟩
    by_cases hn : r n < limit
    · obtain ⟨hup, hbelow⟩ := h.raise hn
      refine ⟨?_, hbelow⟩
      rcases hup with hup | hdone
      · linarith
      · linarith
    · obtain ⟨hdown, hcases⟩ := h.reduce (not_lt.1 hn)
      refine ⟨hdown, ?_⟩
      rcases hcases with hcase | hcase
      · linarith
      · linarith

end Steering

namespace Bottleneck

variable {p : Bottleneck} {start c : RateController} {telemetry : ReceiverTelemetry} {n : Nat}

/-- The controller has decided by the last report, and keeps to its bounds. -/
structure Follows (p : Bottleneck) (start c : RateController) (telemetry : ReceiverTelemetry) : Prop where
  fixed : c.fixed = false
  min_eq : c.minRateMbps = start.minRateMbps
  max_eq : c.maxRateMbps = start.maxRateMbps
  interval_le : c.decisionInterval ≤ p.interval
  interval_pos : 0 < p.interval
  accepted : c.lastTelemetry.acceptedDatagrams = telemetry.acceptedDatagrams
  valid : c.lastTelemetry.validDatagrams = telemetry.validDatagrams
  drops : c.lastTelemetry.socketDrops.getD 0 = telemetry.socketDrops.getD 0

theorem Follows.elapsed (h : p.Follows start c telemetry) :
    c.elapsed (c.lastDecision + p.interval) = p.interval := by
  unfold RateController.elapsed
  rw [add_sub_cancel_left]
  exact max_eq_right h.interval_pos.le

theorem Follows.decides (h : p.Follows start c telemetry) : c.Decides (c.lastDecision + p.interval) := by
  rintro (hfixed | hearly)
  · rw [h.fixed] at hfixed
    cases hfixed
  · rw [h.elapsed] at hearly
    exact absurd h.interval_le (not_le.2 hearly)

/-- What the controller sees of an interval. -/
theorem Follows.signal (h : p.Follows start c telemetry) (hpayload : 0 < p.payloadBytes) :
    let s := c.signal (p.report c.rateMbps telemetry) (c.lastDecision + p.interval) p.payloadBytes
    s.accepted = min ⌊c.rateMbps * p.datagramsPerRate⌋₊ p.capacity ∧
      s.socketDrops = ⌊c.rateMbps * p.datagramsPerRate⌋₊ - min ⌊c.rateMbps * p.datagramsPerRate⌋₊ p.capacity ∧
      s.usefulRateMbps = s.accepted / p.datagramsPerRate ∧
      (s.socketDrops = 0 → s.wasteRatio = 0) := by
  intro s
  have haccepted : s.accepted = min ⌊c.rateMbps * p.datagramsPerRate⌋₊ p.capacity := by
    show telemetry.acceptedDatagrams + _ - c.lastTelemetry.acceptedDatagrams = _
    rw [h.accepted, Nat.add_sub_cancel_left]
  have hdrops : s.socketDrops =
      ⌊c.rateMbps * p.datagramsPerRate⌋₊ - min ⌊c.rateMbps * p.datagramsPerRate⌋₊ p.capacity := by
    have hlast := h.drops
    show c.dropsSince (p.report c.rateMbps telemetry) = _
    unfold RateController.dropsSince
    rcases hprevious : c.lastTelemetry.socketDrops with _ | previous
    · rw [hprevious] at hlast
      show telemetry.socketDrops.getD 0 + _ = _
      rw [← hlast]
      exact Nat.zero_add _
    · rw [hprevious] at hlast
      show telemetry.socketDrops.getD 0 + _ - previous = _
      rw [← hlast]
      exact Nat.add_sub_cancel_left previous _
  refine ⟨haccepted, hdrops, ?_, fun hzero => ?_⟩
  · show (s.accepted : ℚ) * p.payloadBytes * 8 / c.elapsed (c.lastDecision + p.interval) / 1000000 = _
    rw [h.elapsed, datagramsPerRate]
    have hinterval := h.interval_pos
    have hbytes : (0 : ℚ) < p.payloadBytes := by exact_mod_cast hpayload
    field_simp
  · have hvalid : telemetry.validDatagrams + min ⌊c.rateMbps * p.datagramsPerRate⌋₊ p.capacity -
        c.lastTelemetry.validDatagrams = s.accepted := by
      rw [h.valid, Nat.add_sub_cancel_left, haccepted]
    show (if telemetry.validDatagrams + min ⌊c.rateMbps * p.datagramsPerRate⌋₊ p.capacity -
        c.lastTelemetry.validDatagrams = 0 then (0 : ℚ)
      else saturatingAdd (telemetry.validDatagrams + min ⌊c.rateMbps * p.datagramsPerRate⌋₊ p.capacity -
        c.lastTelemetry.validDatagrams - s.accepted) s.socketDrops / _) = 0
    rw [hvalid, hzero, Nat.sub_self]
    by_cases hnone : s.accepted = 0
    · rw [if_pos hnone]
    · rw [if_neg hnone]
      show ((0 : ℕ) : ℚ) / _ = 0
      rw [Nat.cast_zero, zero_div]

/-! ## One interval -/

/-- Below its limit the path takes everything. -/
theorem offered_le_iff (hk : 0 < p.datagramsPerRate) {rate : ℚ} (hrate : 0 ≤ rate) :
    ⌊rate * p.datagramsPerRate⌋₊ ≤ p.capacity ↔ rate < p.limit := by
  have hpos : 0 ≤ rate * p.datagramsPerRate := mul_nonneg hrate hk.le
  rw [limit, lt_div_iff₀ hk, ← Nat.lt_succ_iff, Nat.floor_lt hpos]
  push_cast
  rfl

/-- Below the limit the rate is raised. -/
theorem Follows.rate_below (h : p.Follows start c telemetry) (hpayload : 0 < p.payloadBytes)
    (hk : 0 < p.datagramsPerRate) (hfive : 5 ≤ c.rateMbps * p.datagramsPerRate) (hlt : c.rateMbps < p.limit) :
    (c.observe (p.report c.rateMbps telemetry) (c.lastDecision + p.interval) p.payloadBytes).rateMbps =
      c.clamp (max (c.rateMbps * (125 / 100)) (c.rateMbps + 1)) := by
  obtain ⟨haccepted, hdrops, huseful, hwaste⟩ := h.signal hpayload
  have hrate : 0 ≤ c.rateMbps := by
    by_contra hneg
    have hprod := mul_neg_of_neg_of_pos (not_le.1 hneg) hk
    linarith
  have hall := (offered_le_iff hk hrate).2 hlt
  rw [min_eq_left hall] at haccepted hdrops
  rw [Nat.sub_self] at hdrops
  have hfloor : (5 : ℕ) ≤ ⌊c.rateMbps * p.datagramsPerRate⌋₊ := Nat.le_floor (by exact_mod_cast hfive)
  -- the fraction of a datagram that is not offered is at most a fifth of what is
  have hfollows : c.rateMbps * (8 / 10) ≤
      (⌊c.rateMbps * p.datagramsPerRate⌋₊ : ℚ) / p.datagramsPerRate := by
    rw [le_div_iff₀ hk]
    have hlast := Nat.lt_floor_add_one (c.rateMbps * p.datagramsPerRate)
    linarith
  rw [RateController.rate_observe h.decides, RateController.candidate, if_neg, if_neg, if_pos]
  · rw [huseful, haccepted]
    exact hfollows
  · rw [hwaste hdrops, hdrops]
    rintro (hpositive | hpositive)
    · norm_num at hpositive
    · exact Nat.lt_irrefl 0 hpositive
  · rw [haccepted]
    omega

/-- From the limit on the rate is lowered. -/
theorem Follows.rate_above (h : p.Follows start c telemetry) (hpayload : 0 < p.payloadBytes)
    (hk : 0 < p.datagramsPerRate) (hcapacity : 1 ≤ p.capacity) (hrate : 0 ≤ c.rateMbps) (hle : p.limit ≤ c.rateMbps) :
    (c.observe (p.report c.rateMbps telemetry) (c.lastDecision + p.interval) p.payloadBytes).rateMbps =
      c.clamp (c.rateMbps * (7 / 10)) := by
  obtain ⟨haccepted, hdrops, -, -⟩ := h.signal hpayload
  have hover : p.capacity < ⌊c.rateMbps * p.datagramsPerRate⌋₊ := by
    by_contra hall
    exact absurd ((offered_le_iff hk hrate).1 (not_lt.1 hall)) (not_lt.2 hle)
  rw [min_eq_right hover.le] at haccepted hdrops
  rw [RateController.rate_observe h.decides, RateController.candidate, if_neg, if_pos]
  · right
    rw [hdrops]
    omega
  · rw [haccepted]
    omega

theorem Follows.step (h : p.Follows start c telemetry) :
    p.Follows start (c.observe (p.report c.rateMbps telemetry) (c.lastDecision + p.interval) p.payloadBytes)
      (p.report c.rateMbps telemetry) := by
  obtain ⟨hfixed, hmin, hmax, hinterval, -, hlast⟩ := @RateController.observe_keeps c
    (p.report c.rateMbps telemetry) _ p.payloadBytes h.decides
  refine ⟨hfixed.trans h.fixed, hmin.trans h.min_eq, hmax.trans h.max_eq, ?_, h.interval_pos, ?_, ?_, ?_⟩
  · rw [hinterval]
    exact h.interval_le
  · rw [hlast]
  · rw [hlast]
  · rw [hlast]

/-- A controller that has not decided by anything yet. -/
structure Fresh (p : Bottleneck) (start : RateController) : Prop where
  fixed : start.fixed = false
  interval_le : start.decisionInterval ≤ p.interval
  interval_pos : 0 < p.interval
  telemetry : start.lastTelemetry = {}

theorem follows_run (h : p.Fresh start) (n : Nat) : p.Follows start (p.run start n).1 (p.run start n).2 := by
  induction n with
  | zero =>
    refine ⟨h.fixed, rfl, rfl, h.interval_le, h.interval_pos, ?_, ?_, ?_⟩ <;>
    · show _ = _
      rw [show (p.run start 0).1.lastTelemetry = {} from h.telemetry]
      rfl
  | succ n ih => exact ih.step

/-! ## Settling -/

/-- The rate keeps to its bounds. -/
theorem rateAfter_mem (h : p.Fresh start) (hbounds : start.minRateMbps ≤ start.maxRateMbps)
    (hstart : start.minRateMbps ≤ start.rateMbps ∧ start.rateMbps ≤ start.maxRateMbps) (n : Nat) :
    start.minRateMbps ≤ p.rateAfter start n ∧ p.rateAfter start n ≤ start.maxRateMbps := by
  cases n with
  | zero => exact hstart
  | succ n =>
    have hfollows := follows_run h n
    have hclamp := @RateController.clamp_mem (p.run start n).1
      (RateController.candidate (p.run start n).1.rateMbps ((p.run start n).1.signal
        (p.report (p.run start n).1.rateMbps (p.run start n).2) ((p.run start n).1.lastDecision + p.interval)
          p.payloadBytes)).1 (by rw [hfollows.min_eq, hfollows.max_eq]; exact hbounds)
    rw [← RateController.rate_observe hfollows.decides, hfollows.min_eq, hfollows.max_eq] at hclamp
    exact hclamp

/-- The rate of the next interval. -/
theorem rateAfter_succ (h : p.Fresh start) (hpayload : 0 < p.payloadBytes) (hk : 0 < p.datagramsPerRate)
    (hcapacity : 1 ≤ p.capacity) (hfive : 5 ≤ start.minRateMbps * p.datagramsPerRate)
    (hmin : start.minRateMbps ≤ p.rateAfter start n) :
    p.rateAfter start (n + 1) = start.clamp (if p.rateAfter start n < p.limit then
      max (p.rateAfter start n * (125 / 100)) (p.rateAfter start n + 1) else p.rateAfter start n * (7 / 10)) := by
  have hfollows := follows_run h n
  have hclamp : ∀ rate, (p.run start n).1.clamp rate = start.clamp rate := by
    intro rate
    unfold RateController.clamp
    rw [hfollows.min_eq, hfollows.max_eq]
  have hrate : 5 ≤ p.rateAfter start n * p.datagramsPerRate := hfive.trans (mul_le_mul_of_nonneg_right hmin hk.le)
  by_cases hlt : p.rateAfter start n < p.limit
  · rw [if_pos hlt, ← hclamp]
    exact hfollows.rate_below hpayload hk hrate hlt
  · have hpos : 0 ≤ p.rateAfter start n := by
      by_contra hneg
      have hprod := mul_neg_of_neg_of_pos (not_le.1 hneg) hk
      linarith
    rw [if_neg hlt, ← hclamp]
    exact hfollows.rate_above hpayload hk hcapacity hpos (not_lt.1 hlt)

/-- The rate settles around the limit of the path, and keeps to its bounds all the time. -/
theorem rate_settles {minRate maxRate reportInterval now rate : ℚ} (hpayload : 0 < p.payloadBytes)
    (hinterval : (RateController.new none minRate maxRate reportInterval now).decisionInterval ≤ p.interval)
    (hcapacity : 1 ≤ p.capacity) (hmin : minRate ≤ p.limit) (hmax : p.limit ≤ maxRate)
    (hfive : 5 ≤ minRate * p.datagramsPerRate) (hrate : minRate ≤ rate ∧ rate ≤ maxRate) :
    (∀ n, p.rateAfter { RateController.new none minRate maxRate reportInterval now with rateMbps := rate } n ∈
      Set.Icc minRate maxRate) ∧
    ∃ N, ∀ n, N ≤ n →
      p.rateAfter { RateController.new none minRate maxRate reportInterval now with rateMbps := rate } n ∈
        Set.Icc (7 / 10 * p.limit) (max (125 / 100 * p.limit) (p.limit + 1)) := by
  have hpos : 0 < p.interval := by
    have hshort : (200 : ℚ) / 1000 ≤ max (reportInterval * 4) (200 / 1000) := le_max_right _ _
    have hlong : max (reportInterval * 4) (200 / 1000) ≤ p.interval := hinterval
    linarith
  have hk : 0 < p.datagramsPerRate := by
    have hbytes : (0 : ℚ) < p.payloadBytes := by exact_mod_cast hpayload
    unfold datagramsPerRate
    positivity
  have hlow : 0 < minRate := by
    by_contra hneg
    have hprod := mul_nonpos_of_nonpos_of_nonneg (not_lt.1 hneg) hk.le
    linarith
  have hfresh : p.Fresh { RateController.new none minRate maxRate reportInterval now with rateMbps := rate } :=
    ⟨rfl, hinterval, hpos, rfl⟩
  have hmem := rateAfter_mem hfresh (hmin.trans hmax) hrate
  have hsucc := fun n => rateAfter_succ hfresh hpayload hk hcapacity hfive (hmem n).1
  have hsteered : Steered minRate maxRate p.limit
      (p.rateAfter { RateController.new none minRate maxRate reportInterval now with rateMbps := rate }) := by
    refine ⟨hlow, hmin, hmax, fun n hn => ?_, fun n hn => ?_⟩
    · rw [hsucc, if_pos hn]
      rfl
    · rw [hsucc, if_neg (not_lt.2 hn)]
      rfl
  exact ⟨hmem, hsteered.settles⟩

end Bottleneck

section Example

/-- The rule, for a path that takes a hundred datagrams of a thousand bytes in a fifth of a second. -/
theorem rate_settles_hundred :
    ∃ N, ∀ n, N ≤ n → (Bottleneck.mk 100 1000 (1 / 5)).rateAfter
      { RateController.new none 1 10 (1 / 20) 0 with rateMbps := 10 } n ∈
        Set.Icc (7 / 10 * (Bottleneck.mk 100 1000 (1 / 5)).limit)
          (max (125 / 100 * (Bottleneck.mk 100 1000 (1 / 5)).limit) ((Bottleneck.mk 100 1000 (1 / 5)).limit + 1)) := by
  have hk : (Bottleneck.mk 100 1000 (1 / 5)).datagramsPerRate = 25 := by
    norm_num [Bottleneck.datagramsPerRate]
  have hlimit : (Bottleneck.mk 100 1000 (1 / 5)).limit = 101 / 25 := by
    norm_num [Bottleneck.limit, hk]
  refine (Bottleneck.rate_settles (by norm_num) ?_ (by norm_num) ?_ ?_ ?_ ⟨by norm_num, le_rfl⟩).2
  · norm_num [RateController.new]
  · rw [hlimit]
    norm_num
  · rw [hlimit]
    norm_num
  · rw [hk]
    norm_num

end Example

end PacketTide
