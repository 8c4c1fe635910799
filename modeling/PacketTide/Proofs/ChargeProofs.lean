import PacketTide.Proofs.RateProofs

/-!
# Drops are charged

The controller charges the difference between two readings of the counter, and a whole reading if it had
none before. So it charges no more than has been dropped, unless it starts over with a counter that has
moved already.
-/

namespace PacketTide

/-- What is charged for a reading after another one. -/
def charge (previous current : Option Nat) : Nat :=
  match current, previous with
  | some current, some previous => current - previous
  | some current, none => current
  | none, _ => 0

/-- What is charged for a list of readings. -/
def charges : Option Nat → List (Option Nat) → Nat
  | _, [] => 0
  | previous, current :: decided => charge previous current + charges current decided

theorem dropsSince_eq_charge (c : RateController) (telemetry : ReceiverTelemetry) :
    c.dropsSince telemetry = charge c.lastTelemetry.socketDrops telemetry.socketDrops := by
  unfold RateController.dropsSince charge
  rfl

theorem charges_concat (previous current : Option Nat) (decided : List (Option Nat)) :
    charges previous (decided ++ [current]) =
      charges previous decided + charge (decided.getLastD previous) current := by
  induction decided generalizing previous with
  | nil => exact Nat.add_comm _ _
  | cons first decided ih =>
    rw [List.cons_append, charges, charges, ih, List.getLastD_cons, Nat.add_assoc]

/-- Nothing is charged only for a counter that stays at zero. -/
theorem charges_eq_zero {previous : Option Nat} {decided : List (Option Nat)}
    (hprevious : ∀ reading, previous = some reading → reading = 0) (h : charges previous decided = 0) :
    ∀ reading, some reading ∈ decided → reading = 0 := by
  induction decided generalizing previous with
  | nil =>
    intro reading hmem
    exact absurd hmem List.not_mem_nil
  | cons current decided ih =>
    obtain ⟨hfirst, hrest⟩ := Nat.add_eq_zero_iff.1 h
    have hcurrent : ∀ reading, current = some reading → reading = 0 := by
      rintro reading rfl
      rcases previous with _ | previous
      · exact hfirst
      · have hzero := hprevious previous rfl
        have hdiff : reading - previous = 0 := hfirst
        omega
    intro reading hmem
    rcases List.mem_cons.1 hmem with heq | hmem
    · exact hcurrent reading heq.symm
    · exact ih hcurrent hrest reading hmem

theorem charges_of_zero {previous : Option Nat} {decided : List (Option Nat)}
    (h : ∀ reading, some reading ∈ decided → reading = 0) : charges previous decided = 0 := by
  induction decided generalizing previous with
  | nil => rfl
  | cons current decided ih =>
    rw [charges, ih fun reading hmem => h reading (List.mem_cons_of_mem _ hmem), Nat.add_zero]
    rcases current with _ | current
    · rfl
    · obtain rfl := h current List.mem_cons_self
      rcases previous with _ | previous
      · rfl
      · exact Nat.zero_sub previous

/-! ## The readings that are decided by -/

/-- The controller charges for the readings that it decides by. -/
theorem charged_eq_charges (payloadBytes : Nat) (c : RateController) (reports : List Observation) :
    c.charged payloadBytes reports = charges c.lastTelemetry.socketDrops (c.decidedReadings reports) := by
  induction reports generalizing c with
  | nil =>
    unfold RateController.decidedReadings
    split <;> rfl
  | cons report reports ih =>
    rw [RateController.charged, ih]
    unfold RateController.decidedReadings
    by_cases hdecides : c.Decides report.now
    · obtain ⟨hfixed, hlate⟩ := not_or.1 hdecides
      obtain ⟨hfixed', -, -, hinterval, htime, hlast⟩ :=
        @RateController.observe_keeps c report.telemetry report.now payloadBytes hdecides
      have hafter : ¬max 0 (report.now - c.lastDecision) < c.decisionInterval := hlate
      rw [if_pos hdecides, hfixed', if_neg hfixed, if_neg hfixed, hinterval, htime, hlast,
        RateController.readingsAfter, if_neg hafter]
      show c.dropsSince report.telemetry + _ = charge _ _ + _
      rw [dropsSince_eq_charge]
    · have hskip := not_not.1 hdecides
      have hobserve : c.observe report.telemetry report.now payloadBytes = c := by
        unfold RateController.observe
        rw [if_pos hskip]
      rw [if_neg hdecides, hobserve, Nat.zero_add]
      by_cases hfixed : c.fixed = true
      · rw [if_pos hfixed, if_pos hfixed]
      · have hearly : max 0 (report.now - c.lastDecision) < c.decisionInterval := hskip.resolve_left hfixed
        rw [if_neg hfixed, if_neg hfixed, RateController.readingsAfter, if_pos hearly]

/-- One more report is decided by, or it is not. -/
theorem readingsAfter_concat (interval last : ℚ) (reports : List Observation) (report : Observation) :
    RateController.readingsAfter interval last (reports ++ [report]) =
        RateController.readingsAfter interval last reports ∨
      RateController.readingsAfter interval last (reports ++ [report]) =
        RateController.readingsAfter interval last reports ++ [report.telemetry.socketDrops] := by
  induction reports generalizing last with
  | nil =>
    by_cases hearly : max 0 (report.now - last) < interval
    · exact .inl (if_pos hearly)
    · exact .inr (if_neg hearly)
  | cons first reports ih =>
    rw [List.cons_append, RateController.readingsAfter, RateController.readingsAfter]
    split
    · exact ih last
    · rcases ih first.now with h | h
      · exact .inl (by rw [h])
      · exact .inr (by rw [h]; rfl)

theorem decidedReadings_concat (c : RateController) (reports : List Observation) (report : Observation) :
    c.decidedReadings (reports ++ [report]) = c.decidedReadings reports ∨
      c.decidedReadings (reports ++ [report]) =
        c.decidedReadings reports ++ [report.telemetry.socketDrops] := by
  unfold RateController.decidedReadings
  split
  · exact .inl rfl
  · exact readingsAfter_concat _ _ _ _

theorem readings_concat (reports : List Observation) (report : Observation) :
    readings (reports ++ [report]) = readings reports ++ report.telemetry.socketDrops.toList := by
  unfold readings
  rw [List.filterMap_append, List.filterMap_cons]
  cases report.telemetry.socketDrops <;> rfl

theorem decidedReadings_sublist (c : RateController) (reports : List Observation) :
    List.Sublist ((c.decidedReadings reports).filterMap id) (readings reports) := by
  induction reports using List.reverseRecOn with
  | nil =>
    unfold RateController.decidedReadings
    split <;> exact List.Sublist.refl _
  | append_singleton reports report ih =>
    rw [readings_concat]
    rcases decidedReadings_concat c reports report with h | h
    · rw [h]
      exact ih.trans (List.sublist_append_left _ _)
    · rw [h, List.filterMap_append]
      refine ih.append ?_
      cases report.telemetry.socketDrops <;> exact List.Sublist.refl _

/-- The last reading is the greatest one. -/
theorem le_last {start reading : Nat} {values : List Nat} (h : (start :: values).Pairwise (· ≤ ·))
    (hmem : reading ∈ start :: values) : reading ≤ values.getLastD start := by
  induction values generalizing start reading with
  | nil => exact (List.mem_singleton.1 hmem).le
  | cons next values ih =>
    rw [List.getLastD_cons]
    obtain ⟨hstart, hnext⟩ := List.pairwise_cons.1 h
    rcases List.mem_cons.1 hmem with rfl | hmem
    · exact (hstart next List.mem_cons_self).trans (ih hnext List.mem_cons_self)
    · exact ih hnext hmem

/-! ## The sum of the charges -/

section Sum

variable {start : Nat} {decided : List (Option Nat)}

theorem unmoved_nil : RateController.Unmoved start [] := by
  intro before reading after hsplit
  have hlength := congrArg List.length hsplit
  rw [List.length_append, List.length_cons, List.length_cons] at hlength
  simp only [List.length_cons, List.length_nil] at hlength
  omega

theorem unmoved_concat {current : Option Nat} :
    RateController.Unmoved start (decided ++ [current]) ↔ RateController.Unmoved start decided ∧
      (decided.getLastD none = none → current ≠ none →
        start = 0 ∧ ∀ earlier, some earlier ∈ decided → earlier = 0) := by
  constructor
  · intro h
    refine ⟨fun before reading after hsplit => ?_, fun hlast hcurrent => ?_⟩
    · refine h before reading (after ++ [current]) ?_
      rw [← List.cons_append, hsplit, List.append_assoc]
      rfl
    · obtain ⟨reading, rfl⟩ := Option.ne_none_iff_exists'.1 hcurrent
      rcases List.eq_nil_or_concat' decided with rfl | ⟨before, last, rfl⟩
      · exact ⟨(h [] reading [] rfl).1, fun earlier hmem => absurd hmem List.not_mem_nil⟩
      · rw [List.getLastD_concat] at hlast
        subst hlast
        obtain ⟨hstart, hzero⟩ := h (none :: before) reading [] (by simp)
        refine ⟨hstart, fun earlier hmem => hzero earlier (List.mem_cons_of_mem _ ?_)⟩
        rcases List.mem_append.1 hmem with hmem | hmem
        · exact hmem
        · cases List.mem_singleton.1 hmem
  · rintro ⟨h, hcurrent⟩ before reading after hsplit
    rcases List.eq_nil_or_concat' after with rfl | ⟨after, last, rfl⟩
    · have hsplit' : (none :: decided) ++ [current] = (before ++ [none]) ++ [some reading] := by
        rw [List.cons_append, hsplit, List.append_assoc]
        rfl
      obtain ⟨hdecided, hreading⟩ := List.append_inj' hsplit' rfl
      have hlast : decided.getLastD none = none := by
        have hgetLast := congrArg (List.getLastD · none) hdecided
        rwa [List.getLastD_cons, List.getLastD_concat] at hgetLast
      obtain ⟨hstart, hzero⟩ := hcurrent hlast (by rw [List.singleton_inj.1 hreading]; exact Option.some_ne_none _)
      refine ⟨hstart, fun earlier hmem => hzero earlier ?_⟩
      have hmem' : some earlier ∈ none :: decided := hdecided ▸ List.mem_append_left _ hmem
      exact (List.mem_cons.1 hmem').resolve_left (Option.some_ne_none _)
    · have hsplit' : (none :: decided) ++ [current] = (before ++ none :: some reading :: after) ++ [last] := by
        rw [List.cons_append, hsplit, List.append_assoc]
        rfl
      exact h before reading after (List.append_inj' hsplit' rfl).1

theorem last_available {reading : Nat} (h : decided.getLastD none = some reading) :
    reading ∈ decided.filterMap id ∧ (decided.filterMap id).getLastD start = reading := by
  rcases List.eq_nil_or_concat' decided with rfl | ⟨before, last, rfl⟩
  · cases h
  · rw [List.getLastD_concat] at h
    subst h
    rw [List.filterMap_append]
    exact ⟨List.mem_append_right _ (List.mem_singleton.2 rfl), List.getLastD_concat⟩

/-- As long as the counter is not charged as a whole, the charges are bounded by its increase. -/
theorem charges_le (h : (start :: decided.filterMap id).Pairwise (· ≤ ·))
    (hunmoved : RateController.Unmoved start decided) :
    charges none decided + start ≤ (decided.filterMap id).getLastD start := by
  induction decided using List.reverseRecOn with
  | nil => exact (Nat.zero_add start).le
  | append_singleton decided current ih =>
    obtain ⟨hbefore, hcurrent⟩ := unmoved_concat.1 hunmoved
    rw [List.filterMap_append, ← List.cons_append] at h
    have hcharges := ih (List.pairwise_append.1 h).1 hbefore
    rw [charges_concat, List.filterMap_append]
    rcases current with _ | reading
    · show _ + 0 + start ≤ (_ ++ []).getLastD start
      rw [Nat.add_zero, List.append_nil]
      exact hcharges
    · have hlast : (decided.filterMap id ++ List.filterMap id [some reading]).getLastD start = reading :=
        List.getLastD_concat
      rw [hlast]
      rcases hprevious : decided.getLastD none with _ | previous
      · obtain ⟨rfl, hzero⟩ := hcurrent hprevious (Option.some_ne_none _)
        rw [charges_of_zero hzero, Nat.zero_add, Nat.add_zero]
        exact le_rfl
      · obtain ⟨hmem, hlast⟩ := @last_available start _ _ hprevious
        have hge : previous ≤ reading :=
          (List.pairwise_append.1 h).2.2 previous (List.mem_cons_of_mem _ hmem) reading (List.mem_singleton.2 rfl)
        rw [hlast] at hcharges
        show _ + (reading - previous) + start ≤ reading
        omega

end Sum

/-! ## Runs of the controller -/

section Runs

variable {start payloadBytes : Nat} {c : RateController} {reports : List Observation}

theorem readings_take (h : Readings start reports) (n : Nat) : Readings start (reports.take n) :=
  List.Pairwise.sublist (((List.take_sublist n reports).filterMap _).cons₂ start) h

theorem charged_le (hfirst : c.lastTelemetry.socketDrops = none) (h : Readings start reports)
    (hunmoved : RateController.Unmoved start (c.decidedReadings reports)) :
    c.charged payloadBytes reports + start ≤ lastReading start reports := by
  have hsublist := (decidedReadings_sublist c reports).cons₂ start
  rw [charged_eq_charges, hfirst]
  refine (charges_le (h.sublist hsublist) hunmoved).trans (le_last h ?_)
  exact hsublist.subset List.getLastD_mem_cons

/-- The charges are bounded at the end and at all times before. -/
theorem forall_take_concat {P : List Observation → Prop} {report : Observation} :
    (∀ n, P ((reports ++ [report]).take n)) ↔ (∀ n, P (reports.take n)) ∧ P (reports ++ [report]) := by
  constructor
  · intro h
    constructor
    · intro n
      have hn := h (min n reports.length)
      rwa [List.take_append_of_le_length (Nat.min_le_right _ _), ← List.take_eq_take_min] at hn
    · have hall := h (reports ++ [report]).length
      rwa [List.take_length] at hall
  · rintro ⟨hbefore, hall⟩ n
    by_cases hn : n ≤ reports.length
    · rw [List.take_append_of_le_length hn]
      exact hbefore n
    · rw [List.take_of_length_le (by rw [List.length_append, List.length_singleton]; omega)]
      exact hall

/-- The charges are bounded by the increase of the counter exactly as long as no decision charges a counter
that has moved as a whole. -/
theorem charged_le_iff (hfirst : c.lastTelemetry.socketDrops = none) (h : Readings start reports) :
    (∀ n, c.charged payloadBytes (reports.take n) + start ≤ lastReading start (reports.take n)) ↔
      RateController.Unmoved start (c.decidedReadings reports) := by
  induction reports using List.reverseRecOn with
  | nil =>
    have hnone : c.decidedReadings [] = [] := by
      unfold RateController.decidedReadings
      split <;> rfl
    rw [hnone]
    refine ⟨fun _ => unmoved_nil, fun _ n => ?_⟩
    rw [List.take_nil]
    exact (Nat.zero_add start).le
  | append_singleton reports report ih =>
    have hbefore : Readings start reports := by
      have htake := readings_take h reports.length
      rwa [List.take_left] at htake
    rw [@forall_take_concat reports fun reports =>
      c.charged payloadBytes reports + start ≤ lastReading start reports, ih hbefore]
    refine ⟨?_, fun hunmoved => ⟨?_, charged_le hfirst h hunmoved⟩⟩
    · rintro ⟨hunmoved, hcharged⟩
      rcases decidedReadings_concat c reports report with hdecided | hdecided
      · rw [hdecided]
        exact hunmoved
      rw [hdecided]
      refine unmoved_concat.2 ⟨hunmoved, fun hlast hreading => ?_⟩
      obtain ⟨reading, hreading⟩ := Option.ne_none_iff_exists'.1 hreading
      have hmoved : lastReading start (reports ++ [report]) = reading := by
        unfold lastReading
        rw [readings_concat, hreading]
        exact List.getLastD_concat
      have hstart : start ≤ reading := by
        refine (le_last h List.mem_cons_self).trans_eq hmoved
      rw [charged_eq_charges, hfirst, hdecided, charges_concat, hlast, hreading, hmoved] at hcharged
      -- the whole reading is charged, so nothing else can have been
      have hwhole : charges none (c.decidedReadings reports) + reading + start ≤ reading := hcharged
      have hnothing : charges none (c.decidedReadings reports) = 0 := by omega
      refine ⟨by omega, charges_eq_zero (fun earlier hnone => ?_) hnothing⟩
      cases hnone
    · rcases decidedReadings_concat c reports report with hdecided | hdecided
      · rwa [hdecided] at hunmoved
      · rw [hdecided] at hunmoved
        exact (unmoved_concat.1 hunmoved).1

end Runs

/-- A controller never charges more than the counter has increased by, exactly as long as it does not charge
a counter that has moved as a whole. -/
theorem charges_within_increase_iff {start payloadBytes : Nat} {fixedRateMbps : Option ℚ}
    {minRateMbps maxRateMbps reportInterval now : ℚ} {reports : List Observation} (h : Readings start reports) :
    (∀ n, (RateController.new fixedRateMbps minRateMbps maxRateMbps reportInterval now).charged payloadBytes
        (reports.take n) ≤ lastReading start (reports.take n) - start) ↔
      RateController.Unmoved start
        ((RateController.new fixedRateMbps minRateMbps maxRateMbps reportInterval now).decidedReadings reports) := by
  rw [← @charged_le_iff start payloadBytes _ _ rfl h]
  refine forall_congr' fun n => ?_
  exact Nat.le_sub_iff_add_le (le_last (readings_take h n) List.mem_cons_self)

section Example

/-- The rule, for two readings of a counter that is new. -/
theorem charges_within_increase_new :
    Readings 0 [⟨{ socketDrops := some 3 }, 1⟩, ⟨{ socketDrops := some 5 }, 2⟩] ∧
    ∀ n, (RateController.new none 10 100 (1 / 20) 0).charged 1200
        ([⟨{ socketDrops := some 3 }, 1⟩, ⟨{ socketDrops := some 5 }, 2⟩].take n) ≤
      lastReading 0 ([⟨{ socketDrops := some 3 }, 1⟩, ⟨{ socketDrops := some 5 }, 2⟩].take n) - 0 := by
  have hreadings : Readings 0 [⟨{ socketDrops := some 3 }, 1⟩, ⟨{ socketDrops := some 5 }, 2⟩] := by
    show List.Pairwise (· ≤ ·) [0, 3, 5]
    decide
  refine ⟨hreadings, (charges_within_increase_iff hreadings).2 ?_⟩
  have hdecided : (RateController.new none 10 100 (1 / 20) 0).decidedReadings
      [⟨{ socketDrops := some 3 }, 1⟩, ⟨{ socketDrops := some 5 }, 2⟩] = [some 3] ++ [some 5] := by
    decide +kernel
  rw [hdecided]
  refine unmoved_concat.2 ⟨@unmoved_concat 0 [] _ |>.2 ⟨unmoved_nil, fun _ _ => ⟨rfl, ?_⟩⟩, ?_⟩
  · intro earlier hmem
    exact absurd hmem List.not_mem_nil
  · intro hlast
    cases hlast

/-- A counter that stands at seven when the transfer starts is charged as a whole, though nothing is dropped. -/
theorem old_drops_charged :
    ¬∀ (start : Nat) (reports : List Observation), Readings start reports →
      (RateController.new none 10 100 (1 / 20) 0).charged 1200 reports ≤ lastReading start reports - start := by
  intro h
  have hcharged := h 7 [⟨{ socketDrops := some 7 }, 1⟩] (by show List.Pairwise (· ≤ ·) [7, 7]; decide)
  have hseven : (RateController.new none 10 100 (1 / 20) 0).charged 1200 [⟨{ socketDrops := some 7 }, 1⟩] = 7 := by
    decide +kernel
  rw [hseven] at hcharged
  have hincrease : lastReading 7 [⟨{ socketDrops := some 7 }, 1⟩] - 7 = 0 := rfl
  omega

end Example

end PacketTide
