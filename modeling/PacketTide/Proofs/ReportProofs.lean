import PacketTide.Intervals.Runs
import PacketTide.Proofs.FeedbackProofs

/-!
# Reports on their way

A report names the first runs of missing chunks and fits into a frame, and the sender queues what it
names.
-/

namespace PacketTide

open Intervals Text

variable {bitmap : Bitmap} {stop chunks : Nat} {ranges : List (Nat × Nat)}

/-! ## The first runs -/

/-- The receiver has not recorded a chunk. -/
def Missing (bitmap : Bitmap) (sequence : Nat) : Prop := bitmapContains bitmap sequence = false

theorem lastMissing_maximal {n sequence : Nat} (hn : stop ≤ sequence + n + 1)
    (hnext : lastMissing bitmap stop n sequence + 1 < stop) :
    ¬Missing bitmap (lastMissing bitmap stop n sequence + 1) := by
  induction n generalizing sequence with
  | zero =>
    rw [lastMissing] at hnext
    omega
  | succ n ih =>
    rw [lastMissing] at hnext ⊢
    split at hnext
    next hmore =>
      rw [if_pos hmore]
      exact ih (by omega) hnext
    next hmore =>
      rw [if_neg hmore]
      exact fun hmissing => hmore ⟨hnext, hmissing⟩

/-- The chunk before one is not missing, unless that one is there too. -/
def Begins (bitmap : Bitmap) (stop sequence : Nat) : Prop :=
  sequence < stop → Missing bitmap sequence → ∀ x, x + 1 = sequence → ¬Missing bitmap x

theorem missingFrom_first {n maxRanges sequence : Nat} (hn : stop ≤ sequence + n)
    (hbegin : Begins bitmap stop sequence) :
    FirstRuns (Missing bitmap) stop maxRanges sequence
      (missingFrom bitmap stop n maxRanges sequence) := by
  induction n generalizing maxRanges sequence with
  | zero => exact firstRuns_end hn
  | succ n ih =>
    rcases maxRanges with _ | maxRanges
    · exact firstRuns_none
    rw [missingFrom]
    split
    next hlt =>
      split
      next hthere =>
        have hnot : ¬Missing bitmap sequence := fun hmissing => by
          rw [hmissing] at hthere
          cases hthere
        refine (ih (by omega) fun _ _ x hx => ?_).skip hnot
        rw [Nat.succ.inj hx]
        exact hnot
      next hbit =>
        have hmissing : Missing bitmap sequence := Bool.eq_false_iff.2 hbit
        obtain ⟨hle, hstop, hall⟩ := lastMissing_spec (n := n) hlt hmissing
        have hmaximal := fun h => @lastMissing_maximal bitmap _ n _ hn h
        have hrun : IsRun (Missing bitmap) stop (sequence, lastMissing bitmap stop n sequence) :=
          ⟨hle, hstop, hall, hbegin hlt hmissing, hmaximal⟩
        exact (ih (by omega) fun hnext hmissing' => absurd hmissing' (hmaximal hnext)).cons hrun
    next hge => exact firstRuns_end (by omega)

/-- The ranges of a report are the first longest runs of missing chunks. -/
theorem missingRanges_first (bitmap : Bitmap) (stop maxRanges : Nat) :
    FirstRuns (Missing bitmap) stop maxRanges 0 (missingRanges bitmap stop maxRanges) :=
  missingFrom_first (by omega) fun _ _ _ hx => absurd hx (Nat.succ_ne_zero _)

/-! ## The length of a report -/

theorem length_formatRange_le {range : Nat × Nat} {k : Nat} (hk : 1 ≤ k) (hfirst : range.1 < 10 ^ k)
    (hlast : range.2 < 10 ^ k) : (formatRange range).length ≤ 2 * k + 1 := by
  have hstart := length_decimal_le hk hfirst
  have hstop := length_decimal_le hk hlast
  unfold formatRange
  split
  · omega
  · rw [List.length_append, List.length_cons]
    omega

theorem length_formatRanges_le {k : Nat} (hk : 1 ≤ k)
    (h : ∀ range ∈ ranges, range.1 < 10 ^ k ∧ range.2 < 10 ^ k) :
    (formatRanges ranges).length ≤ ranges.length * (2 * k + 2) + 1 := by
  unfold formatRanges
  split
  · exact Nat.le_add_left 1 _
  · clear * - hk h
    induction ranges with
    | nil => exact Nat.zero_le _
    | cons range ranges ih =>
      have hrange := h range List.mem_cons_self
      have hlength := length_formatRange_le hk hrange.1 hrange.2
      cases ranges with
      | nil =>
        simp only [List.map_cons, List.map_nil, List.intercalate_singleton, List.length_singleton]
        omega
      | cons range' ranges =>
        have hrest := ih fun r hr => h r (List.mem_cons_of_mem _ hr)
        rw [List.map_cons] at hrest
        rw [List.map_cons, List.map_cons, List.intercalate_cons_cons, List.length_append,
          List.length_append, List.length_singleton, List.length_cons (a := range), Nat.succ_mul]
        omega

/-- The counters of a report and its ranges take so much room at most. -/
theorem length_formatFeedbackReport_le {t : ReceiverTelemetry} (ht : t.Fits) :
    (formatFeedbackReport t ranges).length ≤ 171 + (formatRanges ranges).length := by
  have hcounter : ∀ {n : Nat}, n < 2 ^ 64 → (decimal n).length ≤ 20 := fun h =>
    length_decimal_le (by decide) (h.trans (by decide))
  have hdrops : (formatSocketDrops t.socketDrops).length ≤ 20 := by
    rcases hcase : t.socketDrops with _ | drops
    · decide
    · exact hcounter (ht.drops drops hcase)
  have hlength := length_intercalate_space [ascii "M", decimal t.receivedChunks,
    decimal t.frontierChunks, decimal t.acceptedDatagrams, decimal t.validDatagrams,
    decimal t.duplicateDatagrams, decimal t.invalidDatagrams, decimal t.repairDatagrams,
    formatSocketDrops t.socketDrops, formatRanges ranges]
  have htag : (ascii "M").length = 1 := by decide
  simp only [List.map_cons, List.map_nil, List.sum_cons, List.sum_nil, List.length_cons,
    List.length_nil, htag] at hlength
  have h₁ := hcounter ht.received
  have h₂ := hcounter ht.frontier
  have h₃ := hcounter ht.accepted
  have h₄ := hcounter ht.valid
  have h₅ := hcounter ht.duplicate
  have h₆ := hcounter ht.invalid
  have h₇ := hcounter ht.repair
  unfold formatFeedbackReport
  omega

theorem newline_not_mem_report (t : ReceiverTelemetry) (ranges : List (Nat × Nat)) :
    newline ∉ formatFeedbackReport t ranges := by
  refine (newline_not_mem_fields fun f hf => ?_).1
  exact (graphic_reportFields t ranges f hf).1.plain

theorem missingRanges_lt {maxRanges : Nat} (hs : stop ≤ chunks) :
    ∀ range ∈ missingRanges bitmap stop maxRanges, range.1 ≤ range.2 ∧ range.2 < chunks := by
  intro range hrange
  have hrun := (missingRanges_first bitmap stop maxRanges).isRun range hrange
  exact ⟨hrun.le, hrun.lt.trans_le hs⟩

/-- A report is not longer than the source says. -/
theorem length_report_le {t : ReceiverTelemetry} (ht : t.Fits) (hc : chunks ≤ maxChunks)
    (hs : stop ≤ chunks) :
    (formatFeedbackReport t (missingRanges bitmap stop maxRangesPerReport)).length ≤
      maxFeedbackReportSize := by
  have hranges := @length_formatRanges_le (missingRanges bitmap stop maxRangesPerReport) 9
      (by decide) fun range hrange => by
      obtain ⟨hle, hlt⟩ := missingRanges_lt hs range hrange
      have hbound : maxChunks < 10 ^ 9 := by decide
      omega
  have hcount := (missingRanges_first bitmap stop maxRangesPerReport).length_le
  have hlength := @length_formatFeedbackReport_le (missingRanges bitmap stop maxRangesPerReport)
      _ ht
  unfold maxRangesPerReport maxFeedbackReportSize at *
  omega

/-! ## Queueing what a report names -/

/-- A queue that has never been taken from, with the chunks that have been queued. -/
def RepairQueue.filled (cooldown : ℚ) (sequences : List Nat) : RepairQueue :=
  { queue := sequences, queued := sequences.reverse, cooldown }

theorem filled_nil (cooldown : ℚ) : RepairQueue.filled cooldown [] = { cooldown } := rfl

theorem enqueue_filled {cooldown : ℚ} {sequences : List Nat} {s : Nat} (h : s ∉ sequences) :
    (RepairQueue.filled cooldown sequences).enqueue s = .filled cooldown (sequences ++ [s]) := by
  unfold RepairQueue.enqueue RepairQueue.filled RepairQueue.remembered
  rw [if_pos ⟨List.not_mem_nil, by simpa using h⟩, List.reverse_append]
  rfl

/-- Chunks are queued until the queue is full. -/
theorem enqueueRun_filled {cooldown : ℚ} {sequences : List Nat} {n start : Nat}
    (hlt : ∀ s ∈ sequences, s < start) (hle : sequences.length ≤ maxQueuedRepairs) :
    (RepairQueue.filled cooldown sequences).enqueueRun n start =
      (.filled cooldown ((sequences ++ List.range' start n).take maxQueuedRepairs),
        decide (maxQueuedRepairs < sequences.length + n)) := by
  induction n generalizing sequences start with
  | zero =>
    rw [RepairQueue.enqueueRun, List.range'_zero, List.append_nil, List.take_of_length_le hle,
      decide_eq_false (by omega)]
  | succ n ih =>
    have hlength : (RepairQueue.filled cooldown sequences).queued.length = sequences.length :=
      List.length_reverse
    rw [RepairQueue.enqueueRun, hlength]
    split
    next hfull =>
      rw [List.take_append_of_le_length hfull, List.take_of_length_le hle, decide_eq_true (by omega)]
    next hroom =>
      have hnew : start ∉ sequences := fun hmem => Nat.lt_irrefl _ (hlt start hmem)
      rw [enqueue_filled hnew, ih, List.range'_succ, List.append_assoc, List.singleton_append]
      · simp only [List.length_append, List.length_singleton, Nat.add_assoc, Nat.add_comm 1]
      · intro s hs
        rcases List.mem_append.1 hs with hs | hs
        · exact Nat.lt_succ_of_lt (hlt s hs)
        · exact Nat.lt_succ_of_le (Nat.le_of_eq (List.mem_singleton.1 hs))
      · rw [List.length_append, List.length_singleton]
        omega

/-- The ranges that were written are queued until the queue is full. -/
theorem enqueueRanges_filled {cooldown : ℚ} {sequences : List Nat} (hc : chunks ≤ 2 ^ 64)
    (hranges : ∀ r ∈ ranges, r.1 ≤ r.2 ∧ r.2 < chunks) (happ : ranges.Pairwise fun a b => a.2 < b.1)
    (hlt : ∀ r ∈ ranges, ∀ s ∈ sequences, s < r.1) (hle : sequences.length ≤ maxQueuedRepairs) :
    enqueueRanges chunks (ranges.map formatRange) (.filled cooldown sequences) =
      (.filled cooldown ((sequences ++ sequencesOf ranges).take maxQueuedRepairs), .ok ()) := by
  induction ranges generalizing sequences with
  | nil =>
    rw [List.map_nil, enqueueRanges, sequencesOf, List.flatMap_nil, List.append_nil,
      List.take_of_length_le hle]
  | cons range ranges ih =>
    obtain ⟨hproper, hbound⟩ := hranges range List.mem_cons_self
    obtain ⟨hfirst, hrest⟩ := List.pairwise_cons.1 happ
    have hchunks : sequencesOf (range :: ranges) =
        List.range' range.1 (range.2 + 1 - range.1) ++ sequencesOf ranges := List.flatMap_cons
    rw [List.map_cons, enqueueRanges, parseRange_formatRange hproper (hbound.trans_le hc)]
    dsimp only
    rw [if_neg (Nat.not_le.2 hbound), enqueueRun_filled (hlt range List.mem_cons_self) hle, hchunks,
      ← List.append_assoc]
    rcases Nat.lt_or_ge maxQueuedRepairs (sequences.length + (range.2 + 1 - range.1)) with hfull | hroom
    · rw [decide_eq_true hfull]
      dsimp only
      have hlength : maxQueuedRepairs ≤
          (sequences ++ List.range' range.1 (range.2 + 1 - range.1)).length := by
        rw [List.length_append, List.length_range']
        exact hfull.le
      rw [List.take_append_of_le_length hlength]
    · rw [decide_eq_false (Nat.not_lt.2 hroom)]
      dsimp only
      have hall : (sequences ++ List.range' range.1 (range.2 + 1 - range.1)).length ≤
          maxQueuedRepairs := by
        rw [List.length_append, List.length_range']
        exact hroom
      rw [List.take_of_length_le hall]
      refine ih (fun r hr => hranges r (List.mem_cons_of_mem _ hr)) hrest (fun r hr s hs => ?_) hall
      rcases List.mem_append.1 hs with hs | hs
      · exact hlt r (List.mem_cons_of_mem _ hr) s hs
      · have hmem := List.mem_range'_1.1 hs
        have hafter := hfirst r hr
        omega

theorem enqueueRepairs_rangesText {cooldown : ℚ} (hc : chunks ≤ 2 ^ 64)
    (hranges : ∀ r ∈ ranges, r.1 ≤ r.2 ∧ r.2 < chunks)
    (happ : ranges.Pairwise fun a b => a.2 < b.1) :
    enqueueRepairs { cooldown } (rangesText ranges) chunks =
      (.filled cooldown ((sequencesOf ranges).take maxQueuedRepairs), .ok ()) := by
  have hall := @enqueueRanges_filled _ _ cooldown [] hc hranges happ
      (fun _ _ _ hs => (nomatch hs)) (Nat.zero_le _)
  rw [List.nil_append, filled_nil] at hall
  unfold enqueueRepairs rangesText
  split
  next hnil =>
    subst hnil
    exact hall
  next hne =>
    rw [splitOn_formatRanges hne]
    exact hall

/-! ## From the receiver to the sender -/

/-- What a receiver reports of a bitmap reaches the sender: the report names the first longest runs of
missing chunks, it fits into its bound, so that the writer never refuses it, it is read as it was written
but for the number of reports, and an empty queue takes up the chunks of these runs in their order until
it is full. -/
theorem feedback_round_trip {t : ReceiverTelemetry} (hc : chunks ≤ maxChunks) (hs : stop ≤ chunks)
    (ht : t.Fits) (hconsistent : ¬t.inconsistent chunks) (bitmap : Bitmap) (cooldown : ℚ) :
    let ranges := missingRanges bitmap stop maxRangesPerReport
    let report := formatFeedbackReport t ranges
    FirstRuns (fun s => bitmapContains bitmap s = false) stop maxRangesPerReport 0 ranges ∧
      report.length ≤ maxFeedbackReportSize ∧ controlPayload report ∧
      ∃ text, parseFeedbackReport report chunks = .ok ({ t with reports := 0 }, text) ∧
        enqueueRepairs { cooldown } text chunks =
          (.filled cooldown ((sequencesOf ranges).take maxQueuedRepairs), .ok ()) := by
  dsimp only
  have hfirst := missingRanges_first bitmap stop maxRangesPerReport
  have hlength := @length_report_le bitmap _ _ _ ht hc hs
  exact ⟨hfirst, hlength, ⟨newline_not_mem_report t _, hlength.trans (by decide)⟩, _,
    parseFeedbackReport_format ht hconsistent _,
    enqueueRepairs_rangesText (hc.trans (by decide)) (missingRanges_lt hs)
      (hfirst.ascending.imp Nat.lt_of_succ_lt)⟩

theorem feedback_round_trip_test :
    let t : ReceiverTelemetry := ⟨8, 10, 7, 9, 2, 3, 4, some 5, 6⟩
    let ranges := missingRanges [0x393#64] 10 maxRangesPerReport
    let report := formatFeedbackReport t ranges
    FirstRuns (fun s => bitmapContains [0x393#64] s = false) 10 maxRangesPerReport 0 ranges ∧
      report.length ≤ maxFeedbackReportSize ∧ controlPayload report ∧
      ∃ text, parseFeedbackReport report 10 = .ok ({ t with reports := 0 }, text) ∧
        enqueueRepairs { cooldown := 1 } text 10 =
          (.filled 1 ((sequencesOf ranges).take maxQueuedRepairs), .ok ()) := by
  have hfits : (⟨8, 10, 7, 9, 2, 3, 4, some 5, 6⟩ : ReceiverTelemetry).Fits :=
    ⟨by decide, by decide, by decide, by decide, by decide, by decide, by decide,
      fun drops h => by cases h; decide⟩
  exact feedback_round_trip (by decide) (by decide) hfits (by decide) _ _

end PacketTide
