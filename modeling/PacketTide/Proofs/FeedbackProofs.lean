import PacketTide.SendUdp
import PacketTide.Proofs.HelloProofs
import PacketTide.Proofs.RepairProofs
import PacketTide.Proofs.RoundTripProofs
import PacketTide.Text.Proofs.WordProofs

/-!
# Reports

The ranges of a report name missing chunks only, and the sender reads the ranges that the receiver wrote.
-/

namespace PacketTide

open Text

variable {bitmap : Bitmap} {stop : Nat}

/-! ## What is missing -/

theorem lastMissing_spec {n sequence : Nat} (hlt : sequence < stop)
    (hbit : bitmapContains bitmap sequence = false) :
    sequence ≤ lastMissing bitmap stop n sequence ∧ lastMissing bitmap stop n sequence < stop ∧
      ∀ x, sequence ≤ x → x ≤ lastMissing bitmap stop n sequence →
        bitmapContains bitmap x = false := by
  induction n generalizing sequence with
  | zero =>
    refine ⟨Nat.le_refl _, hlt, fun x hle hge => ?_⟩
    rw [Nat.le_antisymm hge hle]
    exact hbit
  | succ n ih =>
    rw [lastMissing]
    split
    next hnext =>
      obtain ⟨hle, hstop, hall⟩ := ih hnext.1 hnext.2
      refine ⟨by omega, hstop, fun x hx hx' => ?_⟩
      rcases Nat.eq_or_lt_of_le hx with rfl | hx
      · exact hbit
      · exact hall x hx hx'
    · refine ⟨Nat.le_refl _, hlt, fun x hle hge => ?_⟩
      rw [Nat.le_antisymm hge hle]
      exact hbit

theorem missingFrom_spec {n maxRanges sequence : Nat} {range : Nat × Nat}
    (h : range ∈ missingFrom bitmap stop n maxRanges sequence) :
    range.1 ≤ range.2 ∧ range.2 < stop ∧
      ∀ x, range.1 ≤ x → x ≤ range.2 → bitmapContains bitmap x = false := by
  induction n generalizing maxRanges sequence with
  | zero => cases h
  | succ n ih =>
    rcases maxRanges with _ | maxRanges
    · cases h
    rw [missingFrom] at h
    split at h
    next hlt =>
      split at h
      · exact ih h
      next hbit =>
        rcases List.mem_cons.1 h with rfl | h
        · exact lastMissing_spec hlt (Bool.eq_false_iff.2 hbit)
        · exact ih h
    · cases h

/-- The ranges that are reported hold missing chunks below an end. -/
theorem missingRanges_spec {maxRanges : Nat} {range : Nat × Nat}
    (h : range ∈ missingRanges bitmap stop maxRanges) :
    range.1 ≤ range.2 ∧ range.2 < stop ∧
      ∀ x, range.1 ≤ x → x ≤ range.2 → bitmapContains bitmap x = false :=
  missingFrom_spec h

/-! ## The text of a report -/

theorem graphic_formatRange (range : Nat × Nat) : Graphic (formatRange range) := by
  unfold formatRange
  split
  · exact graphic_decimal _
  · have hrest : Graphic (hyphen :: decimal range.2) :=
      graphic_append (s := [hyphen]) (by decide) (graphic_decimal _)
    exact graphic_append (graphic_decimal _) hrest

theorem graphic_formatRanges (ranges : List (Nat × Nat)) : Graphic (formatRanges ranges) := by
  unfold formatRanges
  split
  · decide
  · induction ranges with
    | nil => decide
    | cons range ranges ih =>
      cases ranges with
      | nil => simpa using graphic_formatRange range
      | cons range' ranges =>
        rw [List.map_cons, List.map_cons, List.intercalate_cons_cons]
        have hrest := ih (List.cons_ne_nil _ _)
        rw [List.map_cons] at hrest
        exact graphic_append (graphic_append (graphic_formatRange range) (by decide)) hrest

/-- The ranges are written as a hyphen just if there are none. -/
theorem formatRanges_eq_hyphen {ranges : List (Nat × Nat)} :
    formatRanges ranges = [hyphen] ↔ ranges = [] := by
  refine ⟨fun h => ?_, fun h => by rw [h]; rfl⟩
  by_contra hne
  have hsplit := splitOn_formatRanges hne
  rw [h] at hsplit
  rcases ranges with _ | ⟨range, ranges⟩
  · exact hne rfl
  have hfirst : formatRange range = [hyphen] := by
    have hlist : ([hyphen].splitOn comma).filter (· ≠ []) = [[hyphen]] := by decide
    rw [hlist, List.map_cons] at hsplit
    exact (List.cons.inj hsplit).1.symm
  have hmem : hyphen ∈ formatRange range ∧ (formatRange range).length = 1 := by
    rw [hfirst]
    exact ⟨List.mem_cons_self, rfl⟩
  unfold formatRange at hmem
  split at hmem
  · exact not_mem_decimal (by decide) hmem.1
  · have hpos := List.length_pos_iff.2 (decimal_ne_nil range.1)
    rw [List.length_append, List.length_cons] at hmem
    omega

theorem formatRanges_ne_nil (ranges : List (Nat × Nat)) : formatRanges ranges ≠ [] := by
  unfold formatRanges
  split
  · exact List.cons_ne_nil _ _
  next hne =>
    obtain ⟨range, rest, rfl⟩ := List.exists_cons_of_ne_nil hne
    cases rest with
    | nil => simpa using formatRange_ne_nil range
    | cons range' rest =>
      rw [List.map_cons, List.map_cons, List.intercalate_cons_cons]
      simp [formatRange_ne_nil]

/-- The fields of a report are visible. -/
theorem graphic_reportFields (t : ReceiverTelemetry) (ranges : List (Nat × Nat)) :
    ∀ f ∈ [ascii "M", decimal t.receivedChunks, decimal t.frontierChunks, decimal t.acceptedDatagrams,
      decimal t.validDatagrams, decimal t.duplicateDatagrams, decimal t.invalidDatagrams,
      decimal t.repairDatagrams, formatSocketDrops t.socketDrops, formatRanges ranges],
      Graphic f ∧ f ≠ [] := by
  have hnumber : ∀ n, Graphic (decimal n) ∧ decimal n ≠ [] := fun n =>
    ⟨graphic_decimal n, decimal_ne_nil n⟩
  have hdrops : Graphic (formatSocketDrops t.socketDrops) ∧ formatSocketDrops t.socketDrops ≠ [] := by
    rcases t.socketDrops with _ | drops
    · exact ⟨by decide, List.cons_ne_nil _ _⟩
    · exact hnumber drops
  intro f hf
  simp only [List.mem_cons, List.not_mem_nil, or_false] at hf
  rcases hf with rfl | rfl | rfl | rfl | rfl | rfl | rfl | rfl | rfl | rfl
  · decide
  · exact hnumber _
  · exact hnumber _
  · exact hnumber _
  · exact hnumber _
  · exact hnumber _
  · exact hnumber _
  · exact hnumber _
  · exact hdrops
  · exact ⟨graphic_formatRanges ranges, formatRanges_ne_nil ranges⟩

theorem splitWhitespace_report (t : ReceiverTelemetry) (ranges : List (Nat × Nat)) :
    splitWhitespace (formatFeedbackReport t ranges) =
      [ascii "M", decimal t.receivedChunks, decimal t.frontierChunks, decimal t.acceptedDatagrams,
        decimal t.validDatagrams, decimal t.duplicateDatagrams, decimal t.invalidDatagrams,
        decimal t.repairDatagrams, formatSocketDrops t.socketDrops, formatRanges ranges] :=
  splitWhitespace_fields (graphic_reportFields t ranges)

/-- The text of the ranges that the sender reads. -/
def rangesText (ranges : List (Nat × Nat)) : Str := if ranges = [] then [] else formatRanges ranges

/-- Numbers that fit into 64 bits. -/
structure ReceiverTelemetry.Fits (t : ReceiverTelemetry) : Prop where
  received : t.receivedChunks < 2 ^ 64
  frontier : t.frontierChunks < 2 ^ 64
  accepted : t.acceptedDatagrams < 2 ^ 64
  valid : t.validDatagrams < 2 ^ 64
  duplicate : t.duplicateDatagrams < 2 ^ 64
  invalid : t.invalidDatagrams < 2 ^ 64
  repair : t.repairDatagrams < 2 ^ 64
  drops : ∀ drops, t.socketDrops = some drops → drops < 2 ^ 64

theorem parseSocketDrops_format {drops : Option Nat} (h : ∀ n, drops = some n → n < 2 ^ 64) :
    parseSocketDrops (formatSocketDrops drops) = .ok drops := by
  rcases drops with _ | n
  · rfl
  · have hne : formatSocketDrops (some n) ≠ [hyphen] := fun heq => by
      have heq : decimal n = [hyphen] := heq
      exact not_mem_decimal (n := n) (b := hyphen) (by decide) (heq ▸ List.mem_cons_self)
    unfold parseSocketDrops
    rw [if_neg hne, formatSocketDrops, parseCanonicalU64, canonicalUnsigned_decimal _ (h n rfl)]
    rfl

/-- Counters are read as they were written unless they do not belong together; the number of reports is not
part of a report. -/
theorem parseFeedbackReport_eq {t : ReceiverTelemetry} {chunks : Nat} (ht : t.Fits) (ranges : List (Nat × Nat)) :
    parseFeedbackReport (formatFeedbackReport t ranges) chunks =
      if t.inconsistent chunks then .error "inconsistent receiver feedback counters"
      else .ok ({ t with reports := 0 }, rangesText ranges) := by
  have hsame : ({ t with reports := 0 } : ReceiverTelemetry).inconsistent chunks ↔ t.inconsistent chunks := Iff.rfl
  rw [parseFeedbackReport, splitWhitespace_report]
  simp only [refuseIf_of_not (not_not.2 rfl), check_bind, parseSocketDrops_format ht.drops,
    parseCanonicalU64, canonicalUnsigned_decimal _ ht.received, canonicalUnsigned_decimal _ ht.frontier,
    canonicalUnsigned_decimal _ ht.accepted, canonicalUnsigned_decimal _ ht.valid,
    canonicalUnsigned_decimal _ ht.duplicate, canonicalUnsigned_decimal _ ht.invalid,
    canonicalUnsigned_decimal _ ht.repair, refuseIf, hsame, formatRanges_eq_hyphen]
  by_cases hc : t.inconsistent chunks
  · rw [if_pos hc, if_pos hc]
    rfl
  · rw [if_neg hc, if_neg hc]
    rfl

theorem parseFeedbackReport_format {t : ReceiverTelemetry} {chunks : Nat} (ht : t.Fits)
    (hc : ¬t.inconsistent chunks) (ranges : List (Nat × Nat)) :
    parseFeedbackReport (formatFeedbackReport t ranges) chunks =
      .ok ({ t with reports := 0 }, rangesText ranges) := by
  rw [parseFeedbackReport_eq ht, if_neg hc]

/-- Whatever the counters are, the ranges are read as they were written. -/
theorem ranges_of_parseFeedbackReport {t snapshot : ReceiverTelemetry} {chunks : Nat} {text : Str}
    {ranges : List (Nat × Nat)}
    (h : parseFeedbackReport (formatFeedbackReport t ranges) chunks = .ok (snapshot, text)) :
    text = rangesText ranges := by
  rw [parseFeedbackReport, splitWhitespace_report] at h
  obtain ⟨_, -, h⟩ := except_bind_ok h
  obtain ⟨_, -, h⟩ := except_bind_ok h
  obtain ⟨_, -, h⟩ := except_bind_ok h
  obtain ⟨_, -, h⟩ := except_bind_ok h
  obtain ⟨_, -, h⟩ := except_bind_ok h
  obtain ⟨_, -, h⟩ := except_bind_ok h
  obtain ⟨_, -, h⟩ := except_bind_ok h
  obtain ⟨_, -, h⟩ := except_bind_ok h
  obtain ⟨_, -, h⟩ := except_bind_ok h
  obtain ⟨_, -, h⟩ := except_bind_ok h
  cases h
  simp only [formatRanges_eq_hyphen]
  rfl

theorem parseChunkNumber_decimal_ok {m n : Nat} (h : parseChunkNumber (decimal n) = .ok m) : m = n := by
  by_cases hn : n < 2 ^ 64
  · rw [parseChunkNumber_decimal hn] at h
    exact (Except.ok.inj h).symm
  · have hne : (decimal n).isEmpty = false := List.isEmpty_eq_false_iff.2 (decimal_ne_nil n)
    have hnone : parseUnsigned 64 10 (decimal n) = none := by
      simp [parseUnsigned, stripPrefix_decimal, isDigit, digitsValue_decimal, hne]
      omega
    rw [parseChunkNumber, hnone] at h
    cases h

/-- Whatever is read from the text of a range is that range. -/
theorem parseRange_formatRange_ok {r range : Nat × Nat} (h : parseRange (formatRange r) = .ok range) :
    range = r := by
  have hplain : ∀ n, hyphen ∉ decimal n := fun n => not_mem_decimal (by decide)
  by_cases heq : r.1 = r.2
  · rw [formatRange, if_pos heq, parseRange, splitOnce_eq_none (hplain _)] at h
    obtain ⟨m, hm, h⟩ := except_bind_ok h
    cases h
    rw [parseChunkNumber_decimal_ok hm]
    exact Prod.ext rfl heq
  · rw [formatRange, if_neg heq, parseRange, splitOnce_append (hplain _)] at h
    obtain ⟨start, hstart, h⟩ := except_bind_ok h
    obtain ⟨last, hlast, h⟩ := except_bind_ok h
    obtain ⟨_, -, h⟩ := except_bind_ok h
    cases h
    rw [parseChunkNumber_decimal_ok hstart, parseChunkNumber_decimal_ok hlast]

/-- What the ranges of a report name lies in one of them. -/
theorem mem_of_namedIn {ranges : List (Nat × Nat)} {s : Nat}
    (h : NamedIn (rangesOf (rangesText ranges)) s) : ∃ r ∈ ranges, r.1 ≤ s ∧ s ≤ r.2 := by
  obtain ⟨text, htext, range, hparse, hle, hge⟩ := h
  unfold rangesText rangesOf at htext
  split at htext
  · cases htext
  next hne =>
    rw [splitOn_formatRanges hne] at htext
    obtain ⟨r, hr, rfl⟩ := List.mem_map.1 htext
    rw [parseRange_formatRange_ok hparse] at hle hge
    exact ⟨r, hr, hle, hge⟩

end PacketTide
