import PacketTide.Proofs.UdpSessionProofs

/-!
# The counters of both sides

What the receiver counts fits together until the count of valid datagrams stops at its largest value, and the
sender ends with the counters that the receiver returns.
-/

namespace PacketTide

open Effects FileSystem FS Prog Text

/-! ## Counting -/

theorem saturatingAdd_min (n : Nat) : saturatingAdd (min n (2 ^ 64 - 1)) 1 = min (n + 1) (2 ^ 64 - 1) := by
  unfold saturatingAdd
  omega

theorem saturatingAdd_lt (a b : Nat) : saturatingAdd a b < 2 ^ 64 := by
  unfold saturatingAdd
  omega

theorem saturatingAdd_le {a a' : Nat} (b : Nat) (h : a ≤ a') : saturatingAdd a b ≤ saturatingAdd a' b := by
  unfold saturatingAdd
  omega

theorem le_saturatingAdd {a : Nat} (b : Nat) (h : a < 2 ^ 64) : a ≤ saturatingAdd a b := by
  unfold saturatingAdd
  omega

section

variable {r : UdpReceiver} {content content' datagram : List UInt8} {s s' : Receiving} {initial chunks : Nat}

/-- The counters of a receiver that held some chunks at its start. -/
structure Receiving.Tallied (chunks initial : Nat) (s : Receiving) : Prop where
  accepted : s.telemetry.acceptedDatagrams + initial = s.resume.receivedCount
  duplicates : ∃ n, s.telemetry.validDatagrams = min (s.telemetry.acceptedDatagrams + n) (2 ^ 64 - 1) ∧
    s.telemetry.duplicateDatagrams = min n (2 ^ 64 - 1)
  repair_le : s.telemetry.repairDatagrams ≤ s.telemetry.validDatagrams
  invalid_lt : s.telemetry.invalidDatagrams < 2 ^ 64
  topped : s.Topped chunks

theorem tallied_start (hs : s.Sound r content) (hhighest : s.highest = highestReceived s.resume.bitmap)
    (htelemetry : s.telemetry = { receivedChunks := s.resume.receivedCount }) :
    s.Tallied r.hello.chunks s.resume.receivedCount := by
  have htopped := topped_enterLoop hs 0
  refine ⟨?_, ⟨0, ?_, ?_⟩, ?_, ?_, ⟨fun top htop => ?_, fun i hi => ?_⟩⟩
  · rw [htelemetry]
    exact Nat.zero_add _
  · rw [htelemetry]
    rfl
  · rw [htelemetry]
    rfl
  · rw [htelemetry]
  · rw [htelemetry]
    show 0 < 2 ^ 64
    decide
  · rw [hhighest] at htop
    exact htopped.lt_chunks top htop
  · rw [hhighest]
    exact htopped.le_highest i hi

/-- The highest chunk after one that has come. -/
theorem Receiving.Topped.raised {sequence : Nat} (h : s.Topped chunks) (hlt : sequence < chunks)
    (hhighest : s'.highest = s.highest)
    (hbits : ∀ i, bitmapContains s'.resume.bitmap i = true → i = sequence ∨ bitmapContains s.resume.bitmap i = true) :
    (s'.raiseHighest sequence).Topped chunks := by
  rcases htop : s.highest with _ | old
  · have hraised : (s'.raiseHighest sequence).highest = some sequence := by
      simp only [Receiving.raiseHighest, hhighest, htop, Option.elim_none]
    refine ⟨fun top heq => ?_, fun i hi => ⟨sequence, hraised, ?_⟩⟩
    · rw [hraised] at heq
      cases heq
      exact hlt
    · rcases hbits i hi with rfl | hold
      · exact Nat.le_refl _
      · obtain ⟨top, hnone, -⟩ := h.le_highest i hold
        rw [htop] at hnone
        cases hnone
  · have hraised : (s'.raiseHighest sequence).highest = some (max old sequence) := by
      simp only [Receiving.raiseHighest, hhighest, htop, Option.elim_some]
    refine ⟨fun top heq => ?_, fun i hi => ⟨max old sequence, hraised, ?_⟩⟩
    · rw [hraised] at heq
      cases heq
      exact Nat.max_lt.2 ⟨h.lt_chunks old htop, hlt⟩
    · rcases hbits i hi with rfl | hold
      · exact Nat.le_max_right _ _
      · obtain ⟨top, hsome, hle⟩ := h.le_highest i hold
        rw [htop] at hsome
        cases hsome
        exact Nat.le_trans hle (Nat.le_max_left _ _)

/-- The frontier of a bitmap that is full. -/
theorem Receiving.Topped.frontier_eq (h : s.Topped chunks)
    (hfull : ∀ i < chunks, bitmapContains s.resume.bitmap i = true) : s.highest.elim 0 (· + 1) = chunks := by
  rcases Nat.eq_zero_or_pos chunks with rfl | hpos
  · rcases htop : s.highest with _ | top
    · rfl
    · exact absurd (h.lt_chunks top htop) (Nat.not_lt_zero _)
  · obtain ⟨top, htop, hle⟩ := h.le_highest (chunks - 1) (hfull _ (Nat.sub_lt hpos Nat.one_pos))
    have hlt := h.lt_chunks top htop
    rw [htop, Option.elim_some]
    omega

/-- A datagram keeps the counters. -/
theorem Took.tallied [Sha256] (hb : r.hello.Bounded) (hs : s.Sound r content)
    (htook : Took r s content datagram s' content') (h : s.Tallied r.hello.chunks initial) :
    s'.Tallied r.hello.chunks initial := by
  obtain ⟨n, hvalid, hduplicate⟩ := h.duplicates
  have hlimit : s.telemetry.validDatagrams < 2 ^ 64 := by
    rw [hvalid]
    omega
  have hrepair : ∀ repair : Bool, (s.countValid repair).telemetry.repairDatagrams ≤
      (s.countValid repair).telemetry.validDatagrams := by
    intro repair
    cases repair with
    | true => exact saturatingAdd_le 1 h.repair_le
    | false => exact h.repair_le.trans (le_saturatingAdd 1 hlimit)
  cases htook with
  | invalid _ =>
    exact ⟨h.accepted, ⟨n, hvalid, hduplicate⟩, h.repair_le, saturatingAdd_lt _ _, { h.topped with }⟩
  | @duplicate packet hcheck hbit =>
    obtain ⟨hsequence, -⟩ := checkPacket_some hcheck
    have htopped : ((s.countValid packet.repair).countDuplicate.raiseHighest packet.sequence).Topped r.hello.chunks :=
      h.topped.raised hsequence rfl fun _ => .inr
    refine ⟨h.accepted, ⟨n + 1, ?_, ?_⟩, hrepair packet.repair, h.invalid_lt, htopped⟩
    · show saturatingAdd s.telemetry.validDatagrams 1 = _
      rw [hvalid, saturatingAdd_min]
      rfl
    · show saturatingAdd s.telemetry.duplicateDatagrams 1 = _
      rw [hduplicate, saturatingAdd_min]
  | @accepted packet written s₁ hcheck hbit hwritten hs₁ =>
    obtain ⟨hsequence, -⟩ := checkPacket_some hcheck
    have hreceived : s.resume.receivedCount < 2 ^ 64 - 1 := by
      have hcount := hs.count
      have hle := hs.bitmap.count_le
      have hmax := hb.chunks_le
      have hlt : maxChunks < 2 ^ 64 - 1 := by decide
      omega
    have haccepted : saturatingAdd s.telemetry.acceptedDatagrams 1 = s.telemetry.acceptedDatagrams + 1 := by
      have hsum := h.accepted
      exact saturatingAdd_of_lt (by omega)
    have hsame : s₁.telemetry = (s.stored packet).telemetry ∧ s₁.resume = (s.stored packet).resume ∧
        s₁.highest = s.highest := by
      rcases hs₁ with rfl | rfl <;> exact ⟨rfl, rfl, rfl⟩
    obtain ⟨htelemetry, hresume, hhighest⟩ := hsame
    refine ⟨?_, ⟨n, ?_, ?_⟩, ?_, ?_, h.topped.raised hsequence hhighest fun i hi => ?_⟩
    · show s₁.telemetry.acceptedDatagrams + initial = s₁.resume.receivedCount
      rw [htelemetry, hresume]
      show saturatingAdd s.telemetry.acceptedDatagrams 1 + initial = s.resume.receivedCount + 1
      rw [haccepted, ← h.accepted]
      omega
    · show s₁.telemetry.validDatagrams = min (s₁.telemetry.acceptedDatagrams + n) _
      rw [htelemetry]
      show saturatingAdd s.telemetry.validDatagrams 1 = min (saturatingAdd s.telemetry.acceptedDatagrams 1 + n) _
      rw [haccepted, hvalid, saturatingAdd_min, Nat.add_right_comm]
    · show s₁.telemetry.duplicateDatagrams = _
      rw [htelemetry]
      exact hduplicate
    · show s₁.telemetry.repairDatagrams ≤ s₁.telemetry.validDatagrams
      rw [htelemetry]
      exact hrepair packet.repair
    · show s₁.telemetry.invalidDatagrams < _
      rw [htelemetry]
      exact h.invalid_lt
    · rw [hresume] at hi
      change bitmapContains (bitmapInsert s.resume.bitmap packet.sequence) i = true at hi
      rwa [bitmapContains_bitmapInsert (hs.bitmap.place_lt hsequence), Bool.or_eq_true, decide_eq_true_iff] at hi

/-- The counters that a report tells. -/
theorem Receiving.Tallied.of_attended {events : List ControlEvent} (hattended : Attended events s s')
    (h : s.Tallied chunks initial) : s'.Tallied chunks initial := by
  obtain ⟨hresume, hhighest, -, -, htelemetry, -, -⟩ := hattended
  refine ⟨?_, ?_, ?_, ?_, ⟨?_, ?_⟩⟩
  · rw [htelemetry, hresume]
    exact h.accepted
  · rw [htelemetry]
    exact h.duplicates
  · rw [htelemetry]
    exact h.repair_le
  · rw [htelemetry]
    exact h.invalid_lt
  · rw [hhighest]
    exact h.topped.lt_chunks
  · rw [hhighest, hresume]
    exact h.topped.le_highest

/-! ## Reports -/

/-- The counters that a report tells fit, and belong together unless the count of valid datagrams has stopped. -/
theorem Receiving.Tallied.update (hb : r.hello.Bounded) (hs : s.Sound r content) (h : s.Tallied r.hello.chunks initial)
    {drops : Option Nat} (hdrops : ∀ n, drops = some n → n < 2 ^ 64) :
    (s.update drops).telemetry.Fits ∧
      ((s.update drops).telemetry.validDatagrams < 2 ^ 64 - 1 ∨ (s.update drops).telemetry.acceptedDatagrams = 0 →
        ¬(s.update drops).telemetry.inconsistent r.hello.chunks) := by
  obtain ⟨n, hvalid, hduplicate⟩ := h.duplicates
  have hmax : r.hello.chunks < 2 ^ 64 - 1 := Nat.lt_of_le_of_lt hb.chunks_le (by decide)
  have hreceived : s.resume.receivedCount ≤ r.hello.chunks := hs.count ▸ hs.bitmap.count_le
  have haccepted : s.telemetry.acceptedDatagrams ≤ s.resume.receivedCount := by
    have hsum := h.accepted
    omega
  have hfrontier : s.highest.elim 0 (· + 1) ≤ r.hello.chunks := by
    rcases htop : s.highest with _ | top
    · exact Nat.zero_le _
    · exact h.topped.lt_chunks top htop
  have hrepair := h.repair_le
  constructor
  · refine ⟨?_, ?_, ?_, ?_, ?_, h.invalid_lt, ?_, hdrops⟩
    · show s.resume.receivedCount < _
      omega
    · show s.highest.elim 0 (· + 1) < _
      omega
    · show s.telemetry.acceptedDatagrams < _
      omega
    · show s.telemetry.validDatagrams < _
      omega
    · show s.telemetry.duplicateDatagrams < _
      omega
    · show s.telemetry.repairDatagrams < _
      omega
  · intro hcounting
    change s.telemetry.validDatagrams < 2 ^ 64 - 1 ∨ s.telemetry.acceptedDatagrams = 0 at hcounting
    show ¬(r.hello.chunks < s.resume.receivedCount ∨ r.hello.chunks < s.highest.elim 0 (· + 1) ∨
      s.resume.receivedCount < s.telemetry.acceptedDatagrams ∨
      s.telemetry.validDatagrams < s.telemetry.acceptedDatagrams ∨
      s.telemetry.validDatagrams < s.telemetry.duplicateDatagrams ∨
      s.telemetry.validDatagrams < s.telemetry.repairDatagrams ∨
      2 ^ 64 ≤ s.telemetry.acceptedDatagrams + s.telemetry.duplicateDatagrams ∨
      s.telemetry.acceptedDatagrams + s.telemetry.duplicateDatagrams ≠ s.telemetry.validDatagrams)
    omega

/-- The counters that are read are those that were written. -/
theorem snapshot_of_parseFeedbackReport {t snapshot : ReceiverTelemetry} {ranges : List (Nat × Nat)} {text : Str}
    (ht : t.Fits) (h : parseFeedbackReport (formatFeedbackReport t ranges) chunks = .ok (snapshot, text)) :
    snapshot = { t with reports := 0 } := by
  rw [parseFeedbackReport_eq ht] at h
  split at h
  · cases h
  · cases h
    rfl

theorem Receiving.Tallied.reportPasses (hb : r.hello.Bounded) (hs : s.Sound r content)
    (h : s.Tallied r.hello.chunks initial) {drops : Option Nat} (hdrops : ∀ n, drops = some n → n < 2 ^ 64)
    (ranges : List (Nat × Nat)) :
    ReportPasses r.hello.chunks (formatFeedbackReport (s.update drops).telemetry ranges) := by
  obtain ⟨hfits, hconsistent⟩ := h.update hb hs hdrops
  refine .inr ⟨_, ranges, rfl, fun hcounting => ?_⟩
  exact ⟨_, parseFeedbackReport_format hfits (hconsistent hcounting) ranges⟩

end

/-! ## Reading reports -/

section

variable {chunks : Nat} {line : Str} {lines : List Str}

/-- What the sender knows after another line. -/
def heardLine (chunks : Nat) (telemetry : ReceiverTelemetry) (line : Str) : ReceiverTelemetry :=
  match readFeedback chunks line with
  | .report snapshot _ => { snapshot with reports := saturatingAdd telemetry.reports 1 }
  | _ => telemetry

/-- What the sender knows after some lines. -/
def heardLines (chunks : Nat) (lines : List Str) : ReceiverTelemetry := lines.foldl (heardLine chunks) {}

theorem heardLines_append (lines lines' : List Str) :
    heardLines chunks (lines ++ lines') = lines'.foldl (heardLine chunks) (heardLines chunks lines) :=
  List.foldl_append

/-- Lines that are no reports tell nothing. -/
theorem foldl_heardLine {telemetry : ReceiverTelemetry}
    (h : ∀ line ∈ lines, stripPrefix (ascii "M ") line = none) :
    lines.foldl (heardLine chunks) telemetry = telemetry := by
  induction lines with
  | nil => rfl
  | cons line lines ih =>
    obtain ⟨hline, hlines⟩ := List.forall_mem_cons.1 h
    have hkeep : heardLine chunks telemetry line = telemetry := by
      unfold heardLine
      split
      next snapshot text hread =>
        exact absurd hread (readFeedback_ne_report hline snapshot text)
      next => rfl
    rw [List.foldl_cons, hkeep, ih hlines]

/-- A report begins like one. -/
theorem stripPrefix_report (telemetry : ReceiverTelemetry) (ranges : List (Nat × Nat)) :
    (stripPrefix (ascii "M ") (formatFeedbackReport telemetry ranges)).isSome = true ∧
      formatFeedbackReport telemetry ranges ≠ ascii "COMPLETE" := by
  have htext : formatFeedbackReport telemetry ranges =
      77 :: 32 :: (formatFeedbackReport telemetry ranges).drop 2 := by
    rw [formatFeedbackReport]
    simp only [List.intercalate_cons_cons]
    rfl
  rw [htext]
  refine ⟨?_, ne_of_head (show (some 77 : Option UInt8) ≠ some 67 by decide)⟩
  rw [stripPrefix, if_pos ⟨_, rfl⟩]
  rfl

/-- The sender reads a report as one, or stops. -/
theorem readFeedback_report (telemetry : ReceiverTelemetry) (ranges : List (Nat × Nat)) :
    readFeedback chunks (formatFeedbackReport telemetry ranges) =
      match parseFeedbackReport (formatFeedbackReport telemetry ranges) chunks with
      | .ok (snapshot, ranges) => .report snapshot ranges
      | .error e => .stopped e := by
  obtain ⟨hstrip, hne⟩ := stripPrefix_report telemetry ranges
  rw [readFeedback, if_neg hne]
  refine (if_pos hstrip).trans ?_
  rcases parseFeedbackReport (formatFeedbackReport telemetry ranges) chunks with e | ⟨snapshot, text⟩ <;> rfl

/-- What a report tells a sender that does not stop. -/
theorem heardLine_report {telemetry : ReceiverTelemetry} {ranges : List (Nat × Nat)}
    (h : ∀ e, readFeedback chunks (formatFeedbackReport telemetry ranges) ≠ .stopped e) :
    ∃ snapshot text, parseFeedbackReport (formatFeedbackReport telemetry ranges) chunks = .ok (snapshot, text) ∧
      ∀ known : ReceiverTelemetry, heardLine chunks known (formatFeedbackReport telemetry ranges) =
        { snapshot with reports := saturatingAdd known.reports 1 } := by
  have hread := @readFeedback_report chunks telemetry ranges
  rcases hparse : parseFeedbackReport (formatFeedbackReport telemetry ranges) chunks with e | ⟨snapshot, text⟩
  · rw [hparse] at hread
    exact absurd hread (h e)
  · rw [hparse] at hread
    refine ⟨snapshot, text, rfl, fun known => ?_⟩
    rw [heardLine, hread]

/-- A line at which the sender does not stop is no report, or one that passes. -/
theorem passes_of_not_stopped (h : ReportPasses chunks line) (hread : ∀ e, readFeedback chunks line ≠ .stopped e) :
    stripPrefix (ascii "M ") line = none ∨ ∃ read, parseFeedbackReport line chunks = .ok read := by
  rcases h with hnone | ⟨telemetry, ranges, rfl, -⟩
  · exact .inl hnone
  · obtain ⟨snapshot, text, hparsed, -⟩ := heardLine_report hread
    exact .inr ⟨_, hparsed⟩

/-- What the sender knows is what the lines that it has read tell, and it reads no line after the end. -/
structure Sending.Knows (chunks : Nat) (lines : List Str) (read : Nat) (s : Sending) : Prop where
  read_le : read ≤ lines.length
  listening : s.listening = true → s.telemetry = heardLines chunks (lines.take read) ∧
    ∀ line ∈ lines.take read, ∀ e, readFeedback chunks line ≠ .stopped e
  complete : s.complete = true → ∃ j, lines[j]? = some (ascii "COMPLETE") ∧
    s.telemetry = heardLines chunks (lines.take j) ∧
    ∀ line ∈ lines.take j, ∀ e, readFeedback chunks line ≠ .stopped e
  acknowledged : s.phase = .acknowledged → s.complete = true

/-- More lines change nothing in that. -/
theorem Sending.Knows.append {s : Sending} {read : Nat} (h : s.Knows chunks lines read) (lines' : List Str) :
    s.Knows chunks (lines ++ lines') read := by
  have htake : ∀ j ≤ lines.length, (lines ++ lines').take j = lines.take j := fun j hj =>
    List.take_append_of_le_length hj
  refine ⟨?_, ?_, fun hcomplete => ?_, h.acknowledged⟩
  · rw [List.length_append]
    exact Nat.le_add_right_of_le h.read_le
  · rw [htake read h.read_le]
    exact h.listening
  · obtain ⟨j, hj, hknown⟩ := h.complete hcomplete
    have hlt : j < lines.length := by
      by_contra hge
      rw [List.getElem?_eq_none (Nat.not_lt.1 hge)] at hj
      cases hj
    refine ⟨j, ?_, ?_⟩
    · rw [List.getElem?_append_left hlt]
      exact hj
    · rw [htake j hlt.le]
      exact hknown

theorem eq_complete_of_readFeedback (h : readFeedback chunks line = .complete) : line = ascii "COMPLETE" := by
  by_contra hne
  unfold readFeedback at h
  rw [if_neg hne] at h
  split at h
  · split at h <;> cases h
  · split at h
    · cases h
    · cases h
    · split at h <;> cases h

/-- The next line is read. -/
theorem Sending.Knows.hear {c : UdpSender} {s : Sending} {read : Nat} (h : s.Knows c.chunks lines read)
    (hline : lines[read]? = some line) : (s.hear c line).Knows c.chunks lines (read + 1) := by
  have hlt : read < lines.length := by
    by_contra hge
    rw [List.getElem?_eq_none (Nat.not_lt.1 hge)] at hline
    cases hline
  have htake : lines.take (read + 1) = lines.take read ++ [line] := by
    rw [List.take_add_one, hline]
    rfl
  have hnew : (∀ l ∈ lines.take read, ∀ e, readFeedback c.chunks l ≠ .stopped e) →
      (∀ e, readFeedback c.chunks line ≠ .stopped e) →
        ∀ l ∈ lines.take (read + 1), ∀ e, readFeedback c.chunks l ≠ .stopped e := by
    intro hold hnew l hl
    rw [htake] at hl
    rcases List.mem_append.1 hl with hl | hl
    · exact hold l hl
    · exact List.mem_singleton.1 hl ▸ hnew
  unfold Sending.hear
  split
  next hquiet =>
    refine ⟨hlt, fun hlistening => ?_, h.complete, h.acknowledged⟩
    rw [hquiet] at hlistening
    cases hlistening
  next hlistens =>
    have hlistening : s.listening = true := Bool.eq_true_of_not_eq_false hlistens
    obtain ⟨htelemetry, hread⟩ := h.listening hlistening
    have hcomplete : s.complete = false := by
      unfold Sending.listening at hlistening
      simp only [Bool.and_eq_true, Bool.not_eq_true'] at hlistening
      exact hlistening.1
    have hnot : ∀ {P : Prop}, s.complete = true → P := fun htrue => by
      rw [hcomplete] at htrue
      cases htrue
    split
    next hfeedback =>
      refine ⟨hlt, fun hlistening => ?_, fun _ => ⟨read, ?_, htelemetry, hread⟩, fun _ => rfl⟩
      · simp [Sending.listening] at hlistening
      · rw [hline, eq_complete_of_readFeedback hfeedback]
    next snapshot ranges hfeedback =>
      refine ⟨hlt, fun _ => ⟨?_, hnew hread ?_⟩, hnot, fun hphase => hnot (h.acknowledged hphase)⟩
      · rw [htake, heardLines_append, ← htelemetry]
        show ({ snapshot with reports := saturatingAdd s.telemetry.reports 1 } : ReceiverTelemetry) =
          heardLine c.chunks s.telemetry line
        rw [heardLine, hfeedback]
      · intro e heq
        rw [hfeedback] at heq
        cases heq
    next error hfeedback =>
      refine ⟨hlt, fun hlistening => ?_, hnot, fun hphase => hnot (h.acknowledged hphase)⟩
      simp [Sending.listening] at hlistening
    next hfeedback =>
      refine ⟨hlt, fun _ => ⟨?_, hnew hread ?_⟩, hnot, fun hphase => hnot (h.acknowledged hphase)⟩
      · rw [htake, heardLines_append, ← htelemetry]
        show s.telemetry = heardLine c.chunks s.telemetry line
        rw [heardLine, hfeedback]
      · intro e heq
        rw [hfeedback] at heq
        cases heq

/-- The sender has learned nothing. -/
structure Sending.LearnsNothing (s s' : Sending) : Prop where
  telemetry : s'.telemetry = s.telemetry
  complete : s'.complete = s.complete
  error : s'.feedbackError = none → s.feedbackError = none
  acknowledged : s'.phase = .acknowledged → s.phase = .acknowledged ∨ s.complete = true

/-- Nothing but the reading of lines tells the sender anything. -/
theorem learnsNothing_step (c : UdpSender) (s : Sending) {input : SendInput} (hinput : ∀ line, input ≠ .hear line) :
    s.LearnsNothing (s.step c input) := by
  have hheartbeat : (s.heartbeat c).telemetry = s.telemetry ∧ (s.heartbeat c).complete = s.complete ∧
      (s.heartbeat c).feedbackError = s.feedbackError := by
    unfold Sending.heartbeat
    split <;> exact ⟨rfl, rfl, rfl⟩
  obtain ⟨htelemetry, hcomplete, herror⟩ := hheartbeat
  have hcancel : s.LearnsNothing s.cancel := ⟨rfl, rfl, id, fun h => by cases h⟩
  have hsame : s.LearnsNothing s := ⟨rfl, rfl, id, .inl⟩
  cases input with
  | hear line => exact absurd rfl (hinput line)
  | disconnect error =>
    show s.LearnsNothing (s.disconnect error)
    unfold Sending.disconnect
    split
    · exact hsame
    · exact ⟨rfl, rfl, fun h => (by cases h), .inl⟩
  | fail =>
    show s.LearnsNothing (if s.ended then s else s.cancel)
    split
    · exact hsame
    · exact hcancel
  | wait time => exact ⟨rfl, rfl, id, .inl⟩
  | act orders delays =>
    show s.LearnsNothing (s.act c orders delays)
    rcases hphase : s.phase with n | n | n | ⟨n, _ | ⟨x, waiting⟩⟩ | _ | _ | (_ | ⟨x, waiting⟩) | _ | _
    all_goals simp only [Sending.act, hphase]
    case pass =>
      split
      · exact ⟨rfl, rfl, id, fun h => by cases h⟩
      · split
        · exact hcancel
        · refine ⟨htelemetry, hcomplete, fun h => herror ▸ h, fun h => ?_⟩
          simp only [Sending.enter] at h
          split at h <;> cases h
    case between => split <;> exact ⟨rfl, rfl, id, fun h => by cases h⟩
    case tail =>
      split
      next hdone => exact ⟨rfl, rfl, id, fun _ => .inr hdone⟩
      · split
        · exact hcancel
        · exact ⟨htelemetry, hcomplete, fun h => herror ▸ h, fun h => by cases h⟩
    case taking =>
      refine ⟨rfl, rfl, id, fun h => ?_⟩
      simp only at h
      split at h <;> cases h
    case acknowledged => exact hsame
    case failed => exact hsame
    all_goals exact ⟨rfl, rfl, id, fun h => by cases h⟩

theorem Sending.Knows.step {c : UdpSender} {s : Sending} {read : Nat} (h : s.Knows chunks lines read)
    {input : SendInput} (hinput : ∀ line, input ≠ .hear line) : (s.step c input).Knows chunks lines read := by
  obtain ⟨htelemetry, hcomplete, herror, hphase⟩ := learnsNothing_step c s hinput
  refine ⟨h.read_le, fun hlistening => ?_, ?_, fun hacknowledged => ?_⟩
  · rw [htelemetry]
    refine h.listening ?_
    unfold Sending.listening at hlistening ⊢
    rw [Bool.and_eq_true, hcomplete] at hlistening
    obtain ⟨hgo, hnone⟩ := hlistening
    rw [hgo, herror (Option.isNone_iff_eq_none.1 hnone)]
    rfl
  · rw [hcomplete, htelemetry]
    exact h.complete
  · rw [hcomplete]
    exact (hphase hacknowledged).elim h.acknowledged id

end

/-! ## Turns -/

section

variable {r : UdpReceiver} {file : Loc} {content content' : List UInt8} {s s' : Receiving} {initial chunks : Nat}

theorem TookSocket.tallied [Sha256] {socket : Except Errno (Option (List UInt8))} (hb : r.hello.Bounded)
    (hs : s.Sound r content) (htook : TookSocket r s content socket s' content')
    (h : s.Tallied r.hello.chunks initial) : s'.Tallied r.hello.chunks initial := by
  cases htook with
  | none => exact h
  | datagram htook => exact htook.tallied hb hs h

theorem TookSocket.reports_eq [Sha256] {socket : Except Errno (Option (List UInt8))}
    (htook : TookSocket r s content socket s' content') : s'.telemetry.reports = s.telemetry.reports := by
  cases htook with
  | none => rfl
  | datagram htook =>
    cases htook with
    | invalid _ => rfl
    | duplicate _ _ => rfl
    | accepted _ _ _ hs' => rcases hs' with rfl | rfl <;> rfl

theorem Receiving.Tallied.report {hello : Hello} {turn : Turn} (h : s.Tallied chunks initial) :
    (s.report hello turn).1.Tallied chunks initial where
  accepted := h.accepted
  duplicates := h.duplicates
  repair_le := h.repair_le
  invalid_lt := h.invalid_lt
  topped := ⟨h.topped.lt_chunks, h.topped.le_highest⟩

/-- A turn in which the object is complete. -/
theorem completed_of_succeeds [Sha256] {site t : Site} (hb : r.hello.Bounded) (hs : s.Sound r content)
    (hd : OnDisk r.pid r.destination file content site.fs) {turn : Turn}
    (h : Succeeds siteMachine siteRefuse (receiveTurn r file s turn) site (.completed s') t) :
    ∃ s₁ content' pongs, TookSocket r s content turn.socket s₁ content' ∧ s₁.Sound r content' ∧
      s₁.resume.receivedCount = r.hello.chunks ∧
      s'.telemetry = ((s₁.hear turn.endedClock turn.events).update turn.socketDrops).telemetry ∧
      t.control.sent = site.control.sent ++ List.replicate pongs (ascii "PONG") ++
        [formatFeedbackReport s'.telemetry [], ascii "COMPLETE"] := by
  obtain ⟨s₂, u, hbegin, hrest⟩ := succeeds_bind h
  obtain ⟨content', hbegun⟩ := returns_beginTurn hb hs hd turn s₂ u hbegin
  obtain ⟨s₁, htook, rfl⟩ := hbegun.took
  obtain ⟨pongs, hpongs⟩ := hbegun.sent_eq
  have hresume := (attended_heard s₁ turn.endedClock turn.events).bitmap
  split at hrest
  next hfull =>
    obtain ⟨last, w, hcomplete, hdone⟩ := succeeds_bind hrest
    obtain ⟨heq, rfl⟩ := succeeds_done hdone
    cases heq
    have hfull := hfull.2
    obtain ⟨-, rfl, -, -, hsent⟩ := (completing hb hbegun.sound hbegun.disk hfull turn.socketDrops).returns _ _ hcomplete
    refine ⟨s₁, content', pongs, htook, htook.sound hb hs, hresume ▸ hfull, rfl, ?_⟩
    rw [hsent, hpongs]
  · obtain ⟨s₃, w, -, hrest⟩ := succeeds_bind hrest
    obtain ⟨s₄, y, -, hdone⟩ := succeeds_bind hrest
    cases (succeeds_done hdone).1

end

/-! ## Sessions -/

section

variable {p : UdpTransfer} {network : Network} {t₀ : Transferring} {s s' : UdpSession}

/-- While the receiver is in its loop, its counters fit together, it has not written the end, and it counts its
reports like a sender that does not stop. -/
structure UdpSession.Tallied [Sha256] (p : UdpTransfer) (t₀ : Transferring) (s : UdpSession) : Prop where
  settled : Settled p.receiver p.file s.transfer.receiver
  tallied : s.transfer.receiver.receiving.Tallied p.receiver.hello.chunks
    t₀.receiver.receiving.resume.receivedCount
  not_complete : ∀ line ∈ s.linesSince t₀, line ≠ ascii "COMPLETE"
  reports : (∀ line ∈ s.linesSince t₀, ∀ e, readFeedback p.sender.chunks line ≠ .stopped e) →
    (heardLines p.sender.chunks (s.linesSince t₀)).reports = s.transfer.receiver.receiving.telemetry.reports

/-- Both sides agree on what has been read. -/
structure UdpSession.Agreeing [Sha256] (p : UdpTransfer) (t₀ : Transferring) (s : UdpSession) : Prop where
  sent_ge : t₀.heard ≤ s.transfer.receiver.site.control.sent.length
  heard_ge : t₀.heard ≤ s.transfer.heard
  passes : ∀ line ∈ s.linesSince t₀, ReportPasses p.sender.chunks line
  knows : s.transfer.sender.Knows p.sender.chunks (s.linesSince t₀) (s.transfer.heard - t₀.heard)
  running : s.left = false → s.Tallied p t₀

theorem agreeing_begun [Sha256] (hp : p.Agreed) (h : TransferBegun p t₀) :
    UdpSession.Agreeing p t₀ ⟨t₀, false⟩ := by
  obtain ⟨now, hsender⟩ := h.sender
  have hnone : UdpSession.linesSince ⟨t₀, false⟩ t₀ = [] := by
    rw [UdpSession.linesSince, h.heard]
    exact List.drop_length
  refine ⟨h.heard.le, Nat.le_refl _, fun line hline => ?_, ?_, fun _ => ⟨settled_starts hp.invoked h.starts, ?_, ?_, ?_⟩⟩
  · rw [hnone] at hline
    cases hline
  · show t₀.sender.Knows _ _ _
    rw [hnone, hsender]
    refine ⟨?_, fun _ => ⟨?_, ?_⟩, (fun hcomplete => nomatch hcomplete),
      fun hphase => nomatch hphase⟩
    · rw [Nat.sub_self]
      exact Nat.le_refl _
    · rw [List.take_nil]
      rfl
    · rw [List.take_nil]
      exact fun line hline => nomatch hline
  · obtain ⟨content, hs, -⟩ := settled_starts hp.invoked h.starts
    exact tallied_start hs h.highest h.telemetry
  · rw [hnone]
    exact fun line hline => nomatch hline
  · intro _
    rw [hnone]
    show ({} : ReceiverTelemetry).reports = t₀.receiver.receiving.telemetry.reports
    rw [h.telemetry]

/-- The receiver has written more. -/
theorem linesSince_append {site : Site} {lines : List Str} (h : t₀.heard ≤ s.transfer.receiver.site.control.sent.length)
    (hsent : site.control.sent = s.transfer.receiver.site.control.sent ++ lines) :
    site.control.sent.drop t₀.heard = s.linesSince t₀ ++ lines := by
  rw [hsent, List.drop_append_of_le_length h]
  rfl

theorem UdpSession.Agreeing.said [Sha256] (h : s.Agreeing p t₀) {site : Site} {lines : List Str}
    (hsent : site.control.sent = s.transfer.receiver.site.control.sent ++ lines)
    (hlines : ∀ line ∈ lines, ReportPasses p.sender.chunks line) :
    t₀.heard ≤ site.control.sent.length ∧
      (∀ line ∈ site.control.sent.drop t₀.heard, ReportPasses p.sender.chunks line) ∧
      s.transfer.sender.Knows p.sender.chunks (site.control.sent.drop t₀.heard) (s.transfer.heard - t₀.heard) := by
  rw [linesSince_append h.sent_ge hsent]
  refine ⟨?_, fun line hline => ?_, h.knows.append lines⟩
  · rw [hsent, List.length_append]
    exact Nat.le_add_right_of_le h.sent_ge
  · rcases List.mem_append.1 hline with hline | hline
    · exact h.passes line hline
    · exact hlines line hline

/-- Whatever becomes of a turn, the reports that are written pass the checks. -/
theorem UdpSession.Tallied.throughout [Sha256] (hp : p.Agreed) (h : s.Tallied p t₀) {turn : Turn} (htyped : turn.Typed) :
    Throughout siteMachine siteRefuse
      (SaidSince (ReportPasses p.sender.chunks) s.transfer.receiver.site.control.sent)
      (receiveTurn p.receiver p.file s.transfer.receiver.receiving turn) s.transfer.receiver.site := by
  have hb := hp.invoked.able.bounded
  obtain ⟨content, hs, hd⟩ := h.settled
  rw [hp.chunks]
  refine throughout_turn hb hs hd turn (fun _ => .inl) fun s₁ content' htook => ?_
  have hsound := htook.sound hb hs
  have htallied := htook.tallied hb hs h.tallied
  have hattended := attended_hear s₁ turn.endedClock turn.events turn
  constructor
  · exact (htallied.of_attended (attended_heard s₁ _ _)).reportPasses hb (hsound.hear _ _) htyped _
  · exact (htallied.of_attended hattended).reportPasses hb ((hsound.hear _ _).checkpointed turn) htyped _

/-- The receiver has written lines in a turn after which its loop goes on. -/
theorem UdpSession.Tallied.turn [Sha256] (hp : p.Agreed) (h : s.Tallied p t₀)
    (hsent_ge : t₀.heard ≤ s.transfer.receiver.site.control.sent.length) {turn : Turn} {receiver : LoopState}
    {arrived told : Nat}
    (hrun : Succeeds siteMachine siteRefuse
      (receiveTurn p.receiver p.file s.transfer.receiver.receiving turn) s.transfer.receiver.site
        (.running receiver.receiving) receiver.site) :
    UdpSession.Tallied p t₀ { s with transfer := { s.transfer with receiver, arrived, told } } := by
  have hb := hp.invoked.able.bounded
  obtain ⟨s₁, hwent⟩ := went_of_settled hp h.settled hrun
  obtain ⟨content, content', hs, -, htook⟩ := hwent.took
  obtain ⟨s₂, pongs, hattended, hcases⟩ := hwent.cases
  have htallied := (htook.tallied hb hs h.tallied).of_attended hattended
  have hreports : s₂.telemetry.reports = s.transfer.receiver.receiving.telemetry.reports := by
    rw [hattended.telemetry]
    exact htook.reports_eq
  have hpong : ∀ line ∈ List.replicate pongs (ascii "PONG"), line = ascii "PONG" := fun line =>
    List.eq_of_mem_replicate
  have hplain : ∀ line ∈ List.replicate pongs (ascii "PONG"), stripPrefix (ascii "M ") line = none := by
    intro line hline
    rw [hpong line hline]
    decide
  have hnot : ∀ line ∈ s.linesSince t₀ ++ List.replicate pongs (ascii "PONG"), line ≠ ascii "COMPLETE" := by
    intro line hline
    rcases List.mem_append.1 hline with hline | hline
    · exact h.not_complete line hline
    · rw [hpong line hline]
      decide
  have hcount : (∀ line ∈ s.linesSince t₀, ∀ e, readFeedback p.sender.chunks line ≠ .stopped e) →
      (heardLines p.sender.chunks (s.linesSince t₀ ++ List.replicate pongs (ascii "PONG"))).reports =
        s₂.telemetry.reports := by
    intro hread
    rw [heardLines_append, foldl_heardLine hplain, h.reports hread, hreports]
  rcases hcases with ⟨heq, hsent⟩ | ⟨-, heq, hsent⟩
  · have hlines := linesSince_append hsent_ge hsent
    refine ⟨hwent.settled, ?_, ?_, ?_⟩
    · rw [heq]
      exact htallied
    · show ∀ line ∈ receiver.site.control.sent.drop t₀.heard, _
      rw [hlines]
      exact hnot
    · show (∀ line ∈ receiver.site.control.sent.drop t₀.heard, _) →
        (heardLines _ (receiver.site.control.sent.drop t₀.heard)).reports = receiver.receiving.telemetry.reports
      rw [hlines, heq]
      exact fun hread => hcount fun line hline => hread line (List.mem_append_left _ hline)
  · have hlines := linesSince_append hsent_ge hsent
    rw [← List.append_assoc] at hlines
    refine ⟨hwent.settled, ?_, ?_, ?_⟩
    · rw [heq]
      exact htallied.report
    · show ∀ line ∈ receiver.site.control.sent.drop t₀.heard, _
      rw [hlines]
      intro line hline
      rcases List.mem_append.1 hline with hline | hline
      · exact hnot line hline
      · rw [List.mem_singleton.1 hline]
        exact (stripPrefix_report _ _).2
    · show (∀ line ∈ receiver.site.control.sent.drop t₀.heard, _) →
        (heardLines _ (receiver.site.control.sent.drop t₀.heard)).reports = receiver.receiving.telemetry.reports
      rw [hlines, heq, heardLines_append]
      intro hread
      have hcount := hcount fun line hline =>
        hread line (List.mem_append_left _ (List.mem_append_left _ hline))
      obtain ⟨snapshot, text, -, hheard⟩ := heardLine_report
        (hread _ (List.mem_append_right _ List.mem_cons_self))
      show (heardLine _ _ _).reports = saturatingAdd s₂.telemetry.reports 1
      rw [hheard, hcount]

theorem UdpSession.Agreeing.step [Sha256] (hp : p.Agreed) (h : s.Agreeing p t₀) (hstep : SessionStep p network s s') :
    s'.Agreeing p t₀ := by
  cases hstep with
  | goes hleft htyped hstep =>
    cases hstep with
    | @hear line hline =>
      have hnext : s.transfer.heard + 1 - t₀.heard = s.transfer.heard - t₀.heard + 1 := by
        have hge := h.heard_ge
        omega
      have hread : (s.linesSince t₀)[s.transfer.heard - t₀.heard]? = some line := by
        rw [UdpSession.linesSince, List.getElem?_drop, Nat.add_sub_of_le h.heard_ge]
        exact hline
      refine ⟨h.sent_ge, Nat.le_succ_of_le h.heard_ge, h.passes, ?_, fun hleft => ?_⟩
      · show (s.transfer.sender.hear p.sender line).Knows _ (s.linesSince t₀) (s.transfer.heard + 1 - t₀.heard)
        rw [hnext]
        exact h.knows.hear hread
      · exact { h.running hleft with }
    | send hinput _ =>
      refine ⟨h.sent_ge, h.heard_ge, h.passes, h.knows.step hinput, fun hleft => ?_⟩
      exact { h.running hleft with }
    | @turn turn receiver arrived told _ _ hrun =>
      have hleft : s.left = false := by
        by_contra hne
        obtain ⟨i, hi⟩ := hleft (Bool.eq_true_of_not_eq_false hne)
        cases hi
      have htallied := h.running hleft
      obtain ⟨lines, hsent, hlines⟩ := htallied.throughout hp (htyped _ rfl) _ (.of_succeeds hrun)
      obtain ⟨hge, hpasses, hknows⟩ := h.said hsent hlines
      exact ⟨hge, h.heard_ge, hpasses, hknows, fun _ => htallied.turn hp h.sent_ge hrun⟩
  | leaves hleft htyped hvisits =>
    obtain ⟨lines, hsent, hlines⟩ := (h.running hleft).throughout hp htyped _ hvisits
    obtain ⟨hge, hpasses, hknows⟩ := h.said hsent hlines
    exact ⟨hge, h.heard_ge, hpasses, hknows, fun hleft => nomatch hleft⟩
  | speaks hleft hline hsent =>
    obtain ⟨hge, hpasses, hknows⟩ := h.said hsent (List.forall_mem_singleton.2 (.inl hline))
    refine ⟨hge, h.heard_ge, hpasses, hknows, fun hrunning => ?_⟩
    change s.left = false at hrunning
    rw [hleft] at hrunning
    cases hrunning

theorem UdpSession.Agreeing.steps [Sha256] (hp : p.Agreed) (h : s.Agreeing p t₀)
    (hrun : Relation.ReflTransGen (SessionStep p network) s s') : s'.Agreeing p t₀ := by
  induction hrun with
  | refl => exact h
  | tail _ hstep ih => exact ih.step hp hstep

/-- After its loop the receiver writes no reports. -/
theorem left_steps [Sha256] (hleft : s.left = true) (hsent : t₀.heard ≤ s.transfer.receiver.site.control.sent.length)
    (hrun : Relation.ReflTransGen (SessionStep p network) s s') :
    s'.left = true ∧ ∃ lines, s'.linesSince t₀ = s.linesSince t₀ ++ lines ∧
      t₀.heard ≤ s'.transfer.receiver.site.control.sent.length ∧
      ∀ line ∈ lines, stripPrefix (ascii "M ") line = none := by
  induction hrun with
  | refl => exact ⟨hleft, [], (List.append_nil _).symm, hsent, fun _ h => nomatch h⟩
  | @tail mid last _ hstep ih =>
    obtain ⟨hmid, lines, hlines, hge, hplain⟩ := ih
    cases hstep with
    | goes hsends _ hstep =>
      obtain ⟨i, rfl⟩ := hsends hmid
      cases hstep with
      | hear _ => exact ⟨hmid, lines, hlines, hge, hplain⟩
      | send _ _ => exact ⟨hmid, lines, hlines, hge, hplain⟩
    | leaves hrunning _ _ =>
      rw [hmid] at hrunning
      cases hrunning
    | @speaks line site _ hline hsent' =>
      have happend := linesSince_append hge hsent'
      refine ⟨hmid, lines ++ [line], ?_, ?_, ?_⟩
      · show site.control.sent.drop t₀.heard = _
        rw [happend, hlines, List.append_assoc]
      · show t₀.heard ≤ site.control.sent.length
        rw [hsent', List.length_append]
        exact Nat.le_add_right_of_le hge
      · intro l hl
        rcases List.mem_append.1 hl with hl | hl
        · exact hplain l hl
        · exact List.mem_singleton.1 hl ▸ hline

/-- When both sides have come to the end, all reports have passed, and both have the same counters. -/
theorem telemetry_of_completesBoth [Sha256] (hp : p.Agreed) (hstart : p.Starts t₀) {telemetry : ReceiverTelemetry}
    (h : CompletesBoth p network t₀ s telemetry) :
    (∀ line ∈ s.linesSince t₀, stripPrefix (ascii "M ") line = none ∨
      ∃ read, parseFeedbackReport line p.sender.chunks = .ok read) ∧
      s.transfer.sender.telemetry = telemetry ∧ telemetry.receivedChunks = p.receiver.hello.chunks ∧
      telemetry.frontierChunks = p.receiver.hello.chunks ∧
      telemetry.acceptedDatagrams =
        p.receiver.hello.chunks - bitmapCount t₀.receiver.receiving.resume.bitmap := by
  obtain ⟨mid, turn, last, site, hreach, htyped, hrun, rfl, hsteps, hphase⟩ := h
  have hb := hp.invoked.able.bounded
  have hbegun := hstart.begun hp
  have hmid := (agreeing_begun hp hbegun).steps hp hreach
  have htallied := hmid.running rfl
  obtain ⟨content, hs, hd⟩ := htallied.settled
  obtain ⟨s₁, content', pongs, htook, hs₁, hfull, htelemetry, hsent⟩ := completed_of_succeeds hb hs hd hrun
  have hcounts := htook.tallied hb hs htallied.tallied
  have hattended := attended_heard s₁ turn.endedClock turn.events
  have hheard := hcounts.of_attended hattended
  obtain ⟨hfits, -⟩ := hheard.update hb (hs₁.hear _ _) htyped
  rw [← htelemetry] at hfits
  -- what the receiver has written up to its last report, and what came after it
  have hleft : SessionStep p network ⟨mid, false⟩ ⟨mid.atSite site, true⟩ :=
    .leaves rfl htyped (.of_succeeds hrun)
  have hafter := hmid.step hp hleft
  obtain ⟨-, extra, hextra, -, hplain⟩ := left_steps rfl hafter.sent_ge hsteps
  have hwritten : UdpSession.linesSince ⟨mid.atSite site, true⟩ t₀ =
      UdpSession.linesSince ⟨mid, false⟩ t₀ ++ List.replicate pongs (ascii "PONG") ++
        [formatFeedbackReport last.telemetry []] ++ [ascii "COMPLETE"] := by
    have happend := @linesSince_append t₀ ⟨mid, false⟩ site _ hmid.sent_ge ((hsent.trans (List.append_assoc _ _ _)))
    show site.control.sent.drop t₀.heard = _
    rw [happend]
    simp only [List.append_assoc, List.cons_append, List.nil_append]
  have hpong : ∀ line ∈ List.replicate pongs (ascii "PONG"), line = ascii "PONG" := fun line =>
    List.eq_of_mem_replicate
  generalize hbefore : UdpSession.linesSince ⟨mid, false⟩ t₀ ++ List.replicate pongs (ascii "PONG") = before
    at hwritten
  have hlines : s.linesSince t₀ = (before ++ [formatFeedbackReport last.telemetry []]) ++
      (ascii "COMPLETE" :: extra) := by
    rw [hextra, hwritten, List.append_assoc _ [ascii "COMPLETE"] extra]
    rfl
  have hnot : ascii "COMPLETE" ∉ before ++ [formatFeedbackReport last.telemetry []] := by
    intro hmem
    rcases List.mem_append.1 hmem with hmem | hmem
    · rw [← hbefore] at hmem
      rcases List.mem_append.1 hmem with hmem | hmem
      · exact htallied.not_complete _ hmem rfl
      · exact absurd (hpong _ hmem) (by decide)
    · exact (stripPrefix_report _ _).2 (List.mem_singleton.1 hmem).symm
  -- the sender has read all of that
  have hend := hafter.steps hp hsteps
  obtain ⟨j, hj, hknown, hread⟩ := hend.knows.complete (hend.knows.acknowledged hphase)
  rw [hlines] at hj hknown hread
  have hge : (before ++ [formatFeedbackReport last.telemetry []]).length ≤ j := by
    by_contra hlt
    rw [List.getElem?_append_left (Nat.not_le.1 hlt)] at hj
    exact hnot (List.mem_of_getElem? hj)
  rw [List.take_append, List.take_of_length_le hge] at hknown hread
  have hrest : ∀ line ∈ (ascii "COMPLETE" :: extra).take
      (j - (before ++ [formatFeedbackReport last.telemetry []]).length), stripPrefix (ascii "M ") line = none := by
    intro line hline
    rcases List.mem_cons.1 (List.take_subset _ _ hline) with rfl | hline
    · decide
    · exact hplain line hline
  obtain ⟨snapshot, text, hparsed, hlast⟩ := heardLine_report (hread _ (List.mem_append_left _
    (List.mem_append_right _ List.mem_cons_self)))
  have hsnapshot := snapshot_of_parseFeedbackReport hfits hparsed
  have hcount : (heardLines p.sender.chunks before).reports = mid.receiver.receiving.telemetry.reports := by
    rw [← hbefore, heardLines_append, foldl_heardLine fun line hline => by rw [hpong line hline]; decide]
    refine htallied.reports fun line hline => hread line (List.mem_append_left _ (List.mem_append_left _ ?_))
    rw [← hbefore]
    exact List.mem_append_left _ hline
  refine ⟨fun line hline => ?_, ?_, ?_, ?_, ?_⟩
  · have hpasses := hend.passes line hline
    rw [hlines] at hline
    rcases List.mem_append.1 hline with hline | hline
    · exact passes_of_not_stopped hpasses (hread line (List.mem_append_left _ hline))
    · rcases List.mem_cons.1 hline with rfl | hline
      · exact .inl (by decide)
      · exact .inl (hplain line hline)
  · rw [hknown, heardLines_append, foldl_heardLine hrest, heardLines_append]
    show heardLine _ _ _ = _
    rw [hlast, hsnapshot, hcount]
    have hreports : last.telemetry.reports =
        saturatingAdd mid.receiver.receiving.telemetry.reports 1 := by
      rw [htelemetry]
      show saturatingAdd (s₁.hear turn.endedClock turn.events).telemetry.reports 1 = _
      rw [hattended.telemetry, htook.reports_eq]
    rw [← hreports]
  · rw [htelemetry]
    show (s₁.hear turn.endedClock turn.events).resume.receivedCount = _
    rw [hattended.bitmap, hfull]
  · rw [htelemetry]
    show (s₁.hear turn.endedClock turn.events).highest.elim 0 (· + 1) = _
    rw [hattended.highest]
    exact hcounts.topped.frontier_eq (hs₁.bitmap.count_eq_chunks_iff.1 (hs₁.count ▸ hfull))
  · obtain ⟨start, hs₀, -⟩ := settled_starts hp.invoked hbegun.starts
    have hsum := hcounts.accepted
    rw [htelemetry]
    show (s₁.hear turn.endedClock turn.events).telemetry.acceptedDatagrams = _
    rw [hattended.telemetry, ← hs₀.count]
    omega

/-! ## The object that is there already -/

/-- The counters of a receiver that holds the object already are those that the sender accepts. -/
theorem reportComplete_agrees {hello : Hello} (hb : hello.Bounded) {drops : Option Nat}
    (hdrops : ∀ n, drops = some n → n < 2 ^ 64) {answer : Except AnyError Str} {site t : Site}
    {telemetry : ReceiverTelemetry}
    (hrun : Succeeds siteMachine siteRefuse (reportComplete hello drops answer) site telemetry t) :
    ∃ lines, t.control.sent = site.control.sent ++ lines ∧
      readAcceptance .udp hello.chunks hello.payloadBytes hello.reportInterval lines =
        .ok ({ alreadyComplete := true, telemetry := telemetry }, []) ∧
      telemetry.receivedChunks = hello.chunks ∧ telemetry.frontierChunks = hello.chunks := by
  have hmax : hello.chunks < 2 ^ 64 := hb.chunks_lt
  have hfits : (completeTelemetry hello drops).Fits := by
    refine ⟨hmax, hmax, ?_, ?_, ?_, ?_, ?_, hdrops⟩ <;>
      · show 0 < 2 ^ 64
        decide
  have hconsistent : ¬(completeTelemetry hello drops).inconsistent hello.chunks := by
    show ¬(hello.chunks < hello.chunks ∨ hello.chunks < hello.chunks ∨ hello.chunks < 0 ∨ 0 < 0 ∨ 0 < 0 ∨
      0 < 0 ∨ 2 ^ 64 ≤ 0 + 0 ∨ 0 + 0 ≠ 0)
    omega
  have hreturns : Returns siteMachine siteRefuse (reportComplete hello drops answer)
      (fun found u => found = completeTelemetry hello drops ∧ u.control.sent = site.control.sent ++
        [formatFeedbackReport (completeTelemetry hello drops) [], ascii "COMPLETE"]) site := by
    refine returns_bind (returns_sendControl fun control _ hreport => ?_)
    refine returns_bind (returns_sendControl fun control' _ hcomplete => ?_)
    refine returns_bind ?_
    rcases answer with e | acknowledgement
    · exact returns_error
    · refine returns_ok ?_
      split
      · exact returns_error
      · refine returns_ok ⟨rfl, ?_⟩
        rw [hcomplete, hreport, List.append_assoc]
        rfl
  obtain ⟨rfl, hsent⟩ := hreturns _ _ hrun
  refine ⟨_, hsent, ?_, rfl, rfl⟩
  obtain ⟨hstrip, -⟩ := stripPrefix_report (completeTelemetry hello drops) []
  have hempty : ¬(rangesText [] ≠ []) := not_not.2 rfl
  rw [readAcceptance, nextLine, check_bind]
  simp only [hstrip, if_true, readCompleted, refuseIf_of_not (not_not.2 rfl), check_bind,
    parseFeedbackReport_format hfits hconsistent, refuseIf_of_not hempty, nextLine]
  rfl

/-! ## Agreement -/

/-- Reports pass the checks of the sender while the receiver can count its valid datagrams, and when both sides
have come to the end they have the same counters. -/
theorem telemetry_agrees [Sha256] {hello : Hello} {line : Str} (hparse : parseHello line = .ok hello) :
    (∀ drops, (∀ n, drops = some n → n < 2 ^ 64) → ∀ answer site t telemetry,
      Succeeds siteMachine siteRefuse (reportComplete hello drops answer) site telemetry t →
        ∃ lines, t.control.sent = site.control.sent ++ lines ∧
          readAcceptance .udp hello.chunks hello.payloadBytes hello.reportInterval lines =
            .ok ({ alreadyComplete := true, telemetry := telemetry }, []) ∧
          telemetry.receivedChunks = hello.chunks ∧ telemetry.frontierChunks = hello.chunks) ∧
    ∀ (p : UdpTransfer) (t₀ : Transferring), p.receiver.hello = hello → p.Agreed → p.Starts t₀ →
      (∀ network s, SessionReaches p network t₀ s → ∀ line ∈ s.linesSince t₀, ReportPasses p.sender.chunks line) ∧
      ∀ network s telemetry, CompletesBoth p network t₀ s telemetry →
        (∀ line ∈ s.linesSince t₀, stripPrefix (ascii "M ") line = none ∨
          ∃ read, parseFeedbackReport line p.sender.chunks = .ok read) ∧
        s.transfer.sender.telemetry = telemetry ∧ telemetry.receivedChunks = hello.chunks ∧
        telemetry.frontierChunks = hello.chunks ∧
        telemetry.acceptedDatagrams = hello.chunks - bitmapCount t₀.receiver.receiving.resume.bitmap := by
  obtain ⟨hb, -⟩ := parseHello_ok hparse
  constructor
  · intro drops hdrops answer site t telemetry hrun
    exact reportComplete_agrees hb hdrops hrun
  · rintro p t₀ rfl hp hstart
    constructor
    · intro network s hreach
      exact ((agreeing_begun hp (hstart.begun hp)).steps hp hreach).passes
    · intro network s telemetry h
      exact telemetry_of_completesBoth hp hstart h

end

section Example

/-- The sender of one byte has ended its first pass. -/
def singlePassed : Transferring :=
  (((singleBegun.acting singleTransfer).acting singleTransfer).acting singleTransfer).acting singleTransfer

/-- The datagram and the end of the first pass arrive together. -/
def singleLastTurn : Turn := { socket := .ok (some singleDatagram), events := [.ended] }

def singleOutcome : Except AnyError Turned × Site :=
  (@receiveTurn constantDigest singleReceiver (partOf singleFile).names singleStart singleLastTurn).run
    siteMachine singleSite

/-- The counters that the receiver returns. -/
def singleTelemetry : ReceiverTelemetry where
  receivedChunks := 1
  frontierChunks := 1
  acceptedDatagrams := 1
  validDatagrams := 1
  reports := 1

/-- The variables of the loop at its end. -/
def singleEnd : Receiving :=
  match singleOutcome.1 with
  | .ok (.completed s) => s
  | _ => singleStart

/-- The sender has read the last report and the end, and has acknowledged it. -/
def singleAcknowledged : UdpSession where
  transfer := ((({ singlePassed with
    receiver := ⟨singleStart, singleOutcome.2⟩
    sender := (singlePassed.sender.hear singleTransfer.sender (formatFeedbackReport singleTelemetry [])).hear
      singleTransfer.sender (ascii "COMPLETE")
    heard := 5 } : Transferring)).acting singleTransfer)
  left := true

/-- The sender of one byte may go on on its own. -/
theorem goes_acting [Sha256] {t : Transferring} {left : Bool}
    (hbuilt : ∀ built ∈ singleTransfer.datagrams (t.acting singleTransfer).sender, built.isOk = true) :
    SessionStep singleTransfer (fun _ _ _ _ => True) ⟨t, left⟩ ⟨t.acting singleTransfer, left⟩ :=
  .goes (fun _ => ⟨_, rfl⟩) (by rintro _ ⟨⟩) (step_acting hbuilt)

theorem goes_hear [Sha256] {t : Transferring} {left : Bool} {line : Str}
    (hline : t.receiver.site.control.sent[t.heard]? = some line) :
    SessionStep singleTransfer (fun _ _ _ _ => True) ⟨t, left⟩
      ⟨{ t with sender := t.sender.hear singleTransfer.sender line, heard := t.heard + 1 }, left⟩ :=
  .goes (fun _ => ⟨_, rfl⟩) (by rintro _ ⟨⟩) (.hear hline)

theorem completesBoth_single :
    @CompletesBoth constantDigest singleTransfer (fun _ _ _ _ => True) singleBegun singleAcknowledged
      singleTelemetry := by
  let _ := constantDigest
  have hpassed : SessionReaches singleTransfer (fun _ _ _ _ => True) singleBegun ⟨singlePassed, false⟩ := by
    refine (((Relation.ReflTransGen.single (goes_acting ?_)).tail (goes_acting ?_)).tail (goes_acting ?_)).tail
      (goes_acting ?_) <;> decide +kernel
  have hrun : singleOutcome = (.ok (.completed singleEnd), singleOutcome.2) :=
    Prod.ext (by decide +kernel) rfl
  have hreport := @goes_hear constantDigest (singlePassed.atSite singleOutcome.2) true
    (formatFeedbackReport singleTelemetry []) (by decide +kernel)
  refine ⟨singlePassed, singleLastTurn, singleEnd, singleOutcome.2, hpassed, nofun, .of_run hrun, rfl, ?_, ?_⟩
  · refine ((Relation.ReflTransGen.single hreport).tail (goes_hear ?_)).tail (goes_acting ?_)
    · decide +kernel
    · decide +kernel
  · decide +kernel

/-- The rule, for the transfer of one byte. -/
theorem telemetry_agrees_single :
    singleAcknowledged.transfer.sender.telemetry = singleTelemetry ∧ singleTelemetry.acceptedDatagrams = 1 - 0 := by
  let _ := constantDigest
  obtain ⟨-, heq, -, -, haccepted⟩ := ((telemetry_agrees parseHello_single).2 singleTransfer singleBegun rfl agreed_single
    starts_single).2 _ _ _ completesBoth_single
  exact ⟨heq, haccepted⟩

/-- The datagram arrives, and no report is due. -/
def floodTurn : Turn := { socket := .ok (some singleDatagram) }

def floodOutcome : Except AnyError Turned × Site :=
  (@receiveTurn constantDigest singleReceiver (partOf singleFile).names singleStart floodTurn).run
    siteMachine singleSite

/-- The variables of the loop when the datagram has arrived and has been repeated some times. -/
def flooded (n : Nat) : Receiving :=
  { singleStart with
    resume := singleStart.resume.markReceived 0
    checkpointDirty := true
    highest := some 0
    telemetry := {
      acceptedDatagrams := 1
      validDatagrams := min (n + 1) (2 ^ 64 - 1)
      duplicateDatagrams := min n (2 ^ 64 - 1) } }

def floodTransfer (n : Nat) : Transferring :=
  { singleBegun with receiver := ⟨flooded n, floodOutcome.2⟩ }

/-- Another copy of the datagram is counted, and nothing else happens. -/
theorem run_floodTurn (n : Nat) :
    (@receiveTurn constantDigest singleReceiver (partOf singleFile).names (flooded n) floodTurn).run siteMachine
      floodOutcome.2 = (.ok (.running (flooded (n + 1))), floodOutcome.2) := by
  let _ := constantDigest
  have hcheck : checkPacket singleReceiver.key singleReceiver.hello.chunkLayout
      (received singleReceiver.hello.chunkLayout singleDatagram) = some ⟨0, false, [7]⟩ := by
    decide +kernel
  have hbit : ¬bitmapContains (flooded n).resume.bitmap 0 = false := by
    show ¬bitmapContains (singleStart.resume.markReceived 0).bitmap 0 = false
    decide +kernel
  have hcounted : (((flooded n).countValid false).countDuplicate).raiseHighest 0 = flooded (n + 1) := by
    unfold flooded
    simp only [Receiving.countValid, Receiving.countDuplicate, Receiving.raiseHighest, saturatingAdd_min]
    rfl
  have htake : (takeSocket singleReceiver (partOf singleFile).names (flooded n) floodTurn.socket).run machine
      floodOutcome.2.fs = (.ok (flooded (n + 1)), floodOutcome.2.fs) := by
    show (receiveDatagram singleReceiver.key singleReceiver.hello.chunkLayout (partOf singleFile).names (flooded n)
      singleDatagram).run machine floodOutcome.2.fs = (.ok (flooded (n + 1)), floodOutcome.2.fs)
    unfold receiveDatagram
    rw [hcheck, ← hcounted]
    dsimp only
    unfold acceptPacket
    exact run_bind_ok (congrArg (fun q : FsProg Receiving => q.run machine _) (if_neg hbit))
  have hbegin : (beginTurn singleReceiver (partOf singleFile).names (flooded n) floodTurn).run siteMachine
      floodOutcome.2 = (.ok (flooded (n + 1)), floodOutcome.2) := by
    refine (run_bind_ok (a := flooded (n + 1)) (t := floodOutcome.2) ?_).trans rfl
    rw [run_onFiles, htake]
  have hgo : ¬((flooded (n + 1)).ended ∧ (flooded (n + 1)).resume.receivedCount = singleReceiver.hello.chunks) :=
    fun h => nomatch h.1
  unfold receiveTurn
  rw [run_bind_ok hbegin, if_neg hgo]
  rfl

theorem reaches_floodTransfer (n : Nat) :
    @SessionReaches constantDigest singleTransfer (fun _ _ _ _ => True) singleBegun ⟨floodTransfer n, false⟩ := by
  let _ := constantDigest
  have hstep : ∀ (s : Receiving) (site : Site) (n : Nat),
      Succeeds siteMachine siteRefuse (receiveTurn singleReceiver (partOf singleFile).names s floodTurn) site
        (.running (flooded n)) floodOutcome.2 →
      SessionStep singleTransfer (fun _ _ _ _ => True) ⟨{ singleBegun with receiver := ⟨s, site⟩ }, false⟩
        ⟨floodTransfer n, false⟩ := by
    intro s site n hrun
    refine .goes (fun h => nomatch h) (fun turn hturn => ?_) (.turn (.datagram trivial) ?_ hrun)
    · cases hturn
      exact fun drops hdrops => nomatch hdrops
    · exact ⟨[], List.nil_prefix, rfl, .inl rfl⟩
  induction n with
  | zero =>
    have hfirst : floodOutcome = (.ok (.running (flooded 0)), floodOutcome.2) := Prod.ext (by decide +kernel) rfl
    exact .single (hstep _ _ 0 (.of_run hfirst))
  | succ n ih => exact ih.tail (hstep _ _ (n + 1) (.of_run (run_floodTurn n)))

/-- The count of valid datagrams has stopped, and that of duplicates has not been outrun. -/
def stoppedStart : Receiving :=
  { flooded 0 with
    telemetry := {
      acceptedDatagrams := 1
      validDatagrams := 18446744073709551615
      duplicateDatagrams := 18446744073709551615 } }

/-- A report is due. -/
def stoppedTurn : Turn := { reportClock := 100000000 }

def stoppedOutcome : Except AnyError Turned × Site :=
  (@receiveTurn constantDigest singleReceiver (partOf singleFile).names stoppedStart stoppedTurn).run
    siteMachine floodOutcome.2

/-- The receiver has reported counters that have stopped. -/
def stoppedSession : UdpSession where
  transfer := { singleBegun with
    receiver := ⟨(stoppedStart.report singleHello stoppedTurn).1, stoppedOutcome.2⟩ }

theorem reaches_stoppedSession :
    @SessionReaches constantDigest singleTransfer (fun _ _ _ _ => True) singleBegun stoppedSession := by
  let _ := constantDigest
  have hflooded : flooded (2 ^ 64 - 1) = stoppedStart := rfl
  have hrun : stoppedOutcome.1 = .ok (.running (stoppedStart.report singleHello stoppedTurn).1) := by
    decide +kernel
  refine (reaches_floodTransfer (2 ^ 64 - 1)).tail ?_
  refine .goes (fun h => nomatch h) (fun turn hturn => ?_)
    (@TransferStep.turn _ _ _ _ stoppedTurn _ _ _ .nothing ⟨[], List.nil_prefix, rfl, .inl rfl⟩ ?_)
  · cases hturn
    exact fun drops hdrops => nomatch hdrops
  · show Succeeds siteMachine siteRefuse (receiveTurn singleReceiver (partOf singleFile).names
      (flooded (2 ^ 64 - 1)) stoppedTurn) floodOutcome.2 _ _
    rw [hflooded]
    exact .of_fst hrun

/-- When the count of valid datagrams has stopped, a report is rejected. -/
theorem not_every_report_passes :
    ¬∀ (_ : Sha256) (p : UdpTransfer) (t₀ : Transferring) (network : Network) (s : UdpSession),
      p.Agreed → p.Starts t₀ → SessionReaches p network t₀ s → ∀ line ∈ s.linesSince t₀,
        stripPrefix (ascii "M ") line = none ∨ ∃ read, parseFeedbackReport line p.sender.chunks = .ok read := by
  intro hall
  let _ := constantDigest
  have hline := hall constantDigest singleTransfer singleBegun _ stoppedSession agreed_single starts_single
    reaches_stoppedSession (ascii "M 1 1 1 18446744073709551615 18446744073709551615 0 0 - -") (by decide +kernel)
  rcases hline with hnone | ⟨read, hread⟩
  · exact absurd hnone (by decide)
  · have herror : parseFeedbackReport (ascii "M 1 1 1 18446744073709551615 18446744073709551615 0 0 - -") 1 =
        .error "inconsistent receiver feedback counters" := by
      decide +kernel
    exact nomatch herror.symm.trans hread

end Example

end PacketTide
