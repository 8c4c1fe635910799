import PacketTide.Rounds
import PacketTide.Proofs.OrderProofs
import PacketTide.Proofs.ReportProofs
import PacketTide.Proofs.TelemetryProofs

/-!
# Rounds make progress

A round sends again the first missing chunks, and all of these are there when it is over. So as many rounds
as chunks are missing complete the transfer.
-/

namespace PacketTide

open Effects FileSystem FS Prog Text

variable {p : UdpTransfer} {network : Network} {t t' : Transferring}

/-! ## What a report asks for -/

section

variable {bitmap : Bitmap} {stop : Nat}

/-- The numbers of the runs are the first missing ones. -/
theorem prefix_missingFrom {n maxRanges sequence : Nat} :
    sequencesOf (missingFrom bitmap stop n maxRanges sequence) <+:
      (List.range' sequence (stop - sequence)).filter fun i => !bitmapContains bitmap i := by
  induction n generalizing maxRanges sequence with
  | zero => exact List.nil_prefix
  | succ n ih =>
    rcases maxRanges with _ | maxRanges
    · exact List.nil_prefix
    rw [missingFrom]
    split
    next hlt =>
      split
      next hbit =>
        have hrest : stop - sequence = (stop - (sequence + 1)) + 1 := by omega
        rw [hrest, List.range'_succ, List.filter_cons_of_neg (by rw [hbit]; decide)]
        exact ih
      next hbit =>
        obtain ⟨hle, hlast, hall⟩ := lastMissing_spec (n := n) hlt (Bool.eq_false_iff.2 hbit)
        generalize lastMissing bitmap stop n sequence = last at hle hlast hall
        have hsplit : List.range' sequence (stop - sequence) =
            List.range' sequence (last + 1 - sequence) ++ List.range' (last + 1) (stop - (last + 1)) := by
          have hlength : stop - sequence = (last + 1 - sequence) + (stop - (last + 1)) := by omega
          have hstart : sequence + (last + 1 - sequence) = last + 1 := by omega
          rw [hlength, ← List.range'_append_1, hstart]
        have hmissing : (List.range' sequence (last + 1 - sequence)).filter
            (fun i => !bitmapContains bitmap i) = List.range' sequence (last + 1 - sequence) := by
          refine List.filter_eq_self.2 fun i hi => ?_
          obtain ⟨hge, hlt⟩ := List.mem_range'_1.1 hi
          rw [hall i hge (by omega)]
          rfl
        rw [hsplit, List.filter_append, hmissing, sequencesOf, List.flatMap_cons]
        exact (List.prefix_append_right_inj _).2 ih
    · exact List.nil_prefix

/-- Something is asked for if something is missing. -/
theorem missingFrom_ne_nil {n maxRanges sequence x : Nat} (hn : stop ≤ sequence + n) (hranges : 0 < maxRanges)
    (hle : sequence ≤ x) (hlt : x < stop) (hbit : bitmapContains bitmap x = false) :
    missingFrom bitmap stop n maxRanges sequence ≠ [] := by
  induction n generalizing sequence with
  | zero => omega
  | succ n ih =>
    obtain ⟨ranges, rfl⟩ : ∃ ranges, maxRanges = ranges + 1 := ⟨maxRanges - 1, by omega⟩
    rw [missingFrom, if_pos (by omega)]
    split
    next hset =>
      have hne : sequence ≠ x := fun heq => by
        rw [heq, hbit] at hset
        cases hset
      exact ih (by omega) (by omega)
    · exact List.cons_ne_nil _ _

theorem sequencesOf_ne_nil {ranges : List (Nat × Nat)} (hproper : ∀ r ∈ ranges, r.1 ≤ r.2) (hne : ranges ≠ []) :
    sequencesOf ranges ≠ [] := by
  obtain ⟨range, rest, rfl⟩ := List.exists_cons_of_ne_nil hne
  have hle := hproper range List.mem_cons_self
  rw [sequencesOf, List.flatMap_cons, ← List.length_pos_iff, List.length_append, List.length_range']
  omega

end

/-- The chunks that a receiver asks for, in the order in which they are queued. -/
theorem asks_first (chunks : Nat) (bitmap : Bitmap) :
    (sequencesOf (missingRanges bitmap chunks maxRangesPerReport)).take maxQueuedRepairs <+:
      clearChunks chunks bitmap := by
  have hfirst := @prefix_missingFrom bitmap chunks chunks maxRangesPerReport 0
  rw [Nat.sub_zero, ← List.range_eq_range'] at hfirst
  exact (List.take_prefix _ _).trans hfirst

theorem asks_ne_nil {chunks : Nat} {bitmap : Bitmap} (h : clearChunks chunks bitmap ≠ []) :
    (sequencesOf (missingRanges bitmap chunks maxRangesPerReport)).take maxQueuedRepairs ≠ [] := by
  obtain ⟨x, hx⟩ := List.exists_mem_of_ne_nil _ h
  obtain ⟨hrange, hbit⟩ := List.mem_filter.1 hx
  have hranges : missingRanges bitmap chunks maxRangesPerReport ≠ [] :=
    missingFrom_ne_nil (by omega) (by decide) (Nat.zero_le x) (List.mem_range.1 hrange)
      (by rw [← Bool.not_eq_true']; exact hbit)
  have hsequences := sequencesOf_ne_nil (fun r hr => (missingRanges_spec hr).1) hranges
  rw [← List.length_pos_iff] at hsequences ⊢
  rw [List.length_take]
  unfold maxQueuedRepairs
  omega

theorem mem_clearChunks {chunks x : Nat} {bitmap : Bitmap} :
    x ∈ clearChunks chunks bitmap ↔ x < chunks ∧ bitmapContains bitmap x = false := by
  rw [clearChunks, List.mem_filter, List.mem_range, Bool.not_eq_true']

/-- What is received leaves the missing chunks. -/
theorem length_clearChunks_le {chunks : Nat} {bitmap bitmap' : Bitmap} {got : List Nat}
    (hmarks : ∀ x, bitmapContains bitmap x = true → bitmapContains bitmap' x = true)
    (hfirst : got <+: clearChunks chunks bitmap) (hgot : ∀ x ∈ got, bitmapContains bitmap' x = true) :
    (clearChunks chunks bitmap').length + got.length ≤ (clearChunks chunks bitmap).length := by
  obtain ⟨rest, hrest⟩ := hfirst
  have hstill : clearChunks chunks bitmap' =
      (clearChunks chunks bitmap).filter fun i => !bitmapContains bitmap' i := by
    rw [clearChunks, clearChunks, List.filter_filter]
    refine List.filter_congr fun i _ => ?_
    rcases hbit : bitmapContains bitmap i with _ | _
    · simp
    · rw [hmarks i hbit]
      rfl
  have hnone : got.filter (fun i => !bitmapContains bitmap' i) = [] := by
    refine List.filter_eq_nil_iff.2 fun x hx => ?_
    rw [hgot x hx]
    decide
  have hle : (rest.filter fun i => !bitmapContains bitmap' i).length ≤ rest.length := List.length_filter_le _ _
  rw [hstill, ← hrest, List.filter_append, hnone, List.nil_append, List.length_append]
  omega

/-! ## The sender -/

namespace Sending

variable {c : UdpSender} {s : Sending}

/-- The chunks that have been sent again, wait for it, or are queued, in order. -/
def repaired (s : Sending) : List Nat := repairsOf s.log ++ s.phase.waiting ++ s.repairs.queue

theorem repaired_congr {s s' : Sending} (hpackets : repairsOf s'.log = repairsOf s.log)
    (hwaiting : s'.phase.waiting = s.phase.waiting) (hqueue : s'.repairs.queue = s.repairs.queue) :
    s'.repaired = s.repaired := by
  rw [repaired, repaired, hpackets, hwaiting, hqueue]

theorem repairsOf_append (log : List (ℚ × SendEvent)) (time : ℚ) (sequence : Nat) (repair : Bool) :
    repairsOf (log ++ [(time, .packet sequence repair)]) =
      repairsOf log ++ if repair then [sequence] else [] := by
  rw [repairsOf, packetsOf_append, List.filter_append, List.map_append]
  cases repair <;> rfl

theorem repairsOf_control (log : List (ℚ × SendEvent)) (time : ℚ) (payload : Str) :
    repairsOf (log ++ [(time, .control payload)]) = repairsOf log := by
  rw [repairsOf, packetsOf_control, repairsOf]

theorem repairsOf_heartbeat (c : UdpSender) (s : Sending) : repairsOf (s.heartbeat c).log = repairsOf s.log := by
  rw [repairsOf, (log_heartbeat c s).1, repairsOf]

/-- What is taken from the queue comes next. -/
theorem repaired_taken (n : Nat) (hnone : s.phase.waiting = []) :
    repairsOf s.log ++ s.repairs.queue.take n ++ s.repairs.queue.drop n = s.repaired := by
  rw [List.append_assoc, List.take_append_drop, repaired, hnone, List.append_nil]

/-- What is sent was the first that waited. -/
theorem repaired_sent {x : Nat} {waiting : List Nat} (time : ℚ) (hwaiting : s.phase.waiting = x :: waiting) :
    repairsOf (s.log ++ [(time, .packet x true)]) ++ waiting ++ s.repairs.queue = s.repaired := by
  rw [repairsOf_append, repaired, hwaiting, if_pos rfl, List.append_assoc (repairsOf s.log)]
  rfl

/-- The sending thread keeps the order, and loses nothing. -/
theorem repaired_act (c : UdpSender) (s : Sending) (orders : Nat → FirstKey) (delays : Nat → ℚ≥0) :
    (s.act c orders delays).repaired = s.repaired := by
  obtain ⟨htaken, hleft⟩ := @takeRepairs_queue s.repairs s.now orders delays s.takeLimit
  have hqueue := congrArg RepairQueue.queue (log_heartbeat c s).2.2
  have hbeat := repairsOf_heartbeat c s
  rcases hphase : s.phase with n | n | n | ⟨n, waiting⟩ | _ | _ | waiting | _ | _
  all_goals simp only [Sending.act, hphase]
  case pass =>
    split
    · exact repaired_congr (repairsOf_control _ _ _) (by rw [hphase]; rfl) rfl
    · split
      · exact repaired_congr (repairsOf_control _ _ _) (by rw [hphase]; rfl) rfl
      · refine repaired_congr hbeat ?_ hqueue
        rw [hphase]
        show SendPhase.waiting (if _ then _ else _) = _
        split <;> rfl
  case original =>
    refine repaired_congr ?_ (by rw [hphase]; rfl) rfl
    exact (repairsOf_append _ _ _ _).trans (List.append_nil _)
  case between =>
    split
    · show repairsOf s.log ++ (takeRepairs _ _ _ _ _).entries.map Prod.fst ++ (takeRepairs _ _ _ _ _).repairs.queue = _
      rw [htaken, hleft]
      exact repaired_taken _ (by rw [hphase]; rfl)
    · exact repaired_congr rfl (by rw [hphase]; rfl) rfl
  case interleaved =>
    rcases waiting with _ | ⟨x, waiting⟩
    · exact repaired_congr rfl (by rw [hphase]; rfl) rfl
    · exact repaired_sent s.now (by rw [hphase]; rfl)
  case tail =>
    split
    · exact repaired_congr (repairsOf_control _ _ _) (by rw [hphase]; rfl) rfl
    · split
      · exact repaired_congr (repairsOf_control _ _ _) (by rw [hphase]; rfl) rfl
      · exact repaired_congr hbeat (by rw [hphase]; rfl) hqueue
  case taking =>
    show repairsOf s.log ++ SendPhase.waiting (if _ then _ else _) ++ (takeRepairs _ _ _ _ _).repairs.queue = _
    have hwaiting : SendPhase.waiting (if (takeRepairs orders delays s.now s.repairs s.takeLimit).entries.map
        Prod.fst = [] then .tail
        else .repairing ((takeRepairs orders delays s.now s.repairs s.takeLimit).entries.map Prod.fst)) =
        s.repairs.queue.take s.takeLimit := by
      rw [htaken]
      split
      next hnil => exact hnil.symm
      · rfl
    rw [hwaiting, hleft]
    exact repaired_taken _ (by rw [hphase]; rfl)
  case repairing =>
    rcases waiting with _ | ⟨x, waiting⟩
    · exact repaired_congr rfl (by rw [hphase]; rfl) rfl
    · exact repaired_sent s.now (by rw [hphase]; rfl)

/-- Unless the sending thread fails, what is to be sent again stays so, in order; reports may add to it. -/
theorem repaired_step {input : SendInput} (hinput : input ≠ .fail) :
    s.repaired <+: (s.step c input).repaired := by
  cases input with
  | hear line =>
    show s.repaired <+: (s.hear c line).repaired
    unfold Sending.hear
    split
    · exact List.prefix_refl _
    · split
      · exact List.prefix_refl _
      next snapshot ranges _ =>
        exact (List.prefix_append_right_inj _).2
          (prefix_enqueueRepairs (s.repairs.expire s.now) ranges c.chunks)
      · exact List.prefix_refl _
      · exact List.prefix_refl _
  | act orders delays => exact (repaired_act c s orders delays).symm ▸ List.prefix_refl _
  | disconnect error =>
    show s.repaired <+: (s.disconnect error).repaired
    unfold Sending.disconnect
    split <;> exact List.prefix_refl _
  | fail => exact absurd rfl hinput
  | wait time => exact List.prefix_refl _

/-- The repair queue keeps valid. -/
theorem valid_step (h : s.repairs.Valid s.now) (input : SendInput) :
    (s.step c input).repairs.Valid (s.step c input).now := by
  have hbeat : (s.heartbeat c).repairs.Valid (s.heartbeat c).now := by
    unfold heartbeat
    split <;> exact h
  cases input with
  | hear line =>
    show (s.hear c line).repairs.Valid (s.hear c line).now
    unfold Sending.hear
    split
    · exact h
    · split
      · exact h
      · exact h.expire.enqueueRepairs _ _
      · exact h
      · exact h
  | act orders delays =>
    have htake := @RepairQueue.Valid.take s.repairs s.now orders delays s.takeLimit h
    show (s.act c orders delays).repairs.Valid (s.act c orders delays).now
    rcases hphase : s.phase with n | n | n | ⟨n, _ | ⟨x, waiting⟩⟩ | _ | _ | (_ | ⟨x, waiting⟩) | _ | _
    all_goals simp only [Sending.act, hphase]
    case pass =>
      split
      · exact h
      · split
        · exact h
        · exact hbeat
    case between =>
      split
      · exact htake
      · exact h
    case tail =>
      split
      · exact h
      · split
        · exact h
        · exact hbeat
    case taking => exact htake
    all_goals exact h
  | disconnect error =>
    show (s.disconnect error).repairs.Valid (s.disconnect error).now
    unfold Sending.disconnect
    split <;> exact h
  | fail =>
    show (if s.ended then s else s.cancel).repairs.Valid (if s.ended then s else s.cancel).now
    split <;> exact h
  | wait time => exact h.wait (le_add_of_nonneg_right time.2)

/-- A queue from which all has been taken, and whose repairs are past their cooldown, is like new. -/
theorem expire_eq_new {q : RepairQueue} {now : ℚ} (h : q.Valid now) (hqueue : q.queue = [])
    (hcool : ∀ e ∈ q.lastSent, q.cooldown ≤ max 0 (now - e.2)) :
    q.expire now = { cooldown := q.cooldown } := by
  have hqueued : q.queued = [] := List.eq_nil_iff_forall_not_mem.2 fun x hx => by
    have hmem := (h.mem_queued x).1 hx
    rw [hqueue] at hmem
    cases hmem
  have hlast : (q.lastSent.filter fun entry => max 0 (now - entry.2) < q.cooldown) = [] := by
    refine List.filter_eq_nil_iff.2 fun e he => ?_
    rw [decide_eq_true_eq]
    exact not_lt.2 (hcool e he)
  rw [RepairQueue.expire, hlast]
  obtain ⟨queue, queued, lastSent, cooldown⟩ := q
  cases hqueue
  cases hqueued
  rfl

/-- Reading a report when nothing is queued: the sender queues what the report names. -/
theorem repairs_of_hear {telemetry : ReceiverTelemetry} {ranges : List (Nat × Nat)}
    (h : s.repairs.Valid s.now) (hqueue : s.repairs.queue = [])
    (hcool : ∀ e ∈ s.repairs.lastSent, s.repairs.cooldown ≤ max 0 (s.now - e.2)) (hc : c.chunks ≤ 2 ^ 64)
    (hranges : ∀ r ∈ ranges, r.1 ≤ r.2 ∧ r.2 < c.chunks) (happ : ranges.Pairwise fun a b => a.2 < b.1)
    (hlistening : (s.hear c (formatFeedbackReport telemetry ranges)).listening = true) :
    (s.hear c (formatFeedbackReport telemetry ranges)).repairs.queue =
      (sequencesOf ranges).take maxQueuedRepairs := by
  rw [Sending.hear] at hlistening ⊢
  split at hlistening
  next hdeaf =>
    rw [hdeaf] at hlistening
    cases hlistening
  next hlistens =>
    rw [if_neg hlistens]
    rw [readFeedback_report] at hlistening ⊢
    rcases hparse : parseFeedbackReport (formatFeedbackReport telemetry ranges) c.chunks with
      e | ⟨snapshot, text⟩
    · rw [hparse] at hlistening
      simp [Sending.listening] at hlistening
    · dsimp only
      rw [ranges_of_parseFeedbackReport hparse, Sending.takeReport, expire_eq_new h hqueue hcool,
        enqueueRepairs_rangesText hc hranges happ]
      rfl

end Sending

/-! ## Steps -/

theorem missing_eq_nil {r : UdpReceiver} {s : Receiving} {content : List UInt8} (hs : s.Sound r content) :
    clearChunks r.hello.chunks s.resume.bitmap = [] ↔ s.resume.receivedCount = r.hello.chunks := by
  rw [hs.count, hs.bitmap.count_eq_chunks_iff, List.eq_nil_iff_forall_not_mem]
  refine ⟨fun h i hi => ?_, fun h i hi => ?_⟩
  · have hnot := h i
    rw [mem_clearChunks, not_and, Bool.not_eq_false] at hnot
    exact hnot hi
  · obtain ⟨hlt, hbit⟩ := mem_clearChunks.1 hi
    rw [h i hlt] at hbit
    cases hbit

/-- What holds in every transfer under way: after the first pass something is missing. -/
structure Going (p : UdpTransfer) (t : Transferring) : Prop where
  settled : Settled p.receiver p.file t.receiver
  valid : t.sender.repairs.Valid t.sender.now
  unfinished : t.receiver.receiving.ended = true → p.missing t ≠ []

/-- What no step takes back. -/
structure Grows (t t' : Transferring) : Prop where
  marks : ∀ x, bitmapContains t.receiver.receiving.resume.bitmap x = true →
    bitmapContains t'.receiver.receiving.resume.bitmap x = true
  sent : t.receiver.site.control.sent <+: t'.receiver.site.control.sent
  ended : t.receiver.receiving.ended = true → t'.receiver.receiving.ended = true

theorem Grows.refl (t : Transferring) : Grows t t := ⟨fun _ hx => hx, List.prefix_refl _, id⟩

theorem Grows.trans {t'' : Transferring} (h : Grows t t') (h' : Grows t' t'') : Grows t t'' :=
  ⟨fun x hx => h'.marks x (h.marks x hx), h.sent.trans h'.sent, fun hended => h'.ended (h.ended hended)⟩

/-- No step adds to what is missing. -/
theorem Grows.missing_le (h : Grows t t') (p : UdpTransfer) : (p.missing t').length ≤ (p.missing t).length :=
  length_clearChunks_le h.marks List.nil_prefix fun _ hx => absurd hx List.not_mem_nil

section

variable [Sha256]

theorem going_begun (hp : p.Agreed) (h : TransferBegun p t) : Going p t := by
  obtain ⟨now, hsender⟩ := h.sender
  refine ⟨settled_starts hp.invoked h.starts, ?_, fun hended => ?_⟩
  · rw [hsender]
    exact valid_new _
  · rw [h.ended] at hended
    cases hended

/-- The datagram of a chunk is valid. -/
theorem check_of_built (hp : p.Agreed) {sequence : Nat} {repair : Bool} {datagram : List UInt8}
    (hbuilt : p.datagram (sequence, repair) = .ok datagram) (hlt : sequence < p.receiver.hello.chunks) :
    checkPacket p.receiver.key p.receiver.hello.chunkLayout (received p.receiver.hello.chunkLayout datagram) =
      some ⟨sequence, repair, p.receiver.hello.chunkLayout.payload p.source sequence⟩ := by
  have hb := hp.invoked.able.bounded
  unfold UdpTransfer.datagram at hbuilt
  rw [hp.size, hp.payloadBytes] at hbuilt
  have hlimit : p.receiver.hello.payloadBytes < 2 ^ 16 := by
    have hle := hb.payloadBytes_le
    unfold maxUdpPayloadBytes at hle
    omega
  refine (@checkPacket_buildPacket _ p.receiver.hello.chunkLayout _ _ _ _ _
    ⟨hb.payloadBytes_pos, hlimit⟩ hbuilt).trans (if_neg ?_)
  exact Nat.not_le.2 hlt

/-- A chunk that is handed over is there from then on. -/
theorem TookSocket.stores {r : UdpReceiver} {s s' : Receiving} {content content' datagram : List UInt8}
    {packet : Packet} (hs : s.Sound r content) (h : TookSocket r s content (.ok (some datagram)) s' content')
    (hcheck : checkPacket r.key r.hello.chunkLayout (received r.hello.chunkLayout datagram) = some packet) :
    bitmapContains s'.resume.bitmap packet.sequence = true := by
  obtain ⟨hsequence, -⟩ := checkPacket_some hcheck
  cases h with
  | datagram h =>
  cases h with
  | invalid hnone =>
    rw [hcheck] at hnone
    cases hnone
  | duplicate hsome hbit =>
    rw [hcheck] at hsome
    cases hsome
    exact hbit
  | accepted hsome _ _ hs' =>
    rw [hcheck] at hsome
    cases hsome
    have hset : bitmapContains (bitmapInsert s.resume.bitmap packet.sequence) packet.sequence = true := by
      rw [bitmapContains_bitmapInsert (hs.bitmap.place_lt hsequence), decide_eq_true rfl, Bool.true_or]
    rcases hs' with rfl | rfl
    · exact hset
    · exact hset

/-- A turn after which the loop goes on. -/
theorem Going.turn (hp : p.Agreed) (h : Going p t) {turn : Turn} {b : LoopState}
    (hrun : Succeeds siteMachine siteRefuse (receiveTurn p.receiver p.file t.receiver.receiving turn)
      t.receiver.site (.running b.receiving) b.site) :
    Going p { t with receiver := b } ∧ Grows t { t with receiver := b } ∧
      ∀ datagram packet, turn.socket = .ok (some datagram) → checkPacket p.receiver.key
        p.receiver.hello.chunkLayout (received p.receiver.hello.chunkLayout datagram) = some packet →
        bitmapContains b.receiving.resume.bitmap packet.sequence = true := by
  have hb := hp.invoked.able.bounded
  obtain ⟨content, hs, hd⟩ := h.settled
  obtain ⟨content', hwent⟩ := wentOn_of_succeeds hb hs hd hrun
  obtain ⟨s₁, s₂, u, pongs, lines, htook, hs₂, -, hgo, -, hreported, -, hsent⟩ := hwent.begun
  have hattended := attended_hear s₁ turn.endedClock turn.events turn
  rw [← hs₂] at hattended
  have hresume : b.receiving.resume = s₁.resume := hreported.resume_eq.trans hattended.bitmap
  have hboth : b.receiving.ended = (s₂.checkpointed turn).ended := by
    generalize b.receiving = s' at hreported
    cases hreported <;> rfl
  refine ⟨⟨⟨content', hwent.sound, hwent.disk⟩, h.valid, fun hended => ?_⟩, ⟨fun x hx => ?_, ?_, fun hended => ?_⟩,
    fun datagram packet hsocket hcheck => ?_⟩
  · have hended₂ : s₂.ended = true := by
      have hkeeps : (s₂.checkpointed turn).ended = s₂.ended := by
        unfold Receiving.checkpointed
        split <;> rfl
      rw [← hkeeps, ← hboth]
      exact hended
    have hcount : b.receiving.resume.receivedCount ≠ p.receiver.hello.chunks := by
      have hresume₂ : s₂.resume = s₁.resume := by
        rw [hs₂]
        exact (attended_heard s₁ turn.endedClock turn.events).bitmap
      rw [hresume, ← hresume₂]
      exact fun heq => hgo ⟨hended₂, heq⟩
    exact fun hnil => hcount ((missing_eq_nil hwent.sound).1 hnil)
  · show bitmapContains b.receiving.resume.bitmap x = true
    rw [hresume]
    exact htook.marks x hx
  · show _ <+: b.site.control.sent
    rw [hsent, List.append_assoc]
    exact List.prefix_append _ _
  · exact hboth.trans (hattended.ended_iff.2 (.inl (htook.reports.2.2.trans hended)))
  · rw [hsocket] at htook
    rw [hresume]
    exact htook.stores hs hcheck

theorem Going.step (hp : p.Agreed) (h : Going p t) {input : TransferInput}
    (hstep : TransferStep p network t input t') : Going p t' ∧ Grows t t' := by
  cases hstep with
  | @hear line hline =>
    exact ⟨⟨h.settled, Sending.valid_step h.valid (.hear line), h.unfinished⟩, fun _ hx => hx, List.prefix_refl _, id⟩
  | @send input hinput hbuilt =>
    exact ⟨⟨h.settled, Sending.valid_step h.valid input, h.unfinished⟩, fun _ hx => hx, List.prefix_refl _, id⟩
  | @turn turn receiver arrived told harrives htells hrun =>
    obtain ⟨hgoing, hgrows, -⟩ := h.turn hp hrun
    exact ⟨⟨hgoing.settled, hgoing.valid, hgoing.unfinished⟩, hgrows.marks, hgrows.sent, hgrows.ended⟩

theorem Going.leads (hp : p.Agreed) (h : Going p t) {P : Transferring → TransferInput → Prop}
    (hleads : Leads p network P t t') : Going p t' ∧ Grows t t' := by
  induction hleads with
  | refl => exact ⟨h, .refl t⟩
  | tail _ hstep ih =>
    obtain ⟨input, -, hstep⟩ := hstep
    obtain ⟨hgoing, hgrows⟩ := ih.1.step hp hstep
    exact ⟨hgoing, ih.2.trans hgrows⟩

/-! ## Runs that may complete the object -/

/-- What a run leaves. -/
structure Proceeded (p : UdpTransfer) (t : Transferring) (inputs : List TransferInput) (s : UdpSession) :
    Prop where
  marks : ∀ x, bitmapContains t.receiver.receiving.resume.bitmap x = true →
    bitmapContains s.transfer.receiver.receiving.resume.bitmap x = true
  log : t.sender.log <+: s.transfer.sender.log
  ended : t.receiver.receiving.ended = true → s.transfer.receiver.receiving.ended = true
  going : s.left = false → Going p s.transfer
  stored : s.left = false → ∀ turn datagram packet, TransferInput.turn turn ∈ inputs →
    turn.socket = .ok (some datagram) → checkPacket p.receiver.key p.receiver.hello.chunkLayout
      (received p.receiver.hello.chunkLayout datagram) = some packet →
    bitmapContains s.transfer.receiver.receiving.resume.bitmap packet.sequence = true
  holds : s.left = true → HoldsObject p.receiver.hello (s.transfer.receiver.site.fs.view
    (s.transfer.receiver.site.fs.home ++ p.receiver.destination.names))

theorem holds_of_completed (hp : p.Agreed) (h : Going p t) {turn : Turn} {last : Receiving} {site : Site}
    (hrun : Succeeds siteMachine siteRefuse (receiveTurn p.receiver p.file t.receiver.receiving turn)
      t.receiver.site (.completed last) site) :
    HoldsObject p.receiver.hello (site.fs.view (site.fs.home ++ p.receiver.destination.names)) := by
  have hb := hp.invoked.able.bounded
  obtain ⟨content, hs, hd⟩ := h.settled
  obtain ⟨s₂, u, hbegin, hrest⟩ := succeeds_bind hrun
  obtain ⟨content', hbegun⟩ := returns_beginTurn hb hs hd turn s₂ u hbegin
  split at hrest
  next hfull =>
    obtain ⟨last', w, hcomplete, hdone⟩ := succeeds_bind hrest
    obtain ⟨-, rfl⟩ := succeeds_done hdone
    obtain ⟨hhash, -, hhome, hview, -⟩ :=
      (completing hb hbegun.sound hbegun.disk hfull.2 turn.socketDrops).returns _ _ hcomplete
    rw [hhome]
    exact ⟨content', hview, hhash⟩
  · obtain ⟨s₃, w, -, hrest⟩ := succeeds_bind hrest
    obtain ⟨s₄, y, -, hdone⟩ := succeeds_bind hrest
    cases (succeeds_done hdone).1

theorem proceeded (hp : p.Agreed) {inputs : List TransferInput} {s : UdpSession} (h : Going p t)
    (hproceeds : Proceeds p network t inputs s) : Proceeded p t inputs s := by
  induction hproceeds with
  | nil =>
    exact ⟨fun _ hx => hx, List.prefix_refl _, id, fun _ => h, fun _ _ _ _ hturn => absurd hturn List.not_mem_nil,
      fun hleft => Bool.noConfusion hleft⟩
  | @step t u input inputs s hstep rest ih =>
    obtain ⟨hgoing, hgrows⟩ := h.step hp hstep
    have hrest := ih hgoing
    refine ⟨fun x hx => hrest.marks x (hgrows.marks x hx), ?_, fun hended => hrest.ended (hgrows.ended hended),
      hrest.going, ?_, hrest.holds⟩
    · refine List.IsPrefix.trans ?_ hrest.log
      cases hstep with
      | @hear line hline => exact Sending.log_prefix_step p.sender t.sender (.hear line)
      | @send input _ _ => exact Sending.log_prefix_step p.sender t.sender input
      | turn _ _ _ => exact List.prefix_refl _
    · intro hleft turn datagram packet hturn hsocket hcheck
      rcases List.mem_cons.1 hturn with rfl | hturn
      · cases hstep with
        | turn _ _ hrun =>
          obtain ⟨-, -, hstores⟩ := h.turn hp hrun
          exact hrest.marks _ (hstores datagram packet hsocket hcheck)
      · exact hrest.stored hleft turn datagram packet hturn hsocket hcheck
  | completed hrun =>
    exact ⟨fun _ hx => hx, List.prefix_refl _, id, fun hleft => Bool.noConfusion hleft,
      fun hleft => Bool.noConfusion hleft, fun _ => holds_of_completed hp h hrun⟩

/-- Nothing that is to be sent again is forgotten. -/
theorem repaired_proceeds {inputs : List TransferInput} {s : UdpSession}
    (hproceeds : Proceeds p network t inputs s)
    (hinputs : ∀ input ∈ inputs, ∀ i, input = .send i → i ≠ .fail) :
    t.sender.repaired <+: s.transfer.sender.repaired := by
  induction hproceeds with
  | nil => exact List.prefix_refl _
  | @step t u input inputs s hstep rest ih =>
    obtain ⟨hinput, hrest⟩ := List.forall_mem_cons.1 hinputs
    refine List.IsPrefix.trans ?_ (ih hrest)
    cases hstep with
    | @hear line hline =>
      exact Sending.repaired_step (c := p.sender) (s := t.sender) (hinput (.hear line) rfl)
    | @send input _ _ => exact Sending.repaired_step (c := p.sender) (s := t.sender) (hinput input rfl)
    | turn _ _ _ => exact List.prefix_refl _
  | completed _ => exact List.prefix_refl _

/-! ## Rounds -/

theorem turn_of_step {turn : Turn} (h : TransferStep p network t (.turn turn) t') :
    Succeeds siteMachine siteRefuse (receiveTurn p.receiver p.file t.receiver.receiving turn)
      t.receiver.site (.running t'.receiver.receiving) t'.receiver.site := by
  cases h with
  | turn _ _ hrun => exact hrun

theorem hear_of_step {line : Str} (h : TransferStep p network t (.send (.hear line)) t') :
    t.receiver.site.control.sent[t.heard]? = some line ∧
      t' = { t with sender := t.sender.hear p.sender line, heard := t.heard + 1 } := by
  cases h with
  | hear hline => exact ⟨hline, rfl⟩
  | send hinput _ => exact absurd rfl (hinput line)

/-- A report on all chunks is the last line of its turn. -/
theorem line_of_reportsAll (hp : p.Agreed) (h : Going p t) {turn : Turn}
    (hstep : TransferStep p network t (.turn turn) t') (hall : ReportsAll p t turn t') :
    ∃ telemetry lines, t'.receiver.site.control.sent = lines ++ [formatFeedbackReport telemetry
      (missingRanges t'.receiver.receiving.resume.bitmap p.receiver.hello.chunks maxRangesPerReport)] := by
  obtain ⟨s₁, hwent⟩ := went_of_settled hp h.settled (turn_of_step hstep)
  obtain ⟨content, content', -, -, htook⟩ := hwent.took
  obtain ⟨pongs, lines, hreported, hsent⟩ := hwent.reported
  have hattended := attended_hear s₁ turn.endedClock turn.events turn
  generalize (s₁.hear turn.endedClock turn.events).checkpointed turn = s₂ at hreported hattended
  generalize heq : t'.receiver.receiving = s' at hreported
  cases hreported with
  | quiet hquiet =>
    refine absurd ?_ hquiet
    rw [ReportDue, hattended.lastReport, htook.reports.2.1]
    exact hall.due
  | due _ =>
    have hend : (s₂.reportEnd p.receiver.hello turn.now).2 = p.receiver.hello.chunks := by
      have hended := hall.ended
      have hgraced := hall.graced
      rw [heq] at hended hgraced
      change s₂.ended = true at hended
      change (s₂.endedAt.any fun since =>
        decide (s₂.activeGrace p.receiver.hello ≤ elapsed since turn.now)) = true at hgraced
      unfold Receiving.reportEnd
      dsimp only
      rw [hended, hgraced]
      rfl
    have hranges : (s₂.report p.receiver.hello turn).2 =
        missingRanges (s₂.report p.receiver.hello turn).1.resume.bitmap p.receiver.hello.chunks
          maxRangesPerReport := by
      rw [← hend]
      rfl
    rw [← hranges]
    exact ⟨_, _, hsent⟩

/-- The sender queues the chunks that the round is about. -/
theorem Round.queued (round : Round p network) (hp : p.Agreed) (h : Going p round.start) :
    round.asked.sender.repaired = repairsOf round.asked.sender.log ++ round.asks := by
  obtain ⟨hreported, -⟩ := h.step hp round.report
  obtain ⟨hread, hgrows⟩ := hreported.leads hp round.between
  obtain ⟨telemetry, lines, hsent⟩ := line_of_reportsAll hp h round.report round.reportsAll
  obtain ⟨hline, hasked⟩ := hear_of_step round.hear
  obtain ⟨later, hlater⟩ := hgrows.sent
  have hlength := round.next
  rw [hsent, List.length_append, List.length_singleton] at hlength
  have hheard : round.read.heard = lines.length := by omega
  rw [← hlater, hsent, List.append_assoc, hheard, List.getElem?_append_right (Nat.le_refl _), Nat.sub_self] at hline
  have hreport : round.line = formatFeedbackReport telemetry (missingRanges
      round.reported.receiver.receiving.resume.bitmap p.receiver.hello.chunks maxRangesPerReport) :=
    (Option.some.inj hline).symm
  have hb := hp.invoked.able.bounded
  have hchunks : p.sender.chunks ≤ 2 ^ 64 := by
    rw [hp.chunks]
    exact hb.chunks_le.trans (by decide)
  have hfirst := missingRanges_first round.reported.receiver.receiving.resume.bitmap p.receiver.hello.chunks
    maxRangesPerReport
  have hlistening := round.listening
  have hqueue : round.asked.sender.repairs.queue = round.asks := by
    rw [hasked, hreport] at hlistening ⊢
    refine Sending.repairs_of_hear hread.valid round.queue round.cool hchunks ?_ ?_ hlistening
    · rw [hp.chunks]
      exact missingRanges_lt (Nat.le_refl _)
    · exact hfirst.ascending.imp Nat.lt_of_succ_lt
  have hwaiting : round.asked.sender.phase.waiting = [] := by
    rw [hasked]
    exact (congrArg SendPhase.waiting (Sending.hear_asks p.sender _ _).2.1).trans round.waiting
  rw [Sending.repaired, hwaiting, hqueue, List.append_nil]

/-- A round sends again what it is about, and this is there afterwards unless the object is complete. -/
theorem Round.brings (round : Round p network) (hp : p.Agreed) (h : Going p round.start) :
    round.asks <+: round.repairs ∧ Proceeded p round.asked round.inputs round.finish ∧
      (round.finish.left = false → ∀ x ∈ round.asks,
        bitmapContains round.finish.transfer.receiver.receiving.resume.bitmap x = true) := by
  obtain ⟨hreported, -⟩ := h.step hp round.report
  obtain ⟨hread, -⟩ := hreported.leads hp round.between
  obtain ⟨hasked, -⟩ := hread.step hp round.hear
  have hproceeded := proceeded hp hasked round.proceeds
  have hfirst : repairsOf round.asked.sender.log ++ round.asks <+: repairsOf round.finish.transfer.sender.log := by
    have hall := repaired_proceeds round.proceeds round.unfailing
    rw [round.queued hp h, Sending.repaired, round.waiting_sent, round.queue_sent, List.append_nil,
      List.append_nil] at hall
    exact hall
  have hrepairs : round.asks <+: round.repairs := by
    obtain ⟨rest, hrest⟩ := hfirst
    rw [Round.repairs, ← hrest, List.append_assoc, List.drop_left]
    exact List.prefix_append _ _
  refine ⟨hrepairs, hproceeded, fun hleft x hx => ?_⟩
  have hlt : x < p.receiver.hello.chunks :=
    (mem_clearChunks.1 ((asks_first _ _).subset hx)).1
  have hsent : (x, true) ∈ (packetsOf round.finish.transfer.sender.log).drop
      (packetsOf round.asked.sender.log).length := by
    obtain ⟨rest, hrest⟩ := packetsOf_mono hproceeded.log
    have hmem := hrepairs.subset hx
    rw [Round.repairs, repairsOf, repairsOf, ← hrest, List.filter_append, List.map_append, List.drop_left,
      List.mem_map] at hmem
    obtain ⟨packet, hpacket, rfl⟩ := hmem
    obtain ⟨hpacket, hrepair⟩ := List.mem_filter.1 hpacket
    rw [← hrest, List.drop_left]
    have heq : (packet.1, true) = packet := Prod.ext rfl hrepair.symm
    exact heq ▸ hpacket
  obtain ⟨datagram, turn, hbuilt, hturn, hsocket⟩ := round.delivered hleft x hsent
  exact hproceeded.stored hleft turn datagram _ hturn hsocket (check_of_built hp hbuilt hlt)

/-- What a round leaves. -/
structure Round.Leaves (round : Round p network) : Prop where
  asks : round.asks <+: p.missing round.reported
  nonempty : round.asks ≠ []
  repairs : round.asks <+: round.repairs
  ended : round.finish.transfer.receiver.receiving.ended = true
  going : round.finish.left = false → Going p round.finish.transfer ∧
    (∀ x ∈ round.asks, bitmapContains round.finish.transfer.receiver.receiving.resume.bitmap x = true) ∧
    (p.missing round.finish.transfer).length + round.asks.length ≤ (p.missing round.start).length
  holds : round.finish.left = true → HoldsObject p.receiver.hello (round.finish.transfer.receiver.site.fs.view
    (round.finish.transfer.receiver.site.fs.home ++ p.receiver.destination.names))

theorem Round.leaves (round : Round p network) (hp : p.Agreed) (h : Going p round.start) : round.Leaves := by
  obtain ⟨hreported, hgrown⟩ := h.step hp round.report
  obtain ⟨hread, hlater⟩ := hreported.leads hp round.between
  obtain ⟨hasked, hheard⟩ := hread.step hp round.hear
  obtain ⟨hrepairs, hproceeded, hbrings⟩ := round.brings hp h
  have hasks : round.asks <+: p.missing round.reported := asks_first _ _
  refine ⟨hasks, asks_ne_nil (hreported.unfinished round.reportsAll.ended), hrepairs,
    hproceeded.ended (hheard.ended (hlater.ended round.reportsAll.ended)), fun hleft => ?_, hproceeded.holds⟩
  refine ⟨hproceeded.going hleft, hbrings hleft, ?_⟩
  -- nothing that is there is lost in the round
  have hmarks : ∀ x, bitmapContains round.reported.receiver.receiving.resume.bitmap x = true →
      bitmapContains round.finish.transfer.receiver.receiving.resume.bitmap x = true :=
    fun x hx => hproceeded.marks x (hheard.marks x (hlater.marks x hx))
  have hless := length_clearChunks_le hmarks hasks (hbrings hleft)
  exact hless.trans (hgrown.missing_le p)

theorem going_reaches (hp : p.Agreed) {t₀ : Transferring} (hstart : p.Starts t₀)
    (hleads : Leads p network (fun _ _ => True) t₀ t) : Going p t :=
  ((going_begun hp (hstart.begun hp)).leads hp hleads).1

/-- In every round the receiver asks for the first of the chunks that it misses: those of the first longest
runs, as many as the queue takes. The sender sends these again first, in this order. Afterwards they are
there, so that so many fewer chunks are missing, or the destination holds the object. -/
theorem round_brings_first_missing (p : UdpTransfer) (network : Network) (t₀ : Transferring)
    (round : Round p network) (hp : p.Agreed) (hstart : p.Starts t₀)
    (hleads : Leads p network (fun _ _ => True) t₀ round.start) :
    (∃ runs, Intervals.FirstRuns (fun x =>
        bitmapContains round.reported.receiver.receiving.resume.bitmap x = false)
        p.receiver.hello.chunks maxRangesPerReport 0 runs ∧
      round.asks = (sequencesOf runs).take maxQueuedRepairs) ∧
    round.asks <+: p.missing round.reported ∧ round.asks ≠ [] ∧ round.asks <+: round.repairs ∧
    (round.finish.left = false →
      (∀ x ∈ round.asks, bitmapContains round.finish.transfer.receiver.receiving.resume.bitmap x = true) ∧
      (p.missing round.finish.transfer).length + round.asks.length ≤ (p.missing round.start).length) ∧
    (round.finish.left = true → HoldsObject p.receiver.hello (round.finish.transfer.receiver.site.fs.view
      (round.finish.transfer.receiver.site.fs.home ++ p.receiver.destination.names))) := by
  have hleaves := round.leaves hp (going_reaches hp hstart hleads)
  exact ⟨⟨_, missingRanges_first _ _ _, rfl⟩, hleaves.asks, hleaves.nonempty, hleaves.repairs,
    fun hleft => (hleaves.going hleft).2, hleaves.holds⟩

/-- What holds after a number of rounds, if the receiver is still in its loop. -/
structure Lasts (p : UdpTransfer) (t : Transferring) (n : Nat) (t' : Transferring) : Prop where
  going : Going p t'
  count : n + (p.missing t').length ≤ (p.missing t).length
  ended : 0 < n → t'.receiver.receiving.ended = true

theorem lasts_of_rounds {n : Nat} {s : UdpSession} (hp : p.Agreed) (h : Going p t)
    (hrounds : Rounds p network t n s) :
    (s.left = false → Lasts p t n s.transfer) ∧
      (s.left = true → HoldsObject p.receiver.hello (s.transfer.receiver.site.fs.view
        (s.transfer.receiver.site.fs.home ++ p.receiver.destination.names))) := by
  induction hrounds with
  | start =>
    exact ⟨fun _ => ⟨h, (Nat.zero_add _).le, fun hlt => absurd hlt (Nat.lt_irrefl 0)⟩,
      fun hleft => Bool.noConfusion hleft⟩
  | @step n u v input _ hstep ih =>
    have hlasts := ih.1 rfl
    obtain ⟨hgoing, hgrows⟩ := hlasts.going.step hp hstep
    refine ⟨fun _ => ⟨hgoing, ?_, fun hlt => hgrows.ended (hlasts.ended hlt)⟩, fun hleft => Bool.noConfusion hleft⟩
    exact (Nat.add_le_add_left (hgrows.missing_le p) n).trans hlasts.count
  | @round n round _ ih =>
    have hlasts := ih.1 rfl
    have hleaves := round.leaves hp hlasts.going
    refine ⟨fun hleft => ?_, hleaves.holds⟩
    obtain ⟨hgoing, -, hfewer⟩ := hleaves.going hleft
    have hasks := List.length_pos_iff.2 hleaves.nonempty
    have hcount : n + (p.missing round.start).length ≤ (p.missing t).length := hlasts.count
    exact ⟨hgoing, by omega, fun _ => hleaves.ended⟩

/-- As many rounds as chunks are missing complete the transfer, whatever happens between the rounds. -/
theorem rounds_complete (p : UdpTransfer) (network : Network) (t₀ t : Transferring) (n : Nat) (s : UdpSession)
    (hp : p.Agreed) (hstart : p.Starts t₀) (hleads : Leads p network (fun _ _ => True) t₀ t)
    (hrounds : Rounds p network t n s) (hpos : 0 < n) (hmany : (p.missing t).length ≤ n) :
    s.left = true ∧ HoldsObject p.receiver.hello (s.transfer.receiver.site.fs.view
      (s.transfer.receiver.site.fs.home ++ p.receiver.destination.names)) := by
  obtain ⟨hlasts, hholds⟩ := lasts_of_rounds hp (going_reaches hp hstart hleads) hrounds
  rcases hleft : s.left with _ | _
  · -- nothing would be missing in a loop that has gone on
    have hlast := hlasts hleft
    have hcount := hlast.count
    have hnone : p.missing s.transfer = [] := List.length_eq_zero_iff.1 (by omega)
    exact absurd hnone (hlast.going.unfinished (hlast.ended hpos))
  · exact ⟨rfl, hholds hleft⟩

end

/-! ## A lost byte -/

section Example

/-- The only datagram has been lost, the first pass has ended, and the receiver hears of this and reports. -/
def lostTurn : Turn := { events := [.ended], reportClock := 200000000, now := 200000000, reportedClock := 200000000 }

def lostOutcome : Except AnyError Turned × Site :=
  (@receiveTurn constantDigest singleReceiver (partOf singleFile).names singleStart lostTurn).run siteMachine
    singleSite

def lostReceiving : Receiving :=
  match lostOutcome.1 with
  | .ok (.running s) => s
  | _ => singleStart

def lostReported : Transferring :=
  { singlePassed with receiver := ⟨lostReceiving, lostOutcome.2⟩, told := 1 }

def lostLine : Str := formatFeedbackReport lostReceiving.telemetry [(0, 0)]

def lostAsked : Transferring :=
  { lostReported with sender := lostReported.sender.hear singleTransfer.sender lostLine, heard := 4 }

/-- The sender has sent the byte again. -/
def lostRepaired : Transferring :=
  ((((lostAsked.acting singleTransfer).acting singleTransfer).acting singleTransfer).acting
    singleTransfer).acting singleTransfer

def repairTurn : Turn :=
  match @UdpTransfer.datagram constantDigest singleTransfer (0, true) with
  | .ok datagram => { socket := .ok (some datagram) }
  | .error _ => {}

def repairOutcome : Except AnyError Turned × Site :=
  (@receiveTurn constantDigest singleReceiver (partOf singleFile).names lostReceiving repairTurn).run siteMachine
    lostOutcome.2

def repairedReceiving : Receiving :=
  match repairOutcome.1 with
  | .ok (.completed s) => s
  | _ => singleStart

/-- The receiver has completed the object. -/
def lostCompleted : UdpSession := ⟨lostRepaired.atSite repairOutcome.2, true⟩

theorem leads_passed : @Leads constantDigest singleTransfer (fun _ _ _ _ => True) (fun _ _ => True) singleBegun
    singlePassed := by
  let _ := constantDigest
  refine (((Relation.ReflTransGen.single ⟨_, trivial, step_acting ?_⟩).tail ⟨_, trivial, step_acting ?_⟩).tail
    ⟨_, trivial, step_acting ?_⟩).tail ⟨_, trivial, step_acting ?_⟩ <;> decide +kernel

theorem step_lostTurn : @TransferStep constantDigest singleTransfer (fun _ _ _ _ => True) singlePassed
    (.turn lostTurn) lostReported := by
  have hrun : lostOutcome = (.ok (.running lostReceiving), lostOutcome.2) := Prod.ext (by decide +kernel) rfl
  let _ := constantDigest
  exact @TransferStep.turn _ _ _ singlePassed _ _ _ 1 .nothing
    ⟨[ascii "END"], by decide +kernel, rfl, .inl (by decide +kernel)⟩ (.of_run hrun)

theorem proceeds_lost : @Proceeds constantDigest singleTransfer (fun _ _ _ _ => True) lostAsked
    (List.replicate 5 (.send (.act (fun _ => default) fun _ => 0)) ++ [.turn repairTurn]) lostCompleted := by
  let _ := constantDigest
  have hrun : repairOutcome = (.ok (.completed repairedReceiving), repairOutcome.2) :=
    Prod.ext (by decide +kernel) rfl
  refine .step (step_acting ?_) (.step (step_acting ?_) (.step (step_acting ?_) (.step (step_acting ?_)
    (.step (step_acting ?_) (.completed (.of_run hrun)))))) <;> decide +kernel

theorem unfailing_lost : ∀ input ∈ List.replicate 5 (TransferInput.send (.act (fun _ => default) fun _ => 0)) ++
    [.turn repairTurn], ∀ i, input = .send i → i ≠ .fail := by
  intro input hinput i heq
  rcases List.mem_append.1 hinput with hinput | hinput
  · rw [List.eq_of_mem_replicate hinput] at heq
    cases heq
    exact SendInput.noConfusion
  · rw [List.mem_singleton.1 hinput] at heq
    cases heq

/-- The sender sends the byte again, and the object is complete. -/
def lostRound : @Round constantDigest singleTransfer fun _ _ _ _ => True :=
  letI := constantDigest
  { start := singlePassed
    turn := lostTurn
    reported := lostReported
    read := lostReported
    line := lostLine
    asked := lostAsked
    inputs := List.replicate 5 (.send (.act (fun _ => default) fun _ => 0)) ++ [.turn repairTurn]
    finish := lostCompleted
    report := step_lostTurn
    reportsAll := ⟨by decide +kernel, by decide +kernel, by decide +kernel⟩
    between := .refl
    next := by decide +kernel
    queue := by decide +kernel
    waiting := by decide +kernel
    cool := by decide +kernel
    hear := .hear (by decide +kernel)
    listening := by decide +kernel
    proceeds := proceeds_lost
    unfailing := unfailing_lost
    queue_sent := by decide +kernel
    waiting_sent := by decide +kernel
    delivered := fun h => Bool.noConfusion h }

/-- The rule, for the byte that has been lost. -/
theorem round_brings_first_missing_lost :
    (@Round.asks constantDigest singleTransfer _ lostRound) = [0] ∧
      (@Round.asks constantDigest singleTransfer _ lostRound) <+: @Round.repairs constantDigest _ _ lostRound := by
  refine ⟨by decide +kernel, ?_⟩
  exact (@round_brings_first_missing constantDigest singleTransfer _ singleBegun lostRound agreed_single
    starts_single leads_passed).2.2.2.1

/-- One round is enough for one byte. -/
theorem rounds_complete_lost : (singleTransfer.missing singlePassed).length = 1 ∧
    @HoldsObject constantDigest singleHello (repairOutcome.2.fs.view (repairOutcome.2.fs.home ++ singleFile.names)) := by
  have hround : @Rounds constantDigest singleTransfer (fun _ _ _ _ => True) singlePassed 1 lostCompleted :=
    @Rounds.round constantDigest _ _ singlePassed 0 lostRound (@Rounds.start constantDigest _ _ singlePassed)
  have hone : (singleTransfer.missing singlePassed).length = 1 := by decide +kernel
  exact ⟨hone, (@rounds_complete constantDigest singleTransfer _ singleBegun singlePassed 1 lostCompleted
    agreed_single starts_single leads_passed hround (by decide) hone.le).2⟩

end Example

end PacketTide
