import PacketTide.Proofs.OrderProofs

/-!
# No phantom holes

Over a network that loses nothing, the chunks that have arrived are those that the sender has sent, in
order. So below a chunk that has been seen nothing is missing that was not missing below the frontier of
the start.
-/

namespace PacketTide

open Effects FileSystem FS Prog Text

variable {p : UdpTransfer} {t t' : Transferring} {frontier lines : Nat} {held : Bitmap}

/-- What holds of a transfer before the end of the first pass while nothing is lost and reports are whole;
the chunks that were held at the start are given. -/
structure Whole (p : UdpTransfer) (frontier lines : Nat) (t : Transferring) : Prop where
  queue : t.sender.repairs.queue = []
  waiting : t.sender.phase.waiting = []
  packets : ∀ b ∈ packetsOf t.sender.log, b.2 = false
  passing : ∃ n, Sending.Passing p.sender t.sender n
  bitmap : ∀ x, bitmapContains t.receiver.receiving.resume.bitmap x = true ↔
    bitmapContains p.sender.durableChunks x = true ∨
      ∃ b ∈ (packetsOf t.sender.log).take t.arrived, b.1 = x
  highest : ∀ top, t.receiver.receiving.highest = some top → top < frontier ∨
    ∃ b ∈ (packetsOf t.sender.log).take t.arrived, b.1 = top
  history : ∀ e ∈ t.receiver.receiving.frontierHistory, ∀ x < e.2, x < frontier ∨
    ∃ b ∈ (packetsOf t.sender.log).take t.arrived, x ≤ b.1
  duplicates : t.receiver.receiving.telemetry.duplicateDatagrams = 0
  heard : lines ≤ t.heard
  reports : ∀ line ∈ t.receiver.site.control.sent.drop lines, line = ascii "PONG" ∨
    ∃ telemetry, line = formatFeedbackReport telemetry [] ∧ telemetry.duplicateDatagrams = 0

/-- Where nothing was sent again, the datagrams are those of the first pass. -/
theorem packets_of_passing {c : UdpSender} {s : Sending} {n : Nat} (h : Sending.Passing c s n)
    (hfirst : ∀ b ∈ packetsOf s.log, b.2 = false) :
    (packetsOf s.log).map Prod.fst =
      (List.range n).filter fun x => !bitmapContains c.durableChunks x := by
  rw [← h.originals, Sending.originalsOf, List.filter_eq_self.2 fun b hb => by rw [hfirst b hb]; rfl]

/-- The numbers of the datagrams ascend. -/
theorem ascending_of_passing {c : UdpSender} {s : Sending} {n : Nat} (h : Sending.Passing c s n)
    (hfirst : ∀ b ∈ packetsOf s.log, b.2 = false) :
    ((packetsOf s.log).map Prod.fst).Pairwise (· < ·) := by
  rw [packets_of_passing h hfirst]
  exact List.pairwise_lt_range.filter _

/-- What is missing below a chunk that has arrived was not sent. -/
theorem Whole.contains_of_le (h : Whole p frontier lines t) {k x : Nat} {b : Nat × Bool}
    (hb : b ∈ (packetsOf t.sender.log).take k) (hle : x ≤ b.1) :
    bitmapContains p.sender.durableChunks x = true ∨
      ∃ a ∈ (packetsOf t.sender.log).take k, a.1 = x := by
  rcases hheld : bitmapContains p.sender.durableChunks x with _ | _
  swap
  · exact .inl rfl
  obtain ⟨n, hpassing⟩ := h.passing
  have hascending := ascending_of_passing hpassing h.packets
  obtain ⟨j, hj, hbj⟩ := List.getElem_of_mem hb
  rw [List.length_take] at hj
  rw [List.getElem_take] at hbj
  have hmem : x ∈ (packetsOf t.sender.log).map Prod.fst := by
    have hbn : b.1 ∈ (packetsOf t.sender.log).map Prod.fst :=
      List.mem_map_of_mem (List.take_subset _ _ hb)
    rw [packets_of_passing hpassing h.packets, List.mem_filter, List.mem_range] at hbn ⊢
    exact ⟨by omega, by rw [hheld]; rfl⟩
  obtain ⟨a, ha, rfl⟩ := List.mem_map.1 hmem
  obtain ⟨i, hi, hai⟩ := List.getElem_of_mem ha
  refine .inr ⟨a, ?_, rfl⟩
  have hij : i ≤ j := by
    by_contra hlt
    have hpair := List.pairwise_iff_getElem.1 hascending j i (by rw [List.length_map]; omega)
      (by rw [List.length_map]; omega) (by omega)
    rw [List.getElem_map, List.getElem_map, hbj, hai] at hpair
    omega
  rw [← hai]
  exact List.mem_of_getElem? (i := i) (by rw [List.getElem?_take_of_lt (by omega), List.getElem?_eq_getElem hi])

/-! ## Steps of the sender -/

theorem Whole.sent (h : Whole p frontier lines t) {sender : Sending} {heard : Nat}
    (hlog : t.sender.log <+: sender.log) (hqueue : sender.repairs.queue = [])
    (hwaiting : sender.phase.waiting = []) (hfirst : ∀ b ∈ packetsOf sender.log, b.2 = false)
    (hpassing : ∃ n, Sending.Passing p.sender sender n)
    (harrived : t.arrived ≤ (packetsOf t.sender.log).length) (hheard : t.heard ≤ heard) :
    Whole p frontier lines { t with sender, heard } := by
  have htake : (packetsOf sender.log).take t.arrived = (packetsOf t.sender.log).take t.arrived := by
    obtain ⟨rest, hrest⟩ := packetsOf_mono hlog
    rw [← hrest, List.take_append_of_le_length harrived]
  refine ⟨hqueue, hwaiting, hfirst, hpassing, ?_, ?_, ?_, h.duplicates, h.heard.trans hheard, h.reports⟩
  · dsimp only
    rw [htake]
    exact h.bitmap
  · dsimp only
    rw [htake]
    exact h.highest
  · dsimp only
    rw [htake]
    exact h.history

theorem Whole.moves (h : Whole p frontier lines t) {sender : Sending}
    (hlog : t.sender.log <+: sender.log) (hmoves : t.sender.Moves p.sender sender)
    (hasks : t.sender.AsksNoMore sender) (harrived : t.arrived ≤ (packetsOf t.sender.log).length) :
    Whole p frontier lines { t with sender } := by
  obtain ⟨n, hpassing⟩ := h.passing
  have hqueue : sender.repairs.queue = [] := List.eq_nil_iff_forall_not_mem.2 fun x hx => by
    have hold := hasks.queue x hx
    rw [h.queue] at hold
    cases hold
  have hwaiting : sender.phase.waiting = [] := List.eq_nil_iff_forall_not_mem.2 fun x hx => by
    have hold := hasks.waiting x hx
    rw [h.queue, h.waiting] at hold
    rcases hold with hold | hold <;> cases hold
  refine h.sent hlog hqueue hwaiting ?_ (hpassing.moves hmoves) harrived (Nat.le_refl _)
  cases hmoves with
  | quiet hpackets =>
    rw [hpackets]
    exact h.packets
  | skip _ _ _ hpackets =>
    rw [hpackets]
    exact h.packets
  | original _ hpackets =>
    rw [hpackets]
    intro b hb
    rcases List.mem_append.1 hb with hb | hb
    · exact h.packets b hb
    · rw [List.mem_singleton.1 hb]
  | repair hmem =>
    rw [h.waiting] at hmem
    cases hmem
  | ended _ _ hpackets =>
    rw [hpackets]
    exact h.packets

theorem Whole.hear (h : Whole p frontier lines t) {line : Str}
    (hline : t.receiver.site.control.sent[t.heard]? = some line)
    (harrived : t.arrived ≤ (packetsOf t.sender.log).length) :
    Whole p frontier lines { t with sender := t.sender.hear p.sender line, heard := t.heard + 1 } := by
  obtain ⟨hlog, hphase, hqueue⟩ := t.sender.hear_asks p.sender line
  obtain ⟨n, hpassing⟩ := h.passing
  have hmem : line ∈ t.receiver.site.control.sent.drop lines := by
    have hdrop := List.drop_sublist_drop_left t.receiver.site.control.sent h.heard
    refine hdrop.subset ?_
    rw [List.drop_eq_getElem?_toList_append, hline]
    exact List.mem_cons_self
  have hnone : ∀ x, ¬Requests p.sender.chunks line x := by
    intro x hx
    rcases h.reports line hmem with rfl | ⟨telemetry, rfl, -⟩
    · exact requests_pong hx
    · obtain ⟨r, hr, -⟩ := requests_report hx
      cases hr
  refine h.sent (Sending.log_prefix_step p.sender t.sender (.hear line)) ?_ ?_ ?_ ⟨n, hpassing.hear line⟩ harrived (Nat.le_succ _)
  · refine List.eq_nil_iff_forall_not_mem.2 fun x hx => ?_
    rcases hqueue x hx with hold | hnew
    · rw [h.queue] at hold
      cases hold
    · exact hnone x hnew
  · rw [hphase]
    exact h.waiting
  · rw [hlog]
    exact h.packets

/-! ## Turns of the receiver -/

/-- What the socket hands over in a turn. -/
theorem Whole.took [Sha256] (hp : p.Agreed) (h : Whole p frontier lines t)
    {content content' : List UInt8} {turn : Turn} {arrived : Nat} {s₁ : Receiving}
    (hsound : t.receiver.receiving.Sound p.receiver content)
    (harrives : Arrives p .clean t turn.socket arrived)
    (htook : TookSocket p.receiver t.receiver.receiving content turn.socket s₁ content') :
    (∀ x, bitmapContains s₁.resume.bitmap x = true ↔
        bitmapContains p.sender.durableChunks x = true ∨
          ∃ b ∈ (packetsOf t.sender.log).take arrived, b.1 = x) ∧
      (∀ top, s₁.highest = some top → top < frontier ∨
        ∃ b ∈ (packetsOf t.sender.log).take arrived, b.1 = top) ∧
      s₁.telemetry.duplicateDatagrams = 0 ∧ t.arrived ≤ arrived ∧
      (∀ x, Brings p turn x → bitmapContains s₁.resume.bitmap x = true) := by
  rcases hsocket : turn.socket with e | _ | datagram
  · rw [hsocket] at htook
    cases htook
  · rw [hsocket] at htook harrives
    cases htook
    cases harrives
    refine ⟨h.bitmap, h.highest, h.duplicates, Nat.le_refl _, ?_⟩
    rintro x ⟨datagram, packet, hbrings, -⟩
    rw [hsocket] at hbrings
    cases hbrings
  rw [hsocket] at htook harrives
  cases htook with
  | datagram htook =>
  cases harrives with
  | datagram harrives =>
  obtain ⟨hsent, rfl⟩ := harrives
  obtain ⟨b, hb, hcheck⟩ := check_of_datagram hp hsent
  obtain ⟨n, hpassing⟩ := h.passing
  obtain ⟨hk, hbk⟩ := List.getElem?_eq_some_iff.1 hb
  have hbmem : b.1 ∈ (packetsOf t.sender.log).map Prod.fst :=
    List.mem_map_of_mem (hbk ▸ List.getElem_mem hk)
  have hascending := ascending_of_passing hpassing h.packets
  rw [packets_of_passing hpassing h.packets, List.mem_filter, List.mem_range] at hbmem
  obtain ⟨hlt, hmissing⟩ := hbmem
  have hchunk : ¬p.receiver.hello.chunks ≤ b.1 := by
    have hle := hpassing.le_chunks
    rw [hp.chunks] at hle
    omega
  rw [if_neg hchunk] at hcheck
  have htake : (packetsOf t.sender.log).take (t.arrived + 1) =
      (packetsOf t.sender.log).take t.arrived ++ [b] := by
    rw [List.take_add_one, hb]
    rfl
  -- the chunk has not arrived before
  have hnew : bitmapContains t.receiver.receiving.resume.bitmap b.1 = false := by
    rw [Bool.eq_false_iff]
    intro hset
    rcases (h.bitmap b.1).1 hset with hheld | ⟨a, ha, hab⟩
    · rw [hheld] at hmissing
      cases hmissing
    · obtain ⟨i, hi, hai⟩ := List.getElem_of_mem ha
      rw [List.length_take] at hi
      rw [List.getElem_take] at hai
      have hpair := List.pairwise_iff_getElem.1 hascending i t.arrived
        (by rw [List.length_map]; omega) (by rw [List.length_map]; exact hk) (by omega)
      rw [List.getElem_map, List.getElem_map, hai, hbk, hab] at hpair
      omega
  have hplace := hsound.bitmap.place_lt (Nat.not_le.1 hchunk)
  cases htook with
  | invalid hnone =>
    rw [hcheck] at hnone
    cases hnone
  | duplicate hsome hold =>
    rw [hcheck] at hsome
    cases hsome
    rw [hnew] at hold
    cases hold
  | @accepted packet written s' hsome hbit hwritten hs' =>
    rw [hcheck] at hsome
    have hpacket : packet.sequence = b.1 := by rw [← Option.some.inj hsome]
    have hstored : s'.resume.bitmap = bitmapInsert t.receiver.receiving.resume.bitmap b.1 ∧
        s'.highest = t.receiver.receiving.highest ∧ s'.telemetry.duplicateDatagrams = 0 := by
      rw [← hpacket]
      rcases hs' with rfl | rfl
      · exact ⟨rfl, rfl, h.duplicates⟩
      · exact ⟨rfl, rfl, h.duplicates⟩
    have hbitmap : ∀ x, bitmapContains (s'.raiseHighest packet.sequence).resume.bitmap x = true ↔
        bitmapContains p.sender.durableChunks x = true ∨
          ∃ a ∈ (packetsOf t.sender.log).take (t.arrived + 1), a.1 = x := by
      intro x
      show bitmapContains s'.resume.bitmap x = true ↔ _
      rw [hstored.1, bitmapContains_bitmapInsert hplace, Bool.or_eq_true, decide_eq_true_eq, h.bitmap x,
        htake]
      constructor
      · rintro (rfl | hheld | ⟨a, ha, hax⟩)
        · exact .inr ⟨b, List.mem_append_right _ List.mem_cons_self, rfl⟩
        · exact .inl hheld
        · exact .inr ⟨a, List.mem_append_left _ ha, hax⟩
      · rintro (hheld | ⟨a, ha, hax⟩)
        · exact .inr (.inl hheld)
        · rcases List.mem_append.1 ha with ha | ha
          · exact .inr (.inr ⟨a, ha, hax⟩)
          · rw [List.mem_singleton.1 ha] at hax
            exact .inl hax.symm
    refine ⟨hbitmap, fun top htop => ?_, hstored.2.2, Nat.le_succ _, ?_⟩
    · change some (s'.highest.elim packet.sequence fun old => max old packet.sequence) = some top at htop
      rw [hstored.2.1, hpacket] at htop
      rw [htake]
      rcases hold : t.receiver.receiving.highest with _ | old
      · rw [hold] at htop
        cases htop
        exact .inr ⟨b, List.mem_append_right _ List.mem_cons_self, rfl⟩
      · rw [hold, Option.elim_some, Option.some.injEq] at htop
        rcases Nat.le_total old b.1 with hle | hle
        · rw [Nat.max_eq_right hle] at htop
          exact .inr ⟨b, List.mem_append_right _ List.mem_cons_self, htop⟩
        · rw [Nat.max_eq_left hle] at htop
          exact (h.highest top (htop ▸ hold)).imp_right fun ⟨a, ha, hatop⟩ =>
            ⟨a, List.mem_append_left _ ha, hatop⟩
    · rintro x ⟨datagram', packet', hbrings, hcheck', rfl⟩
      rw [hsocket] at hbrings
      cases hbrings
      rw [hcheck] at hcheck'
      refine (hbitmap _).2 (.inr ⟨b, ?_, ?_⟩)
      · rw [htake]
        exact List.mem_append_right _ List.mem_cons_self
      · rw [← Option.some.inj hcheck']

/-- A turn after which the first pass has not ended. -/
theorem Whole.turn [Sha256] (hp : p.Agreed) (h : Whole p frontier lines t) {turn : Turn}
    {receiver : LoopState} {arrived told : Nat} (harrives : Arrives p .clean t turn.socket arrived)
    (hsettled : Settled p.receiver p.file t.receiver)
    (habove : t.receiver.receiving.Above frontier)
    (hheard : lines ≤ t.receiver.site.control.sent.length)
    (hwhole : ReportsWhole p frontier t (.turn turn)) (hended : receiver.receiving.ended = false)
    (hrun : Succeeds siteMachine siteRefuse (receiveTurn p.receiver p.file t.receiver.receiving turn)
      t.receiver.site (.running receiver.receiving) receiver.site) :
    Whole p frontier lines { t with receiver, arrived, told } := by
  have hb := hp.invoked.able.bounded
  obtain ⟨s₁, hwent⟩ := went_of_settled hp hsettled hrun
  obtain ⟨content, content', hsound, -, htook⟩ := hwent.took
  obtain ⟨hbitmap, hhighest, hduplicates, harrived, hbrings⟩ := h.took hp hsound harrives htook
  obtain ⟨hhistory, hlast, hendedEq⟩ := htook.reports
  obtain ⟨s₂, pongs, hattended, hcases⟩ := hwent.cases
  have hgrow : ∀ b ∈ (packetsOf t.sender.log).take t.arrived, b ∈ (packetsOf t.sender.log).take arrived :=
    fun b hb => List.take_subset_take_left _ harrived hb
  have hold : ∀ e ∈ s₂.frontierHistory, ∀ x < e.2, x < frontier ∨
      ∃ b ∈ (packetsOf t.sender.log).take arrived, x ≤ b.1 := by
    rw [hattended.history, hhistory]
    exact fun e he x hx => (h.history e he x hx).imp_right fun ⟨b, hb, hle⟩ => ⟨b, hgrow b hb, hle⟩
  have htop : ∀ top, s₂.highest = some top → ∀ x ≤ top, x < frontier ∨
      ∃ b ∈ (packetsOf t.sender.log).take arrived, x ≤ b.1 := by
    intro top htop x hx
    rw [hattended.highest] at htop
    rcases hhighest top htop with hlt | ⟨b, hb, rfl⟩
    · exact .inl (by omega)
    · exact .inr ⟨b, hb, hx⟩
  rw [← hattended.bitmap] at hbitmap
  rw [← hattended.highest] at hhighest
  have hdup : s₂.telemetry.duplicateDatagrams = 0 := by
    rw [hattended.telemetry]
    exact hduplicates
  have hpong : ∀ line ∈ List.replicate pongs (ascii "PONG"), line = ascii "PONG" ∨
      ∃ telemetry, line = formatFeedbackReport telemetry [] ∧ telemetry.duplicateDatagrams = 0 :=
    fun line hline => .inl (List.eq_of_mem_replicate hline)
  have hlines : ∀ new, receiver.site.control.sent = t.receiver.site.control.sent ++ new →
      (∀ line ∈ new, line = ascii "PONG" ∨
        ∃ telemetry, line = formatFeedbackReport telemetry [] ∧ telemetry.duplicateDatagrams = 0) →
      ∀ line ∈ receiver.site.control.sent.drop lines, line = ascii "PONG" ∨
        ∃ telemetry, line = formatFeedbackReport telemetry [] ∧ telemetry.duplicateDatagrams = 0 := by
    intro new hsent hnew line hmem
    rw [hsent, List.drop_append_of_le_length hheard] at hmem
    exact (List.mem_append.1 hmem).elim (h.reports line) (hnew line)
  rcases hcases with ⟨heq, hsent⟩ | ⟨hdue, heq, hsent⟩
  · refine ⟨h.queue, h.waiting, h.packets, h.passing, ?_, ?_, ?_, ?_, h.heard, hlines _ hsent hpong⟩
    · rw [heq]
      exact hbitmap
    · rw [heq]
      exact hhighest
    · rw [heq]
      exact hold
    · rw [heq]
      exact hdup
  · have hended₂ : s₂.ended = false := by
      rw [heq] at hended
      exact hended
    have hnotended : s₁.ended = false ∧ .ended ∉ turn.events := by
      have hnot := (not_congr hattended.ended_iff).1 (by rw [hended₂]; decide)
      exact ⟨Bool.eq_false_iff.2 fun hs => hnot (.inl hs), fun hmem => hnot (.inr hmem)⟩
    -- the report names nothing
    have hnone : (s₂.report p.receiver.hello turn).2 = [] := by
      refine List.eq_nil_iff_forall_not_mem.2 fun range hrange => ?_
      obtain ⟨hle, hlt, hmissing⟩ := missingRanges_spec hrange
      rw [ReportDue, hattended.lastReport, hlast] at hdue
      rcases hwhole (hendedEq ▸ hnotended.1) hnotended.2 hdue with hwhole | ⟨hflag, hyoung⟩
      swap
      · -- within the grace
        have hflag₂ : s₂.reorderingObserved = true :=
          hattended.reordering.trans (reordering_took habove hflag htook)
        have hgrace : s₂.activeGrace p.receiver.hello = millis p.receiver.hello.repairGrace := if_pos hflag₂
        have hpositive : 0 < millis p.receiver.hello.repairGrace := by
          have hinterval := hb.reportInterval_ge
          have hlong := hb.repairGrace_ge
          unfold minReportInterval at hinterval
          unfold millis
          omega
        have hzero : (s₂.reportEnd p.receiver.hello turn.now).2 = 0 := by
          unfold Receiving.reportEnd
          rw [hended₂, hgrace, hattended.history, hhistory]
          exact matureFrontier_graced hpositive hyoung
        change range.2 < (s₂.reportEnd p.receiver.hello turn.now).2 at hlt
        omega
      have hfirst := hmissing range.1 (Nat.le_refl _) hle
      have hwhere : range.1 < frontier ∨
          ∃ b ∈ (packetsOf t.sender.log).take arrived, range.1 ≤ b.1 := by
        rcases lt_of_lt_reportEnd (Nat.lt_of_le_of_lt hle hlt) hended₂ with ⟨e, he, hlt⟩ | ⟨top, htop', hle'⟩
        · exact hold e he _ hlt
        · exact htop top htop' _ hle'
      have hset : bitmapContains s₂.resume.bitmap range.1 = true := by
        rcases hwhere with hbelow | ⟨b, hb, hle'⟩
        · rcases hwhole range.1 hbelow with hset | hbring
          · exact (hbitmap _).2 (((h.bitmap _).1 hset).imp_right fun ⟨a, ha, hax⟩ => ⟨a, hgrow a ha, hax⟩)
          · rw [hattended.bitmap]
            exact hbrings _ hbring
        · exact (hbitmap _).2 (h.contains_of_le hb hle')
      rw [hset] at hfirst
      cases hfirst
    refine ⟨h.queue, h.waiting, h.packets, h.passing, ?_, ?_, ?_, ?_, h.heard, hlines _ hsent ?_⟩
    · rw [heq]
      exact hbitmap
    · rw [heq]
      exact hhighest
    · rw [heq]
      intro e he x hx
      rcases history_report he with he | he
      · exact hold e he x hx
      · rcases htop' : s₂.highest with _ | top
        · rw [htop', Option.elim_none] at he
          omega
        · rw [htop', Option.elim_some] at he
          exact htop top htop' x (by omega)
    · rw [heq]
      exact hdup
    · intro line hline
      rcases List.mem_append.1 hline with hline | hline
      · exact hpong line hline
      · rw [List.mem_singleton.1 hline, hnone]
        exact .inr ⟨_, rfl, hdup⟩

/-! ## Runs -/

/-- The same along a run; nothing is promised after the end of the first pass. -/
structure Intact [Sha256] (p : UdpTransfer) (frontier lines : Nat) (t : Transferring) : Prop where
  settled : Settled p.receiver p.file t.receiver
  above : t.receiver.receiving.Above frontier
  arrived : t.arrived ≤ (packetsOf t.sender.log).length
  lines_le : lines ≤ t.receiver.site.control.sent.length
  whole : t.receiver.receiving.ended = false → Whole p frontier lines t

theorem Intact.step [Sha256] (hp : p.Agreed) (h : Intact p frontier lines t) {input : TransferInput}
    (hwhole : ReportsWhole p frontier t input) (hstep : TransferStep p .clean t input t') :
    Intact p frontier lines t' := by
  have hgrow : ∀ input, t.arrived ≤ (packetsOf (t.sender.step p.sender input).log).length :=
    fun input => h.arrived.trans (packetsOf_mono (Sending.log_prefix_step p.sender t.sender input)).length_le
  cases hstep with
  | @hear line hline =>
    exact ⟨h.settled, h.above, hgrow (.hear line), h.lines_le, fun hended => (h.whole hended).hear hline h.arrived⟩
  | @send input hinput hbuilt =>
    obtain ⟨hmoves, hasks⟩ := Sending.moves_step (c := p.sender) (s := t.sender) hinput
    exact ⟨h.settled, h.above, hgrow input, h.lines_le, fun hended => (h.whole hended).moves
      (Sending.log_prefix_step p.sender t.sender input) hmoves hasks h.arrived⟩
  | @turn turn receiver arrived told harrives htells hrun =>
    obtain ⟨s₁, hwent⟩ := went_of_settled hp h.settled hrun
    obtain ⟨content, content', -, -, htook⟩ := hwent.took
    obtain ⟨s₂, pongs, hattended, hcases⟩ := hwent.cases
    refine ⟨hwent.settled, h.above.turn hwent, ?_, ?_, fun hended => ?_⟩
    · show arrived ≤ (packetsOf t.sender.log).length
      generalize turn.socket = socket at harrives
      cases harrives with
      | nothing => exact h.arrived
      | failure _ => exact h.arrived
      | datagram harrives =>
        obtain ⟨hsent, rfl⟩ := harrives
        obtain ⟨b, hb, -⟩ := check_of_datagram hp hsent
        exact (List.getElem?_eq_some_iff.1 hb).1
    · have hle : t.receiver.site.control.sent.length ≤ receiver.site.control.sent.length := by
        rcases hcases with ⟨-, hsent⟩ | ⟨-, -, hsent⟩
        · rw [hsent, List.length_append]
          exact Nat.le_add_right _ _
        · rw [hsent, List.length_append]
          exact Nat.le_add_right _ _
      exact h.lines_le.trans hle
    · have hended' : receiver.receiving.ended = false := hended
      have hbefore : t.receiver.receiving.ended = false := by
        have hs₂ : s₂.ended = false := by
          rcases hcases with ⟨heq, -⟩ | ⟨-, heq, -⟩
          · rw [heq] at hended'
            exact hended'
          · rw [heq] at hended'
            exact hended'
        have hnot := (not_congr hattended.ended_iff).1 (by rw [hs₂]; decide)
        rw [← htook.reports.2.2]
        exact Bool.eq_false_iff.2 fun hs => hnot (.inl hs)
      exact (h.whole hbefore).turn hp harrives h.settled h.above h.lines_le hwhole hended hrun

section Example

end Example

end PacketTide
