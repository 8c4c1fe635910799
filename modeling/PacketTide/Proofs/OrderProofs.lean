import PacketTide.Proofs.AbortProofs
import PacketTide.Proofs.TransferProofs

/-!
# Loss is not taken for reordering

As long as datagrams keep their order, a chunk that is sent for the first time arrives after chunks
below it, or after chunks below the frontier that the receiver had at the start.
-/

namespace PacketTide

open Effects FileSystem FS Prog Text

variable {p : UdpTransfer} {t t' : Transferring} {frontier : Nat}

/-! ## Chunks that may have been asked for -/

/-- A chunk lies below a frontier, or the first pass has left it behind. -/
def Sending.Passed (frontier : Nat) (s : Sending) (x : Nat) : Prop :=
  x < frontier ∨ ∀ n, s.phase.position = some n → x < n

theorem Sending.Passed.of_le {s : Sending} {x y : Nat} (h : s.Passed frontier y) (hle : x ≤ y) :
    s.Passed frontier x := by
  rcases h with h | h
  · exact .inl (by omega)
  · exact .inr fun n hn => by
      have := h n hn
      omega

theorem Sending.Moves.passed {c : UdpSender} {s s' : Sending} (h : s.Moves c s') {x : Nat}
    (hx : s.Passed frontier x) : s'.Passed frontier x := by
  rcases hx with hx | hx
  · exact .inl hx
  refine .inr fun n hn => ?_
  cases h with
  | quiet hpackets hsaid hposition horiginal => exact hx n (hposition n hn)
  | skip hphase hheld hlt hpackets hsaid hphase' =>
    rw [hphase'] at hn
    cases hn
    have := hx _ (by rw [hphase]; rfl)
    omega
  | original hphase hpackets hsaid hphase' =>
    rw [hphase'] at hn
    cases hn
    have := hx _ (by rw [hphase]; rfl)
    omega
  | repair hmem hpackets hsaid hposition hphase' => exact hx n (hposition ▸ hn)
  | ended hphase hge hpackets hphase' =>
    rw [hphase'] at hn
    cases hn

/-- The sender asks for nothing, and has sent nothing, but what it has passed, and it has sent chunks for
the first time in order. -/
structure Sending.Ordered (frontier : Nat) (s : Sending) : Prop where
  queue : ∀ x ∈ s.repairs.queue, s.Passed frontier x
  waiting : ∀ x ∈ s.phase.waiting, s.Passed frontier x
  packets : ∀ a ∈ packetsOf s.log, s.Passed frontier a.1
  pairwise : (packetsOf s.log).Pairwise fun a b => b.2 = false → a.1 < frontier ∨ a.1 < b.1
  ended : ascii "END" ∈ saidOf s.log → s.phase.position = none

theorem Sending.Ordered.moves {c : UdpSender} {s s' : Sending} (h : s.Ordered frontier)
    (hmoves : s.Moves c s') (hasks : s.AsksNoMore s') : s'.Ordered frontier := by
  have hpassed : ∀ x, s.Passed frontier x → s'.Passed frontier x := fun x => hmoves.passed
  have hsame : packetsOf s'.log = packetsOf s.log → (∀ a ∈ packetsOf s'.log, s'.Passed frontier a.1) ∧
      (packetsOf s'.log).Pairwise fun a b => b.2 = false → a.1 < frontier ∨ a.1 < b.1 := by
    intro hpackets
    rw [hpackets]
    exact ⟨fun a ha => hpassed _ (h.packets a ha), h.pairwise⟩
  have hqueue : ∀ x ∈ s'.repairs.queue, s'.Passed frontier x := fun x hx =>
    hpassed x (h.queue x (hasks.queue x hx))
  have hwaiting : ∀ x ∈ s'.phase.waiting, s'.Passed frontier x := fun x hx =>
    hpassed x ((hasks.waiting x hx).elim (h.waiting x) (h.queue x))
  cases hmoves with
  | quiet hpackets hsaid hposition horiginal =>
    refine ⟨hqueue, hwaiting, (hsame hpackets).1, (hsame hpackets).2, fun hend => ?_⟩
    have hnone := h.ended (hsaid hend)
    rcases hn : s'.phase.position with _ | n
    · rfl
    · rw [hposition n hn] at hnone
      cases hnone
  | skip hphase hheld hlt hpackets hsaid hphase' =>
    refine ⟨hqueue, hwaiting, (hsame hpackets).1, (hsame hpackets).2, fun hend => ?_⟩
    have hnone := h.ended (hsaid hend)
    rw [hphase] at hnone
    cases hnone
  | @original n hphase hpackets hsaid hphase' =>
    refine ⟨hqueue, hwaiting, ?_, ?_, fun hend => ?_⟩
    · intro a ha
      rw [hpackets] at ha
      rcases List.mem_append.1 ha with ha | ha
      · exact hpassed _ (h.packets a ha)
      · rw [List.mem_singleton.1 ha]
        refine .inr fun m hm => ?_
        rw [hphase'] at hm
        cases hm
        exact Nat.lt_succ_self n
    · rw [hpackets, List.pairwise_append]
      refine ⟨h.pairwise, List.pairwise_singleton _ _, fun a ha b hb _ => ?_⟩
      rw [List.mem_singleton.1 hb]
      exact (h.packets a ha).imp_right fun hall => hall n (by rw [hphase]; rfl)
    · have hnone := h.ended (hsaid hend)
      rw [hphase] at hnone
      cases hnone
  | @repair x hmem hpackets hsaid hposition hphase' =>
    refine ⟨hqueue, hwaiting, ?_, ?_, fun hend => ?_⟩
    · intro a ha
      rw [hpackets] at ha
      rcases List.mem_append.1 ha with ha | ha
      · exact hpassed _ (h.packets a ha)
      · rw [List.mem_singleton.1 ha]
        exact hpassed _ (h.waiting x hmem)
    · rw [hpackets, List.pairwise_append]
      refine ⟨h.pairwise, List.pairwise_singleton _ _, fun a ha b hb hfirst => ?_⟩
      rw [List.mem_singleton.1 hb] at hfirst
      cases hfirst
    · rw [hposition]
      exact h.ended (hsaid hend)
  | ended hphase hge hpackets hphase' =>
    refine ⟨hqueue, hwaiting, (hsame hpackets).1, (hsame hpackets).2, fun _ => ?_⟩
    rw [hphase']
    rfl

theorem Sending.Ordered.hear {c : UdpSender} {s : Sending} (h : s.Ordered frontier) {line : Str}
    (hline : ∀ x, Requests c.chunks line x → s.Passed frontier x) :
    (s.hear c line).Ordered frontier ∧
      ∀ x, s.Passed frontier x → (s.hear c line).Passed frontier x := by
  obtain ⟨hlog, hphase, hqueue⟩ := s.hear_asks c line
  have hpassed : ∀ x, s.Passed frontier x → (s.hear c line).Passed frontier x := by
    intro x hx
    unfold Sending.Passed at hx ⊢
    rwa [hphase]
  refine ⟨⟨fun x hx => ?_, fun x hx => ?_, ?_, ?_, ?_⟩, hpassed⟩
  · exact hpassed x ((hqueue x hx).elim (h.queue x) (hline x))
  · exact hpassed x (h.waiting x (hphase ▸ hx))
  · rw [hlog]
    exact fun a ha => hpassed _ (h.packets a ha)
  · rw [hlog]
    exact h.pairwise
  · rw [hlog, hphase]
    exact h.ended

/-! ## Both parties -/

/-- What holds of a transfer while datagrams keep their order and no hole has been filled. -/
structure InOrder [Sha256] (p : UdpTransfer) (frontier : Nat) (t : Transferring) : Prop where
  settled : Settled p.receiver p.file t.receiver
  sender : t.sender.Ordered frontier
  highest : ∀ top, t.receiver.receiving.highest = some top → top < frontier ∨
    ∃ b ∈ (packetsOf t.sender.log).take t.arrived, b.1 = top
  history : ∀ e ∈ t.receiver.receiving.frontierHistory, ∀ x < e.2, t.sender.Passed frontier x
  lines : ∀ line ∈ t.receiver.site.control.sent.drop t.heard, ∀ x,
    Requests p.sender.chunks line x → t.sender.Passed frontier x
  ended : t.receiver.receiving.ended = true → ascii "END" ∈ saidOf t.sender.log
  reordering : t.receiver.receiving.reorderingObserved = false

theorem packetsOf_mono {log log' : List (ℚ × SendEvent)} (h : log <+: log') :
    packetsOf log <+: packetsOf log' := h.filterMap _

theorem saidOf_mono {log log' : List (ℚ × SendEvent)} (h : log <+: log') :
    saidOf log <+: saidOf log' := h.filterMap _

/-- A step of the sender. -/
theorem InOrder.sent [Sha256] {sender : Sending} {heard : Nat} (h : InOrder p frontier t)
    (hlog : t.sender.log <+: sender.log) (hordered : sender.Ordered frontier)
    (hpassed : ∀ x, t.sender.Passed frontier x → sender.Passed frontier x) (hheard : t.heard ≤ heard) :
    InOrder p frontier { t with sender, heard } where
  settled := h.settled
  sender := hordered
  highest top htop := by
    refine (h.highest top htop).imp_right fun ⟨b, hb, hbtop⟩ => ⟨b, ?_, hbtop⟩
    exact ((packetsOf_mono hlog).take _).subset hb
  history e he x hx := hpassed x (h.history e he x hx)
  lines line hline x hx := by
    refine hpassed x (h.lines line ?_ x hx)
    exact (List.drop_sublist_drop_left _ hheard).subset hline
  ended hended := (saidOf_mono hlog).subset (h.ended hended)
  reordering := h.reordering

/-- What the socket hands over keeps the order, unless it fills a hole. -/
theorem InOrder.took [Sha256] (hp : p.Agreed) (h : InOrder p frontier t) {content content' : List UInt8}
    {turn : Turn} {arrived : Nat} {s₁ : Receiving}
    (harrives : Arrives p .lossy t turn.socket arrived) (hfill : ¬FillsHole p frontier t (.turn turn))
    (htook : TookSocket p.receiver t.receiver.receiving content turn.socket s₁ content') :
    (∀ top, s₁.highest = some top → top < frontier ∨
      ∃ b ∈ (packetsOf t.sender.log).take arrived, b.1 = top) ∧
      s₁.frontierHistory = t.receiver.receiving.frontierHistory ∧
      s₁.ended = t.receiver.receiving.ended ∧ s₁.reorderingObserved = false := by
  rcases hsocket : turn.socket with e | _ | datagram
  · rw [hsocket] at htook
    cases htook
  · rw [hsocket] at htook harrives
    cases htook
    cases harrives
    exact ⟨h.highest, rfl, rfl, h.reordering⟩
  rw [hsocket] at htook harrives
  cases htook with
  | datagram htook =>
  cases harrives with
  | datagram harrives =>
  obtain ⟨k, hk, hsent, rfl⟩ := harrives
  have hkeep : ∀ top, t.receiver.receiving.highest = some top → top < frontier ∨
      ∃ b ∈ (packetsOf t.sender.log).take (k + 1), b.1 = top := by
    refine fun top htop => (h.highest top htop).imp_right fun ⟨b, hb, hbtop⟩ => ⟨b, ?_, hbtop⟩
    exact (List.take_subset_take_left _ (by omega)) hb
  have hraise : ∀ {packet : Packet}, checkPacket p.receiver.key p.receiver.hello.chunkLayout
        (received p.receiver.hello.chunkLayout datagram) = some packet →
      ∀ top, some (t.receiver.receiving.highest.elim packet.sequence fun old =>
        max old packet.sequence) = some top → top < frontier ∨
          ∃ b ∈ (packetsOf t.sender.log).take (k + 1), b.1 = top := by
    intro packet hcheck top htop
    have hpacket := packet_of_datagram hp hsent hcheck
    have hthis : ∃ b ∈ (packetsOf t.sender.log).take (k + 1), b.1 = packet.sequence :=
      ⟨_, List.mem_of_getElem? (by rw [List.getElem?_take_of_lt (Nat.lt_succ_self k)]; exact hpacket), rfl⟩
    rcases hold : t.receiver.receiving.highest with _ | old
    · rw [hold] at htop
      cases htop
      exact .inr hthis
    · rw [hold, Option.elim_some, Option.some.injEq] at htop
      rcases Nat.le_total old packet.sequence with hle | hle
      · rw [Nat.max_eq_right hle] at htop
        exact htop ▸ .inr hthis
      · rw [Nat.max_eq_left hle] at htop
        exact hkeep top (htop ▸ hold)
  cases htook with
  | invalid hcheck => exact ⟨hkeep, rfl, rfl, h.reordering⟩
  | duplicate hcheck hbit => exact ⟨hraise hcheck, rfl, rfl, h.reordering⟩
  | @accepted packet written s' hcheck hbit hwritten hs' =>
    have hflag : (t.receiver.receiving.stored packet).reorderingObserved = false := by
      show (t.receiver.receiving.reorderingObserved || (!packet.repair &&
        t.receiver.receiving.highest.any fun top => decide (packet.sequence < top))) = false
      rw [h.reordering, Bool.false_or, Bool.and_eq_false_iff]
      rcases hrepair : packet.repair with _ | _
      swap
      · exact .inl rfl
      refine .inr (Bool.eq_false_iff.2 fun hany => ?_)
      rw [Option.any_eq_true] at hany
      obtain ⟨top, htop, hlt⟩ := hany
      have hlt : packet.sequence < top := of_decide_eq_true hlt
      -- the chunk is an original, so it lies below the frontier of the start only
      have hbelow : packet.sequence < frontier := by
        rcases h.highest top htop with hfrontier | ⟨b, hb, rfl⟩
        · omega
        · have hpacket := packet_of_datagram hp hsent hcheck
          obtain ⟨i, hi, hbi⟩ := List.getElem_of_mem hb
          rw [List.length_take] at hi
          rw [List.getElem_take] at hbi
          obtain ⟨hk', hpacket⟩ := List.getElem?_eq_some_iff.1 hpacket
          have hpair := List.pairwise_iff_getElem.1 h.sender.pairwise i k (by omega) hk' (by omega)
          rw [hbi, hpacket] at hpair
          have hbefore := hpair hrepair
          omega
      exact hfill ⟨datagram, packet, hsocket, hcheck, hrepair, hbit, hbelow⟩
    rcases hs' with rfl | rfl
    · exact ⟨hraise hcheck, rfl, rfl, hflag⟩
    · exact ⟨hraise hcheck, rfl, rfl, hflag⟩

/-- A turn of the receiver. -/
theorem InOrder.turn [Sha256] (hp : p.Agreed) (h : InOrder p frontier t) {turn : Turn}
    {receiver : LoopState} {arrived told : Nat} (harrives : Arrives p .lossy t turn.socket arrived)
    (htells : Tells t turn.events told) (hfill : ¬FillsHole p frontier t (.turn turn))
    (hrun : Succeeds siteMachine siteRefuse (receiveTurn p.receiver p.file t.receiver.receiving turn)
      t.receiver.site (.running receiver.receiving) receiver.site) :
    InOrder p frontier { t with receiver, arrived, told } := by
  obtain ⟨s₁, hwent⟩ := went_of_settled hp h.settled hrun
  obtain ⟨content, content', -, -, htook⟩ := hwent.took
  obtain ⟨htop, hhistory, hendedEq, hflag⟩ := h.took hp harrives hfill htook
  obtain ⟨s₂, pongs, hattended, hcases⟩ := hwent.cases
  rw [← hattended.highest] at htop
  have hold : ∀ e ∈ s₂.frontierHistory, ∀ x < e.2, t.sender.Passed frontier x := by
    rw [hattended.history, hhistory]
    exact h.history
  have hpassed : ∀ top, s₂.highest = some top → ∀ x ≤ top, t.sender.Passed frontier x := by
    intro top htop' x hx
    rcases htop top htop' with hlt | ⟨b, hb, rfl⟩
    · exact .inl (by omega)
    · exact (h.sender.packets b (List.take_subset _ _ hb)).of_le hx
  have hended : s₂.ended = true → ascii "END" ∈ saidOf t.sender.log := fun hended =>
    (hattended.ended_iff.1 hended).elim (fun hended => h.ended (hendedEq ▸ hended))
      (mem_said_of_tells htells)
  have hpong : ∀ line ∈ List.replicate pongs (ascii "PONG"), ∀ x,
      Requests p.sender.chunks line x → t.sender.Passed frontier x := fun line hline x hx =>
    absurd (List.eq_of_mem_replicate hline ▸ hx) requests_pong
  have hlines : ∀ new, receiver.site.control.sent = t.receiver.site.control.sent ++ new →
      (∀ line ∈ new, ∀ x, Requests p.sender.chunks line x → t.sender.Passed frontier x) →
      ∀ line ∈ receiver.site.control.sent.drop t.heard, ∀ x,
        Requests p.sender.chunks line x → t.sender.Passed frontier x := by
    intro new hsent hnew line hmem x hx
    rw [hsent, List.drop_append] at hmem
    rcases List.mem_append.1 hmem with hmem | hmem
    · exact h.lines line hmem x hx
    · exact hnew line (List.drop_subset _ _ hmem) x hx
  rcases hcases with ⟨heq, hsent⟩ | ⟨-, heq, hsent⟩
  · refine ⟨hwent.settled, h.sender, ?_, ?_, hlines _ hsent hpong, ?_, ?_⟩
    · rw [heq]
      exact htop
    · rw [heq]
      exact hold
    · rw [heq]
      exact hended
    · rw [heq, hattended.reordering]
      exact hflag
  · refine ⟨hwent.settled, h.sender, ?_, ?_, hlines _ hsent ?_, ?_, ?_⟩
    · rw [heq]
      exact htop
    · rw [heq]
      intro e he x hx
      rcases history_report he with he | he
      · exact hold e he x hx
      · rcases htop' : s₂.highest with _ | top
        · rw [htop', Option.elim_none] at he
          omega
        · rw [htop', Option.elim_some] at he
          exact hpassed top htop' x (by omega)
    · intro line hline x hx
      rcases List.mem_append.1 hline with hline | hline
      · exact hpong line hline x hx
      rw [List.mem_singleton.1 hline] at hx
      obtain ⟨range, hrange, -, hge⟩ := requests_report hx
      have hlast : x < (s₂.reportEnd p.receiver.hello turn.now).2 :=
        Nat.lt_of_le_of_lt hge (missingRanges_spec hrange).2.1
      rcases hstate : s₂.ended with _ | _
      · rcases lt_of_lt_reportEnd hlast hstate with ⟨e, he, hlt⟩ | ⟨top, htop', hle⟩
        · exact hold e he x hlt
        · exact hpassed top htop' x hle
      · refine .inr fun n hn => ?_
        rw [h.sender.ended (hended hstate)] at hn
        cases hn
    · rw [heq]
      exact hended
    · rw [heq]
      exact hattended.reordering.trans hflag

theorem InOrder.step [Sha256] (hp : p.Agreed) (h : InOrder p frontier t) {input : TransferInput}
    (hfill : ¬FillsHole p frontier t input) (hstep : TransferStep p .lossy t input t') :
    InOrder p frontier t' := by
  cases hstep with
  | @hear line hline =>
    have hmem : line ∈ t.receiver.site.control.sent.drop t.heard := by
      rw [List.drop_eq_getElem?_toList_append, hline]
      exact List.mem_cons_self
    obtain ⟨hordered, hpassed⟩ := h.sender.hear (c := p.sender) (h.lines line hmem)
    exact h.sent (Sending.log_prefix_step p.sender t.sender (.hear line)) hordered hpassed
      (Nat.le_succ _)
  | @send input hinput hbuilt =>
    obtain ⟨hmoves, hasks⟩ := Sending.moves_step (c := p.sender) (s := t.sender) hinput
    exact h.sent (Sending.log_prefix_step p.sender t.sender input) (h.sender.moves hmoves hasks)
      (fun x => hmoves.passed) (Nat.le_refl _)
  | turn harrives htells hrun => exact h.turn hp harrives htells hfill hrun

theorem InOrder.leads [Sha256] (hp : p.Agreed) (h : InOrder p frontier t)
    (hleads : Leads p .lossy (fun t input => ¬FillsHole p frontier t input) t t') :
    InOrder p frontier t' := by
  induction hleads with
  | refl => exact h
  | tail _ hstep ih =>
    obtain ⟨input, hfill, hstep⟩ := hstep
    exact ih.step hp hfill hstep

/-! ## Filling a hole -/

/-- The highest chunk below a frontier is there, and it has been seen. -/
structure Receiving.Above (frontier : Nat) (s : Receiving) : Prop where
  held : ∀ n, frontier = n + 1 → bitmapContains s.resume.bitmap n = true
  seen : ∀ n, frontier = n + 1 → ∃ top, s.highest = some top ∧ n ≤ top

theorem Receiving.Above.of_eq {s s' : Receiving} (h : s.Above frontier)
    (hbitmap : s'.resume = s.resume) (hhighest : s'.highest = s.highest) : s'.Above frontier where
  held := by
    rw [hbitmap]
    exact h.held
  seen := by
    rw [hhighest]
    exact h.seen

theorem Receiving.Above.raiseHighest {s : Receiving} (h : s.Above frontier) (sequence : Nat) :
    (s.raiseHighest sequence).Above frontier where
  held := h.held
  seen n hn := by
    obtain ⟨top, htop, hle⟩ := h.seen n hn
    refine ⟨max top sequence, ?_, Nat.le_trans hle (Nat.le_max_left _ _)⟩
    show some (s.highest.elim sequence fun old => max old sequence) = _
    rw [htop]
    rfl

theorem Receiving.Above.stored {s : Receiving} (h : s.Above frontier) (packet : Packet) :
    (s.stored packet).Above frontier where
  held n hn := bitmapContains_insert_of (h.held n hn)
  seen := h.seen

theorem Receiving.Above.took [Sha256] {s s' : Receiving} {content content' : List UInt8}
    {socket : Except Errno (Option (List UInt8))} (h : s.Above frontier)
    (htook : TookSocket p.receiver s content socket s' content') : s'.Above frontier := by
  cases htook with
  | none => exact h
  | datagram htook =>
    cases htook with
    | invalid _ => exact h.of_eq rfl rfl
    | @duplicate packet _ _ =>
      have hcounted : (s.countValid packet.repair).countDuplicate.Above frontier := h.of_eq rfl rfl
      exact hcounted.raiseHighest _
    | @accepted packet written s' _ _ _ hs' =>
      have hs' : s'.Above frontier := by
        rcases hs' with rfl | rfl
        · exact h.stored packet
        · exact (h.stored packet).of_eq rfl rfl
      exact hs'.raiseHighest _

theorem Receiving.Above.turn [Sha256] {a b : LoopState} {turn : Turn} {s₁ : Receiving}
    (h : a.receiving.Above frontier) (hwent : Went p a turn s₁ b) : b.receiving.Above frontier := by
  obtain ⟨content, content', -, -, htook⟩ := hwent.took
  obtain ⟨s₂, pongs, hattended, hcases⟩ := hwent.cases
  have h₂ : s₂.Above frontier := (h.took htook).of_eq hattended.bitmap hattended.highest
  rcases hcases with ⟨heq, -⟩ | ⟨-, heq, -⟩
  · rw [heq]
    exact h₂
  · rw [heq]
    exact h₂.of_eq rfl rfl

/-- A datagram that fills a hole is taken for an overtaken one, and that is not forgotten. -/
theorem reordering_took [Sha256] {turn : Turn} {content content' : List UInt8} {s₁ : Receiving}
    (h : t.receiver.receiving.Above frontier)
    (hflag : t.receiver.receiving.reorderingObserved = true ∨ FillsHole p frontier t (.turn turn))
    (htook : TookSocket p.receiver t.receiver.receiving content turn.socket s₁ content') :
    s₁.reorderingObserved = true := by
  rcases hflag with hflag | ⟨datagram, packet, hsocket, hcheck, hrepair, hbit, hlt⟩
  · generalize turn.socket = socket at htook
    cases htook with
    | none => exact hflag
    | datagram htook =>
      have hstored : ∀ packet, (t.receiver.receiving.stored packet).reorderingObserved = true := by
        intro packet
        show (t.receiver.receiving.reorderingObserved || _) = true
        rw [hflag, Bool.true_or]
      cases htook with
      | invalid _ => exact hflag
      | duplicate _ _ => exact hflag
      | accepted _ _ _ hs' =>
        rcases hs' with rfl | rfl
        · exact hstored _
        · exact hstored _
  · have hflag : (t.receiver.receiving.stored packet).reorderingObserved = true := by
      show (t.receiver.receiving.reorderingObserved || (!packet.repair &&
        t.receiver.receiving.highest.any fun top => decide (packet.sequence < top))) = true
      obtain ⟨n, rfl⟩ : ∃ n, frontier = n + 1 := ⟨frontier - 1, by omega⟩
      obtain ⟨top, htop, hle⟩ := h.seen n rfl
      have hne : packet.sequence ≠ n := by
        rintro rfl
        rw [h.held _ rfl] at hbit
        cases hbit
      rw [hrepair, htop]
      simp only [Bool.not_false, Bool.true_and, Option.any_some, Bool.or_eq_true, decide_eq_true_eq]
      omega
    rw [hsocket] at htook
    cases htook with
    | datagram htook =>
    cases htook with
    | invalid hnone =>
      rw [hcheck] at hnone
      cases hnone
    | duplicate hsome hold =>
      rw [hcheck] at hsome
      cases hsome
      rw [hbit] at hold
      cases hold
    | accepted hsome _ _ hs' =>
      rw [hcheck] at hsome
      cases hsome
      rcases hs' with rfl | rfl
      · exact hflag
      · exact hflag

section Example

end Example

end PacketTide
