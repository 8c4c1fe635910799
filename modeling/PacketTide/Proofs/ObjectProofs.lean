import PacketTide.ObjectRuns
import PacketTide.Proofs.TransferProofs

/-!
# The object that arrives is the object that was sent

Whatever the network does with the datagrams of a session, the chunks that are marked as received hold the
bytes of the object.
-/

namespace PacketTide

open Effects FileSystem FS Prog Text

section

variable {r : UdpReceiver} {file : Loc} {source content content' datagram : List UInt8} {s s' : Receiving}
  {a b : LoopState} {packet : Packet}

/-! ## What is accepted -/

/-- Bytes without a valid tag are rejected, also when the socket cuts them. -/
theorem checkPacket_untagged [Sha256] {key : Hash} {layout : ChunkLayout} (h : Untagged key datagram) :
    checkPacket key layout (received layout datagram) = none := by
  unfold checkPacket
  split
  · rfl
  split
  · rfl
  rcases ((received layout datagram)[9]?).bind packetKind with _ | repair
  · rfl
  dsimp only
  split
  · rfl
  next hbounds =>
    obtain ⟨-, hrest⟩ := not_or.1 hbounds
    obtain ⟨hle, hlength⟩ := not_or.1 hrest
    have hlength := not_not.1 hlength
    -- a datagram that is too long would have been rejected by its length
    have hwhole : received layout datagram = datagram := by
      rw [received, List.length_take] at hlength
      rw [received] at hle ⊢
      refine List.take_of_length_le ?_
      omega
    rw [hwhole]
    exact if_pos h

/-- What is accepted of a session's datagrams is a chunk of the object. -/
theorem payload_of_session [Sha256] (hb : r.hello.Bounded) (hlength : source.length = r.hello.size)
    (hdatagram : SessionDatagram r source datagram ∨ Untagged r.key datagram)
    (hcheck : checkPacket r.key r.hello.chunkLayout (received r.hello.chunkLayout datagram) = some packet) :
    packet.payload = r.hello.chunkLayout.payload source packet.sequence := by
  rcases hdatagram with ⟨sequence, repair, hbuilt⟩ | huntagged
  · have hlimit : maxUdpPayloadBytes < 2 ^ 16 := by decide
    have hread := @checkPacket_buildPacket _ r.hello.chunkLayout _ _ _ _ _
      ⟨hb.payloadBytes_pos, Nat.lt_of_le_of_lt hb.payloadBytes_le hlimit⟩ hbuilt
    rw [hcheck] at hread
    split at hread
    · cases hread
    · cases hread
      rfl
  · rw [checkPacket_untagged huntagged] at hcheck
    cases hcheck

/-! ## A datagram -/

/-- The chunks of a file after one of them has been written with the bytes of the object. -/
theorem agree_splice {i sequence : Nat} (hb : r.hello.Bounded) (hlength : source.length = r.hello.size)
    (hsize : content.length = r.hello.size) (hsequence : sequence < r.hello.chunks)
    (hagree : i ≠ sequence → r.hello.chunkLayout.Agree i content source) :
    r.hello.chunkLayout.Agree i
      (splice (sequence * r.hello.payloadBytes) (r.hello.chunkLayout.payload source sequence) content) source := by
  have hoffset := hb.offset_lt hsequence
  have hpayload : (r.hello.chunkLayout.payload source sequence).length =
      min (r.hello.size - sequence * r.hello.payloadBytes) r.hello.payloadBytes := by
    rw [ChunkLayout.payload, List.length_take, List.length_drop, hlength]
    show min (min (r.hello.size - sequence * r.hello.payloadBytes) r.hello.payloadBytes)
      (r.hello.size - sequence * r.hello.payloadBytes) = _
    omega
  have hinside : sequence * r.hello.payloadBytes + (r.hello.chunkLayout.payload source sequence).length ≤
      content.length := by
    omega
  intro x hstart hstop
  rw [getElem?_splice hinside]
  have hstart : i * r.hello.payloadBytes ≤ x := hstart
  have hstop : x < min (i * r.hello.payloadBytes + r.hello.payloadBytes) r.hello.size := hstop
  split
  next hx =>
    rw [ChunkLayout.payload, List.getElem?_take, if_pos, List.getElem?_drop]
    · congr 1
      show sequence * r.hello.payloadBytes + (x - sequence * r.hello.payloadBytes) = x
      omega
    · show x - sequence * r.hello.payloadBytes <
        min (r.hello.size - sequence * r.hello.payloadBytes) r.hello.payloadBytes
      omega
  next hx =>
    refine hagree (fun heq => hx ?_) x hstart hstop
    rw [← heq] at hpayload ⊢
    omega

/-- A datagram keeps what is marked, and what is marked is the object. -/
theorem Took.truthful [Sha256] (hb : r.hello.Bounded) (hs : s.Sound r content)
    (hlength : source.length = r.hello.size)
    (hdatagram : SessionDatagram r source datagram ∨ Untagged r.key datagram)
    (h : Took r s content datagram s' content')
    (htruth : ∀ i, bitmapContains s.resume.bitmap i = true → r.hello.chunkLayout.Agree i content source) :
    ∀ i, bitmapContains s'.resume.bitmap i = true → r.hello.chunkLayout.Agree i content' source := by
  cases h with
  | invalid _ => exact htruth
  | duplicate _ _ => exact htruth
  | @accepted packet written s₁ hcheck hbit hwritten hs₁ =>
    obtain ⟨hsequence, -⟩ := checkPacket_some hcheck
    have hpayload := payload_of_session hb hlength hdatagram hcheck
    have hbitmap : (s₁.raiseHighest packet.sequence).resume.bitmap =
        bitmapInsert s.resume.bitmap packet.sequence := by
      rcases hs₁ with rfl | rfl <;> rfl
    intro i hi
    rw [hbitmap, bitmapContains_bitmapInsert (hs.bitmap.place_lt hsequence), Bool.or_eq_true,
      decide_eq_true_iff] at hi
    rw [hwritten, hpayload]
    exact agree_splice hb hlength hs.size hsequence fun hne => htruth i (hi.resolve_left hne)

theorem Took.marks [Sha256] (h : Took r s content datagram s' content') :
    ∀ i, bitmapContains s.resume.bitmap i = true → bitmapContains s'.resume.bitmap i = true := by
  cases h with
  | invalid _ => exact fun _ hi => hi
  | duplicate _ _ => exact fun _ hi => hi
  | @accepted packet written s₁ hcheck hbit hwritten hs₁ =>
    intro i hi
    rcases hs₁ with rfl | rfl <;> exact bitmapContains_insert_of hi

theorem TookSocket.marks [Sha256] {socket : Except Errno (Option (List UInt8))}
    (h : TookSocket r s content socket s' content') :
    ∀ i, bitmapContains s.resume.bitmap i = true → bitmapContains s'.resume.bitmap i = true := by
  cases h with
  | none => exact fun _ hi => hi
  | datagram h => exact h.marks

/-! ## A turn -/

theorem Reported.resume_eq {hello : Hello} {turn : Turn} {lines : List Str}
    (h : Reported hello s turn s' lines) : s'.resume = s.resume := by
  cases h <;> rfl

/-- Receipts that are known to be true are never given up, and those that come are true, too. -/
theorem truthful_step [Sha256] (hr : r.Invoked) (hlength : source.length = r.hello.size)
    (hsettled : Settled r file a) (htruth : Truthful r source file a) (h : UnforgedStep r source file a b) :
    Truthful r source file b ∧ ∀ i, bitmapContains a.receiving.resume.bitmap i = true →
      bitmapContains b.receiving.resume.bitmap i = true := by
  have hb := hr.able.bounded
  obtain ⟨content, hs, hd⟩ := hsettled
  obtain ⟨_, hview, -, htrue⟩ := htruth
  rw [hd.shape] at hview
  cases hview
  obtain ⟨turn, hunforged, hrun⟩ := h
  obtain ⟨content', hwent⟩ := wentOn_of_succeeds hb hs hd hrun
  obtain ⟨s₁, s₂, u, pongs, lines, htook, rfl, -, -, -, hreported, -, -⟩ := hwent.begun
  have hresume : b.receiving.resume = s₁.resume := by
    rw [hreported.resume_eq, (attended_hear s₁ turn.endedClock turn.events turn).bitmap]
  rw [hresume]
  refine ⟨⟨content', hwent.disk.shape, hwent.sound.size, ?_⟩, htook.marks⟩
  rw [hresume]
  generalize hsocket : turn.socket = socket at htook
  cases htook with
  | none => exact htrue
  | datagram htook => exact htook.truthful hb hs hlength (hunforged _ hsocket) htrue

theorem UnforgedStep.turnStep [Sha256] (h : UnforgedStep r source file a b) : TurnStep r file a b := by
  obtain ⟨turn, -, hrun⟩ := h
  exact ⟨turn, hrun⟩

/-- The same holds for a run. -/
theorem truthful_steps [Sha256] (hr : r.Invoked) (hlength : source.length = r.hello.size)
    (hsettled : Settled r file a) (htruth : Truthful r source file a)
    (h : Relation.ReflTransGen (UnforgedStep r source file) a b) :
    Settled r file b ∧ Truthful r source file b ∧ ∀ i, bitmapContains a.receiving.resume.bitmap i = true →
      bitmapContains b.receiving.resume.bitmap i = true := by
  induction h with
  | refl => exact ⟨hsettled, htruth, fun _ hi => hi⟩
  | tail _ hstep ih =>
    obtain ⟨hmid, htrue, hmarks⟩ := ih
    obtain ⟨htrue', hmarks'⟩ := truthful_step hr hlength hmid htrue hstep
    exact ⟨(hmid.step hr hstep.turnStep).1, htrue', fun i hi => hmarks' i (hmarks i hi)⟩

/-! ## The object -/

/-- A turn writes nothing in a chunk that is marked. -/
theorem spares_receiveTurn [Sha256] (hb : r.hello.Bounded) {bitmap : Bitmap}
    (hmarks : ∀ i, bitmapContains bitmap i = true → bitmapContains s.resume.bitmap i = true) (turn : Turn) :
    (receiveTurn r file s turn).Only (SiteCall.Spares r.hello.chunkLayout bitmap) := by
  refine writes_receiveTurn turn fun datagram packet hcheck hbit i hi => ?_
  obtain ⟨hsequence, hpayload⟩ := checkPacket_some hcheck
  have hne : i ≠ packet.sequence := by
    rintro rfl
    rw [hmarks _ hi] at hbit
    cases hbit
  show packet.sequence * r.hello.payloadBytes + packet.payload.length ≤ i * r.hello.payloadBytes ∨
    min (i * r.hello.payloadBytes + r.hello.payloadBytes) r.hello.size ≤ packet.sequence * r.hello.payloadBytes
  have hle : packet.payload.length ≤ r.hello.payloadBytes := hpayload ▸ Nat.min_le_right _ _
  rcases Nat.lt_or_gt_of_ne hne with hlt | hlt
  · right
    have hmul := Nat.mul_le_mul_right r.hello.payloadBytes (Nat.succ_le_of_lt hlt)
    rw [Nat.succ_mul] at hmul
    omega
  · left
    have hmul := Nat.mul_le_mul_right r.hello.payloadBytes (Nat.succ_le_of_lt hlt)
    rw [Nat.succ_mul] at hmul
    omega

/-- A datagram that is not accepted does nothing but being counted. -/
theorem receiveDatagram_of_not_accepts [Sha256] (h : ¬Accepts r s datagram) :
    ∃ s', receiveDatagram r.key r.hello.chunkLayout file s datagram = pure s' ∧ s'.resume = s.resume := by
  unfold receiveDatagram
  rcases hcheck : checkPacket r.key r.hello.chunkLayout (received r.hello.chunkLayout datagram) with
    _ | packet
  · exact ⟨s.countInvalid, rfl, rfl⟩
  · have hold : ¬bitmapContains (s.countValid packet.repair).resume.bitmap packet.sequence = false :=
      fun hbit => h ⟨packet, hcheck, hbit⟩
    refine ⟨(s.countValid packet.repair).countDuplicate.raiseHighest packet.sequence, ?_, rfl⟩
    dsimp only
    rw [acceptPacket, if_neg hold]
    rfl

/-- A file that holds the object in every chunk is the object. -/
theorem eq_of_agree (hb : r.hello.Bounded) (hlength : source.length = r.hello.size)
    (hsize : content.length = r.hello.size)
    (h : ∀ i < r.hello.chunks, r.hello.chunkLayout.Agree i content source) : content = source := by
  refine List.ext_getElem? fun x => ?_
  by_cases hx : x < r.hello.size
  · have hmod := Nat.div_add_mod x r.hello.payloadBytes
    have hlt := Nat.mod_lt x hb.payloadBytes_pos
    have hindex : x / r.hello.payloadBytes < r.hello.chunks :=
      (Nat.div_lt_iff_lt_mul hb.payloadBytes_pos).2 (Nat.lt_of_lt_of_le hx hb.size_le)
    refine h _ hindex x ?_ ?_
    · show x / r.hello.payloadBytes * r.hello.payloadBytes ≤ x
      exact Nat.div_mul_le_self x _
    · show x < min (x / r.hello.payloadBytes * r.hello.payloadBytes + r.hello.payloadBytes) r.hello.size
      rw [Nat.mul_comm]
      omega
  · rw [List.getElem?_eq_none (by omega), List.getElem?_eq_none (by omega)]

/-- Whatever the network does, every chunk that is marked holds the bytes of the object, is not written
again, and what is not accepted changes nothing; when all are marked, the file is the object. -/
theorem object_safety [Sha256] (hr : r.Invoked) (hlength : source.length = r.hello.size) (hstart : Starts r file a)
    (htruth : Truthful r source file a) (hrun : Relation.ReflTransGen (UnforgedStep r source file) a b) :
    Truthful r source file b ∧
    (∀ c, Relation.ReflTransGen (UnforgedStep r source file) b c → ∀ turn,
      (receiveTurn r file c.receiving turn).Only
        (SiteCall.Spares r.hello.chunkLayout b.receiving.resume.bitmap)) ∧
    (∀ datagram, ¬Accepts r b.receiving datagram → ∃ s',
      receiveDatagram r.key r.hello.chunkLayout file b.receiving datagram = pure s' ∧
        s'.resume = b.receiving.resume) ∧
    ((∀ i < r.hello.chunks, bitmapContains b.receiving.resume.bitmap i = true) →
      b.site.fs.view file = some (.file source)) := by
  have hb := hr.able.bounded
  obtain ⟨hsettled, htrue, -⟩ := truthful_steps hr hlength (settled_starts hr hstart) htruth hrun
  refine ⟨htrue, fun c hsteps turn => ?_, fun datagram => receiveDatagram_of_not_accepts, fun hfull => ?_⟩
  · exact spares_receiveTurn hb (truthful_steps hr hlength hsettled htrue hsteps).2.2 turn
  · obtain ⟨content, hview, hsize, hagree⟩ := htrue
    rw [hview, eq_of_agree hb hlength hsize fun i hi => hagree i (hfull i hi)]

end

section Example

/-- The only chunk of an object of one byte has arrived. -/
def singleStored : LoopState where
  receiving := { (singleStart.stored ⟨0, false, [7]⟩) with highest := some 0 }
  site := ((@receiveTurn constantDigest singleReceiver (partOf singleFile).names singleStart
    { socket := .ok (some singleDatagram) }).run siteMachine singleSite).2

/-- The rule, for that object. -/
theorem object_safety_single :
    singleStored.site.fs.view (partOf singleFile).names = some (.file [7]) := by
  let _ := constantDigest
  have hstart : (startReceiving singleReceiver 0).run siteMachine ⟨FS.empty, {}⟩ =
      (.ok ((partOf singleFile).names, singleStart), singleSite) :=
    Prod.ext (by decide) rfl
  have hrun : (receiveTurn singleReceiver (partOf singleFile).names singleStart
      { socket := .ok (some singleDatagram) }).run siteMachine singleSite =
        (.ok (.running singleStored.receiving), singleStored.site) :=
    Prod.ext (by decide +kernel) rfl
  have hunforged : Unforged singleReceiver [7] { socket := .ok (some singleDatagram) } := by
    intro datagram hdatagram
    cases hdatagram
    exact Or.inl ⟨0, false, by decide +kernel⟩
  have htruth : Truthful singleReceiver [7] (partOf singleFile).names ⟨singleStart, singleSite⟩ :=
    ⟨[0], by decide +kernel, rfl, fun i hi => by
      have hnone : singleStart.resume.bitmap = List.replicate 1 0#64 := rfl
      rw [hnone, bitmapContains_replicate_zero] at hi
      cases hi⟩
  have hsafe := @object_safety singleReceiver (partOf singleFile).names [7] _ singleStored _ invoked_single rfl
    ⟨⟨FS.empty, {}⟩, 0, sited_empty 7, .of_run hstart⟩ htruth (.single ⟨_, hunforged, .of_run hrun⟩)
  refine hsafe.2.2.2 fun i hi => ?_
  obtain rfl : i = 0 := Nat.lt_one_iff.1 hi
  rfl

end Example

end PacketTide
