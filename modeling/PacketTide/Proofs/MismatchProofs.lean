import PacketTide.Proofs.AbortProofs

/-!
# An object with the wrong hash

A receiver whose object does not have the hash of the greeting drops its receipts, but only after it
has told the sender so.
-/

namespace PacketTide

open Effects FileSystem FS Prog Text ResumeState

section

variable {r : UdpReceiver} {file : Loc} {content : List UInt8} {s : Receiving} {fs : FS} {site : Site}

/-- A completion of an object with the wrong hash: it stops at the write to the control channel if
that fails, and otherwise after the partial file and the map have been dropped. -/
theorem run_mismatch [Sha256] (hb : r.hello.Bounded) (hs : s.Sound r content)
    (hd : OnDisk r.pid r.destination file content site.fs)
    (hfull : s.resume.receivedCount = r.hello.chunks)
    (hhash : hex (Sha256.digest content).bytes ≠ r.hello.hash) (socketDrops : Option Nat) :
    ∃ e t, (completeReceiving r file s socketDrops).run siteMachine site = (.error e, t) ∧
      if site.control.fates.head? = some false then t.fs.Looks site.fs.home site.fs.view
      else t.fs.Looks site.fs.home (unmapped site.fs.home r.destination
        (Function.update site.fs.view (site.fs.home ++ (partOf r.destination).names) none)) := by
  obtain ⟨hend, hhashed⟩ := hs.advanced_full hb hfull
  obtain ⟨u, hadvance, hlu⟩ := run_advance hb hs hd
  have hsync : (ask (.sync file)).run machine u = (.ok (), u) := rfl
  obtain ⟨sent, hattempt⟩ := @attempt_payload site.control (ascii "CANCEL hash-mismatch")
      (by decide)
  have hcancel := run_sendControl (ascii "CANCEL hash-mismatch") ⟨u, site.control⟩
  rw [hattempt] at hcancel
  have hstart : (completeReceiving r file s socketDrops).run siteMachine site =
      (do sendControl (ascii "CANCEL hash-mismatch")
          onFiles (s.advanced r content).resume.discard
          stopWith "received UDP file hash did not match" : SiteProg Receiving).run siteMachine
        ⟨u, site.control⟩ := by
    unfold completeReceiving
    rw [run_bind_ok (t := ⟨u, site.control⟩) (by rw [run_onFiles, hadvance]),
      if_neg (not_not.2 hend), run_bind_ok (t := ⟨u, site.control⟩) (by rw [run_onFiles, hsync]),
      hhashed, if_pos hhash]
  rw [hstart]
  split
  next hfate =>
    rw [if_pos hfate] at hcancel
    exact ⟨_, _, run_bind_error hcancel, hlu⟩
  next hfate =>
    rw [if_neg hfate] at hcancel
    obtain ⟨v, hdiscard, hl⟩ : ∃ v, (s.advanced r content).resume.discard.run machine u = (.ok (), v) ∧
        v.Looks u.home (unmapped u.home r.destination
          (Function.update u.view (u.home ++ (partOf r.destination).names) none)) := by
      obtain ⟨-, hok, hl⟩ := @safe_discard _ _ _ _ _ ((s.advanced r content).resume)
          (hd.looks hlu).sited hs.partPath hs.mapPath ⟨rfl, rfl⟩
      exact ⟨_, Prod.ext hok rfl, hl⟩
    rw [hlu.1, hlu.2] at hl
    refine ⟨.message "received UDP file hash did not match",
      ⟨v, ⟨sent, site.control.fates.tail⟩⟩, ?_, hl⟩
    have hdiscarded : (onFiles (s.advanced r content).resume.discard).run siteMachine
        ⟨u, ⟨sent, site.control.fates.tail⟩⟩ = (.ok (), ⟨v, ⟨sent, site.control.fates.tail⟩⟩) := by
      rw [run_onFiles, hdiscard]
    rw [run_bind_ok hcancel, run_bind_ok hdiscarded]
    rfl

/-- What a later `open` finds. -/
theorem bitmap_of_openState {pid pid' : Nat} {dest : Path} {id : Identity} {file : Loc}
    {state : ResumeState} {t : FS} (hs : Sited pid fs.home fs.view dest)
    (hrun : (openState pid' dest id).run machine fs = (.ok (file, state), t)) :
    state.bitmap = ((resumeFrom id (fs.view (fs.home ++ (mapOf dest).names))
      (fs.view (fs.home ++ (partOf dest).names))).getD (fresh dest id).bitmap) := by
  have hresumable := run_resumable id hs ⟨rfl, rfl⟩
  unfold openState at hrun
  rw [run_bind_ok hresumable] at hrun
  rcases hfound : resumeFrom id (fs.view (fs.home ++ (mapOf dest).names))
    (fs.view (fs.home ++ (partOf dest).names)) with _ | bitmap
  · rw [hfound] at hrun
    obtain ⟨_, _, -, hrun⟩ := run_bind_eq_ok hrun
    obtain ⟨_, _, -, hrun⟩ := run_bind_eq_ok hrun
    cases hrun
    rfl
  · rw [hfound] at hrun
    obtain ⟨_, _, -, hrun⟩ := run_bind_eq_ok hrun
    cases hrun
    rfl

/-- What is resumed from the receipts and the partial file of a receiver. -/
theorem resumeFrom_onDisk (hid : r.hello.identity = some r.identity) (hs : s.Sound r content)
    (hd : OnDisk r.pid r.destination file content fs) :
    resumeFrom r.identity (fs.view (fs.home ++ (mapOf r.destination).names))
      (fs.view (fs.home ++ (partOf r.destination).names)) = receiptsOnDisk r fs := by
  have hpart := hd.shape
  rw [hd.place] at hpart
  unfold resumeFrom
  rw [hpart]
  dsimp only
  rw [if_pos (hs.size.trans (identity_fields hid).1.symm)]
  rfl

/-- After a mismatch the object is started afresh just if the sender could be told of it, or no receipt
had reached the disk. -/
theorem mismatch_discards_iff [Sha256] {a : LoopState} {turn : Turn} (hr : r.Invoked)
    (ha : LoopReachable r file a) (h : Mismatches r file a turn s site) :
    ∃ e t, (receiveTurn r file a.receiving turn).run siteMachine a.site = (.error e, t) ∧
      (StartsAfresh r.destination r.identity t.fs ↔
        site.control.fates.head? ≠ some false ∨ ∀ saved, receiptsOnDisk r site.fs = some saved →
          ∀ i, bitmapContains saved i = false) := by
  have hb := hr.able.bounded
  obtain ⟨content₀, saved₀, hs₀, hd₀, hsaved₀⟩ := ha.recorded hr
  obtain ⟨content, hbegun⟩ := returns_beginTurn hb hs₀ hd₀ turn s site (.of_run h.begun)
  obtain ⟨s₁, htook, rfl⟩ := hbegun.took
  have hs := hbegun.sound
  have hd := hbegun.disk
  have hsaved := (hsaved₀.took hs₀ hd₀ htook hbegun.looks).hear turn.endedClock turn.events
  generalize s₁.hear turn.endedClock turn.events = s₂ at *
  obtain ⟨e, t, hrun, hl⟩ := run_mismatch hb hs hd h.complete.2 (h.hash_ne content hd.shape)
    turn.socketDrops
  refine ⟨e, t, ?_, ?_⟩
  · unfold receiveTurn
    rw [run_bind_ok h.begun, if_pos h.complete, run_bind_error hrun]
  · by_cases hfate : site.control.fates.head? = some false
    · -- the files are as they were
      rw [if_pos hfate] at hl
      have hdt := hd.looks hl
      have hfound := resumeFrom_onDisk hr.identity hs hdt
      have hdisk : receiptsOnDisk r t.fs = some saved₀ := by
        rw [receiptsOnDisk, hl.1, hl.2]
        exact hsaved.on_disk
      rw [hdisk] at hfound
      constructor
      · intro hafresh
        refine Or.inr fun saved hsaved' i => ?_
        rw [hsaved.on_disk] at hsaved'
        cases hsaved'
        obtain ⟨u, hopen⟩ := @run_openState r.pid _ _ _ _ r.identity hdt.sited ⟨rfl, rfl⟩
        rw [hfound] at hopen
        exact hafresh r.pid _ _ u hopen.2 i
      · rintro (hne | hnone) pid file' state u hopen i
        · exact absurd hfate hne
        · rw [bitmap_of_openState hdt.sited hopen, hfound]
          exact hnone saved₀ hsaved.on_disk i
    · rw [if_neg hfate] at hl
      refine ⟨fun _ => Or.inl hfate, fun _ pid file' state u hopen i => ?_⟩
      have hsited : Sited r.pid t.fs.home t.fs.view r.destination := by
        rw [hl.1, hl.2]
        exact (hd.sited.update hd.sited.part_slot.not_dir leaf_none).update
          (hd.sited.update hd.sited.part_slot.not_dir leaf_none).map_slot.not_dir leaf_none
      have hnone : resumeFrom r.identity (t.fs.view (t.fs.home ++ (mapOf r.destination).names))
          (t.fs.view (t.fs.home ++ (partOf r.destination).names)) = none := by
        have hpart : t.fs.view (t.fs.home ++ (partOf r.destination).names) = none := by
          rw [hl.1, hl.2, unmapped, Function.update_of_ne (part_ne_map hd.sited.names_ne),
            Function.update_self]
        rw [hpart]
        rfl
      rw [bitmap_of_openState hsited hopen, hnone]
      exact bitmapContains_replicate_zero _ _

end

/-! ## A receipt that outlives its object -/

section Example

/-- A digest function by which no content has the hash of the greeting. -/
@[reducible] def otherDigest : Sha256 := ⟨fun _ => Vector.replicate 32 2⟩

/-- A datagram with the only chunk, with the tag that this function gives it. -/
def otherDatagram : List UInt8 :=
  [4] ++ List.replicate 8 0 ++ [0, 0, 1] ++ List.replicate 16 2 ++ [7]

/-- The start of the loop of a receiver of one byte whose fourth write fails. -/
def otherStart : LoopState where
  receiving := singleStart
  site := ((@startReceiving otherDigest singleReceiver 0).run siteMachine
    ⟨FS.empty, { fates := [true, true, true, false] }⟩).2

/-- The chunk arrives, and its receipt is written a second later. -/
def flushTurn : Turn := { socket := .ok (some otherDatagram), checkpointClock := 1000000000 }

/-- The loop after that turn. -/
def flushedState : LoopState where
  receiving :=
    { singleStart with
      resume := ((ResumeState.fresh singleFile (singleByte 1)).markReceived 0)
      telemetry := { acceptedDatagrams := 1, validDatagrams := 1 }
      highest := some 0 }
  site := ((@receiveTurn otherDigest singleReceiver (partOf singleFile).names singleStart
    flushTurn).run siteMachine otherStart.site).2

theorem reachable_flushed :
    @LoopReachable otherDigest singleReceiver (partOf singleFile).names flushedState := by
  have hrun : (@startReceiving otherDigest singleReceiver 0).run siteMachine
      ⟨FS.empty, { fates := [true, true, true, false] }⟩ =
        (.ok ((partOf singleFile).names, otherStart.receiving), otherStart.site) :=
    Prod.ext (by decide) rfl
  have hstep : (@receiveTurn otherDigest singleReceiver (partOf singleFile).names
      otherStart.receiving flushTurn).run siteMachine otherStart.site =
        (.ok (.running flushedState.receiving), flushedState.site) :=
    Prod.ext (by decide) rfl
  refine ⟨otherStart, ⟨⟨FS.empty, { fates := [true, true, true, false] }⟩, 0, sited_empty 7,
    .of_run hrun⟩, .single ⟨flushTurn, .of_run hstep⟩⟩

/-- The end of the first pass. -/
def endTurn : Turn := { events := [.ended] }

/-- The loop after the first part of that turn, in which the object is complete. -/
def endedReceiving : Receiving :=
  { flushedState.receiving with ended := true, endedAt := some 0 }

theorem mismatches_single : @Mismatches otherDigest singleReceiver (partOf singleFile).names
    flushedState endTurn endedReceiving flushedState.site := by
  refine @Mismatches.mk otherDigest _ _ _ _ _ _ (Prod.ext (by decide) rfl) (by decide) ?_
  intro content _
  exact (by decide : hex (Vector.replicate 32 (2 : UInt8)).toList ≠ singleHello.hash)

/-- What the turn leaves. -/
def mismatchEnd : Site :=
  ((@receiveTurn otherDigest singleReceiver (partOf singleFile).names flushedState.receiving
    endTurn).run siteMachine flushedState.site).2

theorem not_mismatch_discards :
    ¬∀ (_ : Sha256) (r : UdpReceiver) (file : Loc) (a : LoopState) (turn : Turn) (s : Receiving)
      (site : Site), r.Invoked → LoopReachable r file a → Mismatches r file a turn s site →
        ∀ e t, (receiveTurn r file a.receiving turn).run siteMachine a.site = (.error e, t) →
          StartsAfresh r.destination r.identity t.fs := by
  intro hall
  have hturn : (@receiveTurn otherDigest singleReceiver (partOf singleFile).names
      flushedState.receiving endTurn).run siteMachine flushedState.site =
        (.error (.io .other), mismatchEnd) :=
    Prod.ext (by decide) rfl
  have hafresh := hall otherDigest _ _ _ endTurn _ _ (@invoked_single otherDigest) reachable_flushed
    mismatches_single _ _ hturn
  have hopen : (openState 7 singleFile (singleByte 1)).run machine mismatchEnd.fs =
      (.ok ((partOf singleFile).names, forObject singleFile (singleByte 1) [1#64]),
        ((openState 7 singleFile (singleByte 1)).run machine mismatchEnd.fs).2) :=
    Prod.ext (by decide) rfl
  exact absurd (hafresh 7 _ _ _ hopen 0) (by decide)

/-- The rule, for that turn: the receipt is still there. -/
theorem mismatch_discards_single : ∃ e t,
    (@receiveTurn otherDigest singleReceiver (partOf singleFile).names flushedState.receiving
      endTurn).run siteMachine flushedState.site = (.error e, t) ∧
        ¬StartsAfresh singleFile (singleByte 1) t.fs := by
  obtain ⟨e, t, hrun, hiff⟩ := @mismatch_discards_iff singleReceiver _ _ _ otherDigest _ _
    (@invoked_single otherDigest) reachable_flushed mismatches_single
  refine ⟨e, t, hrun, fun hafresh => ?_⟩
  rcases hiff.1 hafresh with hwritten | hnone
  · exact hwritten (by decide)
  · exact absurd (hnone [1#64] (by decide) 0) (by decide)

end Example

end PacketTide
