import PacketTide.Proofs.ReuseProofs
import PacketTide.Proofs.SiteProofs

/-!
# The start of the loop

The receiver starts in a state that is sound, and tells the sender which chunks it holds.
-/

namespace PacketTide

open Effects FileSystem FS Prog Text ResumeState

section

variable {r : UdpReceiver} {file : Loc} {content : List UInt8} {s : Receiving} {fs : FS}

/-- A map that is read is the one that is there, or none if the call that opens it is refused. -/
theorem returns_loadMap {pid : Nat} {dest : Path} (id : Identity)
    (hs : Sited pid fs.home fs.view dest) :
    Returns machine refuse (loadMap (mapOf dest) id (bitmapWords id.chunks))
      (fun found t => t = fs ∧
        (found = none ∨ found = receiptsAt id (fs.view (fs.home ++ (mapOf dest).names)))) fs := by
  obtain ⟨-, ht, hr⟩ := @safe_loadMap _ _ _ _ _ id hs ⟨rfl, rfl⟩
  have hrun : (loadMap (mapOf dest) id (bitmapWords id.chunks)).run machine fs = (_, _) :=
    Prod.ext hr ht
  unfold loadMap tryOpen at hrun ⊢
  refine returns_bind fun reply t hreply => ?_
  rcases succeeds_request hreply with hexec | ⟨rfl, e, rfl⟩
  · rw [run_bind_ok (a := reply) (t := t) (by rw [request, run_call, exec_machine, hexec]; rfl)] at hrun
    refine Strict.returns ?_ hrun ⟨rfl, Or.inr rfl⟩
    split
    · exact strict_done _
    · exact strict_done _
    · exact strict_ite strict_failWith (strict_ask.bind fun _ => strict_ite (strict_done _)
        (strict_ask.bind fun _ => strict_done _))
  · cases e with
    | notFound => exact returns_ok ⟨rfl, Or.inl rfl⟩
    | _ => exact returns_error

/-- The receipts to resume from are those that are there, or none. -/
theorem returns_resumable {pid : Nat} {dest : Path} (id : Identity)
    (hs : Sited pid fs.home fs.view dest) :
    Returns machine refuse (resumable dest id)
      (fun found t => t = fs ∧ (found = none ∨
        found = resumeFrom id (fs.view (fs.home ++ (mapOf dest).names))
          (fs.view (fs.home ++ (partOf dest).names)))) fs := by
  have hrun := run_resumable id hs ⟨rfl, rfl⟩
  obtain ⟨-, hu, hr⟩ := @safe_loadMap _ _ _ _ _ id hs ⟨rfl, rfl⟩
  unfold resumable at hrun ⊢
  rw [run_bind_ok (Prod.ext hr hu)] at hrun
  refine returns_bind ((returns_loadMap id hs).mono fun found t h => ?_)
  obtain ⟨rfl, rfl | rfl⟩ := h
  · exact returns_ok ⟨rfl, Or.inl rfl⟩
  rcases hreceipts : receiptsAt id (t.view (t.home ++ (mapOf dest).names)) with _ | bitmap
  · exact returns_ok ⟨rfl, Or.inl rfl⟩
  rw [hreceipts] at hrun
  unfold tryStat at hrun ⊢
  refine returns_bind fun reply u hreply => ?_
  rcases succeeds_request hreply with hexec | ⟨rfl, e, rfl⟩
  · dsimp only at hrun
    rw [run_bind_ok (a := reply) (t := u) (by rw [request, run_call, exec_machine, hexec]; rfl)] at hrun
    refine Strict.returns ?_ hrun ⟨rfl, Or.inr rfl⟩
    split
    · exact strict_ite (strict_done _) (strict_done _)
    · exact strict_done _
  · exact returns_ok ⟨rfl, Or.inl rfl⟩

/-- An object that is started afresh has no receipts and an empty file. -/
theorem opened_fresh (hid : r.hello.identity = some r.identity)
    (hs : Sited r.pid fs.home fs.view r.destination) :
    ∃ t, (openFresh r.pid r.destination r.identity).run machine fs =
        (.ok (fs.home ++ (partOf r.destination).names, fresh r.destination r.identity), t) ∧
      Opened r (fs.home ++ (partOf r.destination).names)
        { resume := fresh r.destination r.identity } t := by
  obtain ⟨hsize, hchunks, hpayload⟩ := identity_fields hid
  obtain ⟨t₁, ht₁, hl₁, -⟩ := run_emptyPart r.identity hs ⟨rfl, rfl⟩
  obtain ⟨u, hcheckpoint, hh, hv⟩ : ∃ u, ((fresh r.destination r.identity).checkpoint r.pid
      (fs.home ++ (partOf r.destination).names)).run machine t₁ = (.ok (), u) ∧
        u.Looks fs.home (checkpointed r.pid fs.home r.destination (freshMap r.identity)
          (emptied fs.home r.destination r.identity fs.view)) := by
    obtain ⟨-, hr, hl⟩ := safe_checkpoint_fresh (fs.home ++ (partOf r.destination).names) hs hl₁
    exact ⟨_, Prod.ext hr rfl, hl⟩
  refine ⟨u, ?_, rfl, rfl, rfl, ?_, rfl, Nat.zero_le _, Nat.zero_le _, ?_, ?_⟩
  · unfold openFresh
    rw [run_bind_ok ht₁, run_bind_ok hcheckpoint]
    rfl
  · rw [← hchunks]
    exact bitmapFor_zero _
  · rw [receiptsOnDisk, hh, hv, checkpointed, Function.update_self]
    exact receiptsIn_mapBytes_self (bitmapFor_zero _)
  · refine ⟨List.replicate r.identity.size 0, by rw [List.length_replicate, hsize], ?_, ?_, ?_⟩
    · have hemptied := hs.emptied r.identity
      have hsited := hemptied.update hemptied.temporary.not_dir (Or.inl rfl)
      rw [hh, hv]
      exact hsited.update hsited.map.not_dir (Or.inr ⟨_, rfl⟩)
    · rw [hh]
    · have hmap : fs.home ++ (partOf r.destination).names ≠ fs.home ++ (mapOf r.destination).names :=
        part_ne_map hs.names_ne
      have htmp : fs.home ++ (partOf r.destination).names ≠
          fs.home ++ (temporaryOf r.pid (mapOf r.destination)).names :=
        (temporary_ne_part hs.names_ne).symm
      rw [hv, checkpointed, Function.update_of_ne hmap, Function.update_of_ne htmp, emptied,
        Function.update_self]

/-- What is opened is a bitmap for the object and a file of its size. -/
theorem returns_openState (hid : r.hello.identity = some r.identity)
    (hs : Sited r.pid fs.home fs.view r.destination) :
    Returns machine refuse (openState r.pid r.destination r.identity)
      (fun out t => Opened r out.1 { resume := out.2 } t) fs := by
  obtain ⟨hsize, hchunks, hpayload⟩ := identity_fields hid
  unfold openState
  refine returns_bind ((returns_resumable r.identity hs).mono fun found t h => ?_)
  obtain ⟨rfl, hfound⟩ := h
  rcases found with _ | bitmap
  · obtain ⟨u, hrun, hopened⟩ := opened_fresh hid hs
    exact strict_openFresh.returns hrun hopened
  · have hresume := (hfound.resolve_left (by nofun)).symm
    unfold resumeFrom at hresume
    split at hresume
    next data hpart =>
      split at hresume
      next hlen =>
        have hreceipts := hresume
        unfold receiptsAt at hresume
        split at hresume
        next map _ =>
          have hopen := exec_keep_slot ⟨rfl, rfl⟩ hs.part_slot hpart true
          refine Strict.returns (strict_ask.bind fun _ => strict_done _) (run_ask_ok hopen) ?_
          refine ⟨rfl, rfl, rfl, ?_, rfl, Nat.zero_le _, Nat.zero_le _, ?_, data, ?_, hs, rfl, hpart⟩
          · rw [← hchunks]
            exact bitmapFor_of_receiptsIn hresume
          · exact hreceipts
          · rw [hlen, hsize]
        next => cases hresume
      next => cases hresume
    next => cases hresume

/-- What a receiver needs of its greeting and its manifest. -/
structure UdpReceiver.Able [Sha256] (r : UdpReceiver) : Prop where
  bounded : r.hello.Bounded
  identity : r.hello.identity = some r.identity
  manifest : ∀ m candidate, r.reuse = some (m, candidate) → ∃ count hash payloads,
    Cdc.readReuseManifest r.hello.size count hash payloads = .ok m

theorem UdpReceiver.Invoked.able [Sha256] (hr : r.Invoked) : r.Able := by
  obtain ⟨line, hparse⟩ := hr.parsed
  exact ⟨(parseHello_ok hparse).1, hr.identity, hr.manifest⟩

/-- Reused content keeps it so. -/
theorem returns_openReusing_of_able [Sha256] (hr : r.Able)
    (hs : Sited r.pid fs.home fs.view r.destination) :
    Returns machine refuse (openReusing r) (fun out t => Opened r out.1 out.2 t) fs := by
  have hb := hr.bounded
  refine returns_bind ((returns_openState hr.identity hs).mono fun out t hopened => ?_)
  obtain ⟨file, state⟩ := out
  dsimp only
  split
  next m candidate hreuse =>
    obtain ⟨count, hash, payloads, hread⟩ := hr.manifest m candidate hreuse
    refine returns_bind ((returns_applyReusableContent hb hr.identity
      (readReuseManifest_within hread) hopened).mono fun reused u hu => ?_)
    exact returns_ok hu
  · exact returns_ok hopened

theorem returns_openReusing [Sha256] (hr : r.Invoked)
    (hs : Sited r.pid fs.home fs.view r.destination) :
    Returns machine refuse (openReusing r) (fun out t => Opened r out.1 out.2 t) fs :=
  returns_openReusing_of_able hr.able hs

/-! ## The highest chunk -/

/-- The highest chunk seen is one of the object, and no chunk above it is recorded. -/
structure Receiving.Topped (chunks : Nat) (s : Receiving) : Prop where
  lt_chunks : ∀ h, s.highest = some h → h < chunks
  le_highest : ∀ i, bitmapContains s.resume.bitmap i → ∃ h, s.highest = some h ∧ i ≤ h

theorem highestReceived_none {bitmap : Bitmap} (h : highestReceived bitmap = none) (i : Nat) :
    bitmapContains bitmap i = false := by
  unfold highestReceived at h
  rw [Option.map_eq_none_iff, List.find?_eq_none] at h
  rw [bitmapContains_eq]
  rcases hword : bitmap[i / 64]? with _ | word
  · rfl
  · have hmem : (word, i / 64) ∈ bitmap.zipIdx.reverse := by
      rw [List.mem_reverse, List.mem_zipIdx_iff_getElem?]
      exact hword
    have hzero : word = 0#64 := by simpa using h _ hmem
    rw [hzero]
    simp

theorem highestReceived_some {bitmap : Bitmap} {top : Nat} (h : highestReceived bitmap = some top) :
    bitmapContains bitmap top = true ∧ ∀ i, bitmapContains bitmap i = true → i ≤ top := by
  obtain ⟨⟨word, index⟩, hfind, htop⟩ := Option.map_eq_some_iff.1 h
  obtain ⟨hne, k, hk, hword, hbefore⟩ := List.find?_eq_some_iff_getElem.1 hfind
  have hne : word ≠ 0#64 := by simpa using hne
  have hlen : k < bitmap.length := by simpa using hk
  simp only [List.getElem_reverse, List.getElem_zipIdx, Prod.mk.injEq, List.length_zipIdx,
    Nat.zero_add] at hword
  obtain ⟨hword, hindex⟩ := hword
  have hplace : index < bitmap.length := by omega
  have hget : bitmap[index]? = some word := by
    rw [List.getElem?_eq_getElem hplace, ← hword]
    congr 2
    omega
  have hclz : word.clz.toNat < 64 := by
    have hlt := BitVec.clz_lt_iff_ne_zero.2 hne
    simpa [BitVec.lt_def] using hlt
  have hdiv : top / 64 = index ∧ top % 64 = 63 - word.clz.toNat := by
    dsimp only at htop
    omega
  constructor
  · rw [bitmapContains_eq, hdiv.1, hdiv.2, hget]
    exact BitVec.getLsbD_true_clz_of_ne_zero (by decide) hne
  · intro i hi
    have hiplace := lt_length_of_bitmapContains hi
    rw [bitmapContains_eq, List.getElem?_eq_getElem hiplace] at hi
    by_contra hlt
    by_cases hsame : i / 64 = index
    · -- the bit would lie among the leading zeros of the word
      have hbit : word.getLsbD (i % 64) = true := by
        rw [List.getElem?_eq_getElem hplace, Option.some.injEq] at hget
        rw [← hget]
        simp only [hsame] at hi
        exact hi
      have hge := Nat.ge_two_pow_of_testBit hbit
      have hbound : word.toNat < 2 ^ (64 - word.clz.toNat) := BitVec.toNat_lt_two_pow_sub_clz
      have hpow := (Nat.pow_lt_pow_iff_right (by decide : 1 < 2)).1 (Nat.lt_of_le_of_lt hge hbound)
      omega
    · -- the word would have been found first
      have hzero := hbefore (bitmap.length - 1 - i / 64) (by omega)
      simp only [List.getElem_reverse, List.getElem_zipIdx, List.length_zipIdx] at hzero
      have hwhere : bitmap.length - 1 - (bitmap.length - 1 - i / 64) = i / 64 := by omega
      simp only [hwhere, Bool.not_eq_true', decide_eq_false_iff_not, ne_eq, not_not] at hzero
      rw [hzero] at hi
      simp at hi

theorem topped_enterLoop (hs : s.Sound r content) (clock : Instant) :
    (s.enterLoop clock).Topped r.hello.chunks where
  lt_chunks h hh := hs.bitmap.lt_chunks h (highestReceived_some hh).1
  le_highest i hi := by
    rcases htop : highestReceived s.resume.bitmap with _ | top
    · have hnone := highestReceived_none htop i
      change bitmapContains s.resume.bitmap i = true at hi
      rw [hnone] at hi
      cases hi
    · exact ⟨top, htop, (highestReceived_some htop).2 i hi⟩

/-! ## The start -/

/-- The loop is entered with what has been opened, after the sender has been told of it. -/
structure LoopEntered (r : UdpReceiver) (clock : Instant) (sent : List Str) (file : Loc) (s : Receiving)
    (reused : Reused) (content : List UInt8) (t : Site) : Prop where
  opened : Opened r file reused t.fs
  disk : OnDisk r.pid r.destination file content t.fs
  sound : s.Sound r content
  state_eq : s = ((Receiving.start reused.resume).advanced r content).enterLoop clock
  payloads : ∀ p ∈ acceptancePayloads r.hello reused, controlPayload p
  sent_eq : t.control.sent = sent ++ acceptancePayloads r.hello reused

theorem returns_startReceiving_of_able [Sha256] (hr : r.Able) {site : Site} (clock : Instant)
    (hs : Sited r.pid site.fs.home site.fs.view r.destination) :
    Returns siteMachine siteRefuse (startReceiving r clock)
      (fun out t => ∃ reused content,
        LoopEntered r clock site.control.sent out.1 out.2 reused content t) site := by
  have hb := hr.bounded
  refine returns_bind (returns_onFiles ((returns_openReusing_of_able hr hs).mono fun out t hopened => ?_))
  obtain ⟨file, reused⟩ := out
  obtain ⟨content, hsize, hd⟩ := hopened.disk
  have hsound : (Receiving.start reused.resume).Sound r content := by
    refine ⟨hopened.partPath, hopened.mapPath, hopened.identity, hopened.bitmap, hopened.count, hsize,
      Nat.zero_le _, fun i hi => absurd hi (Nat.not_lt_zero i), ?_⟩
    show [] = content.take (min (0 * r.hello.payloadBytes) r.hello.size)
    rw [Nat.zero_mul, Nat.zero_min, List.take_zero]
  obtain ⟨u, hrun, hlu⟩ := run_advance hb hsound hd
  have hu := hd.looks hlu
  refine returns_bind (returns_onFiles (strict_advance.returns hrun ?_))
  refine returns_bind (returns_sendPayloads fun control hpayloads hsent => returns_ok ?_)
  refine ⟨reused, content, hopened.looks hlu, hu, ?_, rfl, hpayloads, hsent⟩
  exact { hsound.advanced with }

theorem returns_startReceiving [Sha256] (hr : r.Invoked) {site : Site} (clock : Instant)
    (hs : Sited r.pid site.fs.home site.fs.view r.destination) :
    Returns siteMachine siteRefuse (startReceiving r clock)
      (fun out t => ∃ reused content,
        LoopEntered r clock site.control.sent out.1 out.2 reused content t) site :=
  returns_startReceiving_of_able hr.able clock hs

end

end PacketTide
