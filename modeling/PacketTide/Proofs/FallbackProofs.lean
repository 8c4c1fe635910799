import PacketTide.Proofs.AcceptanceProofs
import PacketTide.Proofs.CdcLimitProofs
import PacketTide.Proofs.ExactReuseProofs
import PacketTide.Proofs.GreetingProofs
import PacketTide.Proofs.ScanProofs
import PacketTide.Sha2

/-!
# When content reuse is in the way of a transfer

A transfer that comes to its loop without content reuse also does with it, unless the object has a manifest
that is too long to be announced or the candidate one that is too long to be scanned.
-/

namespace PacketTide

open Effects FileSystem FS Prog Text

/-! ## The candidate -/

section

variable {fs : FS} {path : Path} {place : Loc} {content : List UInt8}

theorem LeadsToFile.stat (h : LeadsToFile fs path place content) :
    ∃ attr, FS.exec (.stat path) fs = (.ok ⟨.file, content.length, some attr⟩, fs) := by
  obtain ⟨hresolve, hview⟩ := h
  have hfollow := resolve_follow (fun target htarget => by rw [hview] at htarget; cases htarget) hresolve
  obtain ⟨attr, hattr⟩ := metadataAt_file hview
  exact ⟨attr, by rw [exec_stat hfollow, hattr]⟩

/-- What is not there cannot be opened, either. -/
theorem openFile_of_notFound (h : (FS.exec (.stat path) fs).1 = .error .notFound) :
    ∃ e, FS.exec (.openFile path { nofollow := true }) fs = (.error e, fs) := by
  have hkeep : (FS.exec (.openFile path { nofollow := true }) fs).2 = fs := exec_openFile_snd rfl rfl rfl
  rcases hopen : FS.exec (.openFile path { nofollow := true }) fs with ⟨e | q, t⟩
  · rw [hopen] at hkeep
    exact ⟨e, by rw [← hkeep]⟩
  · exfalso
    simp only [exec, Bool.true_or, Bool.not_true] at hopen
    split at hopen
    next p hresolve =>
      unfold openAt at hopen
      rcases hg : fs.root.get p with _ | node
      · simp [hg] at hopen
      · have hlink : ∀ target, fs.view p ≠ some (.link target) := by
          intro target htarget
          rw [FS.view, Node.view_eq, hg] at htarget
          cases node with
          | link _ => simp [hg] at hopen
          | _ => cases htarget
        rw [exec_stat (resolve_follow hlink hresolve), metadataAt, hg] at h
        cases h
    next => cases hopen

variable [Sha256] {pid : Nat} {file : Loc} {state : ResumeState} {target : Cdc.Manifest} {layout : ChunkLayout}

/-- Without a candidate nothing is reused. -/
theorem run_apply_absent (h : (FS.exec (.stat path) fs).1 = .error .notFound) :
    (applyReusableContent pid file state target path layout).run machine fs = (.ok { resume := state }, fs) := by
  obtain ⟨e, hopen⟩ := openFile_of_notFound h
  have hscan : ((scanPath path).attempt : FsProg (Except AnyError Cdc.Manifest)).run machine fs =
      (.ok (.error (.io e)), fs) := by
    rw [run_attempt, scanPath, run_ask_error hopen]
  have hstat : FS.exec (.stat path) fs = (.error .notFound, fs) := Prod.ext h (exec_stat_snd path)
  have hmissing : (isMissing path).run machine fs = (.ok true, fs) := by
    rw [isMissing, tryStat, run_bind, request, run_call, exec_machine, hstat]
    rfl
  rw [applyReusableContent, run_bind_ok hscan]
  dsimp only
  rw [run_bind_ok hmissing]
  rfl

/-- A candidate that cannot be scanned is in the way. -/
theorem run_apply_refused {text : String} (h : LeadsToFile fs path place content)
    (hscan : Cdc.scan content.length content = .error text) :
    (applyReusableContent pid file state target path layout).run machine fs = (.error (.message text), fs) := by
  have hfailed : ((scanPath path).attempt : FsProg (Except AnyError Cdc.Manifest)).run machine fs =
      (.ok (.error (.message text)), fs) := by
    rw [run_attempt, run_scanPath h, hscan]
    rfl
  obtain ⟨attr, hstat⟩ := h.stat
  have hmissing : (isMissing path).run machine fs = (.ok false, fs) := by
    rw [isMissing, tryStat, run_bind, request, run_call, exec_machine, hstat]
    rfl
  rw [applyReusableContent, run_bind_ok hfailed]
  dsimp only
  rw [run_bind_ok hmissing]
  rfl

/-- A candidate that can be scanned is not. -/
theorem run_apply_found {hello : Hello} {dest : Path} {before : List UInt8} {candidate : Cdc.Manifest}
    (hb : hello.Bounded) (hbitmap : BitmapFor hello.chunks state.bitmap)
    (hcount : state.receivedCount = bitmapCount state.bitmap) (hmap : state.mapPath = mapOf dest)
    (hlaid : Cdc.Laid hello.size 0 target.chunks) (hd : OnDisk pid dest file before fs)
    (hlength : before.length = hello.size) (h : LeadsToFile fs path place content)
    (hscan : Cdc.scan content.length content = .ok candidate) :
    ∃ reused t, (applyReusableContent pid file state target path hello.chunkLayout).run machine fs =
      (.ok reused, t) := by
  have hscanned := Cdc.scanned_of_scan hscan
  have hfound : ((scanPath path).attempt : FsProg (Except AnyError Cdc.Manifest)).run machine fs =
      (.ok (.ok candidate), fs) := by
    rw [run_attempt, run_scanPath h, hscan]
    rfl
  have hopen : FS.exec (.openFile path { nofollow := true }) fs = (.ok place, fs) :=
    exec_openFile_keep rfl rfl rfl h.1 h.2
  have hcandidate : ∀ d ∈ candidate.chunks, d.offset + d.length ≤ content.length := fun d hmem =>
    hscanned.size_eq ▸ (hscanned.laid.within d hmem).2.2
  have hin : ∀ chunk ∈ target.chunks, chunk.offset + chunk.length ≤ before.length := fun chunk hchunk =>
    hlength ▸ (hlaid.within chunk hchunk).2.2
  obtain ⟨t, after, copied, hcopy, hsub, hl, -⟩ :=
    run_copyChunks_any h.2 (hscanned.size_eq ▸ hscanned.size_lt) hcandidate hin hd
  obtain ⟨hproper, hsorted⟩ := ranges_of_laid hlaid hsub
  obtain ⟨u, hrun, -⟩ := run_reuseFrom hb hbitmap hcount hmap hcopy (hd.holds hl) hproper hsorted
  rw [applyReusableContent, run_bind_ok hfound]
  dsimp only
  rw [run_ask_ok hopen]
  exact ⟨_, u, hrun⟩

end

/-! ## The answer -/

theorem run_sendPayloads {payloads : List Str} {site : Site} (hpayloads : ∀ p ∈ payloads, controlPayload p)
    (hfates : false ∉ site.control.fates) :
    ∃ control, (sendPayloads payloads).run siteMachine site = (.ok (), ⟨site.fs, control⟩) ∧
      control.sent = site.control.sent ++ payloads := by
  induction payloads generalizing site with
  | nil => exact ⟨site.control, rfl, (List.append_nil _).symm⟩
  | cons payload payloads ih =>
    obtain ⟨hpayload, hpayloads⟩ := List.forall_mem_cons.1 hpayloads
    have hfate : ¬site.control.fates.head? = some false := fun hhead =>
      hfates (List.mem_of_mem_head? hhead)
    have hsend : (sendControl payload).run siteMachine site =
        (.ok (), ⟨site.fs, ⟨site.control.sent ++ [payload], site.control.fates.tail⟩⟩) := by
      have hattempt : site.control.attempt payload =
          (.ok (), ⟨site.control.sent ++ [payload], site.control.fates.tail⟩) := by
        rw [ControlWriter.attempt, ControlWriter.send, if_neg (not_not.2 hpayload), if_neg hfate]
      have hexec : siteMachine.exec (.send payload) site =
        ((site.control.attempt payload).1, ⟨site.fs, (site.control.attempt payload).2⟩) := rfl
      rw [sendControl, run_call, hexec, hattempt]
      rfl
    obtain ⟨control, hrun, hsent⟩ := @ih
      ⟨site.fs, ⟨site.control.sent ++ [payload], site.control.fates.tail⟩⟩ hpayloads
      (fun hmem => hfates (List.mem_of_mem_tail hmem))
    refine ⟨control, ?_, ?_⟩
    · rw [sendPayloads, run_bind_ok hsend, hrun]
    · rw [hsent, List.append_assoc, List.singleton_append]

/-- Three short fields make a payload. -/
theorem controlPayload_triple {a b c : Str} (ha : Plain a) (hb : Plain b) (hc : Plain c)
    (hla : a.length ≤ 6) (hlb : b.length ≤ 20) (hlc : c.length ≤ 20) :
    controlPayload (a ++ space :: b ++ space :: c) := by
  have hfields : ∀ f ∈ [a, b, c], Plain f := by simp [ha, hb, hc]
  have htext : [space].intercalate [a, b, c] = a ++ space :: b ++ space :: c := by
    simp [List.intercalate_cons_cons]
  have hframe : maxControlLine / 2 = 32768 := rfl
  rw [← htext]
  refine ⟨(newline_not_mem_fields hfields).1, (length_intercalate_space _).trans ?_⟩
  simp only [List.map_cons, List.map_nil, List.sum_cons, List.sum_nil, List.length_cons, List.length_nil]
  omega

/-- Every message of the answer fits into a frame. -/
theorem controlPayload_acceptancePayloads {hello : Hello} {reused : Reused} (hb : hello.Bounded)
    (hinterval : hello.reportInterval < 2 ^ 64) (hbitmap : BitmapFor hello.chunks reused.resume.bitmap)
    (hchunks : reused.chunks < 2 ^ 64) (hbytes : reused.bytes < 2 ^ 64) :
    ∀ p ∈ acceptancePayloads hello reused, controlPayload p := by
  have hdecimal : ∀ {n : Nat}, n < 2 ^ 64 → (decimal n).length ≤ 20 := fun {n} hn =>
    length_decimal_le (by decide) (hn.trans (by decide))
  have hpayload : maxUdpPayloadBytes < 2 ^ 64 := by decide
  have hready : ascii "READY " = ascii "READY" ++ [space] := by decide
  have hreused : ascii "REUSED " = ascii "REUSED" ++ [space] := by decide
  have hword : ascii "H " = ascii "H" ++ [space] := by decide
  intro p hp
  rw [acceptancePayloads, List.cons_append, List.cons_append] at hp
  rcases List.mem_cons.1 hp with rfl | hp
  · have htriple := controlPayload_triple (a := ascii "READY") (by decide) (plain_decimal hello.payloadBytes)
      (plain_decimal hello.reportInterval) (by decide)
      (hdecimal (Nat.lt_of_le_of_lt hb.payloadBytes_le hpayload)) (hdecimal hinterval)
    rw [readyPayload, hready]
    simpa using htriple
  rcases List.mem_cons.1 hp with rfl | hp
  · have htriple := controlPayload_triple (a := ascii "REUSED") (by decide) (plain_decimal reused.bytes)
      (plain_decimal reused.chunks) (by decide) (hdecimal hbytes) (hdecimal hchunks)
    rw [reusedPayload, hreused]
    simpa using htriple
  rcases List.mem_append.1 hp with hp | hp
  · obtain ⟨entry, hentry, rfl⟩ := List.mem_map.1 hp
    have hindex := (List.mem_zipIdx' (List.mem_filter.1 hentry).1).1
    have hwords := hbitmap.length_eq
    have hlimit : maxChunks < 2 ^ 64 := by decide
    have hle := hb.chunks_le
    have hhex : (hex (toBeBytes entry.1.toNat)).length = 16 := by
      rw [length_hex]
      rfl
    have htriple := controlPayload_triple (a := ascii "H") (by decide) (plain_decimal entry.2)
      (plain_hex (toBeBytes entry.1.toNat)) (by decide)
      (hdecimal (by rw [hwords, bitmapWords] at hindex; omega)) (by omega)
    rw [hword]
    simpa using htriple
  · rw [List.mem_singleton.1 hp]
    decide

/-! ## The start -/

section

variable [Sha256] {g : SendGreeting} {r : UdpReceiver} {object : List UInt8} {path : Path} {clock : Instant}
  {site : Site} {target : Cdc.Manifest}

/-- A receiver that opens its state and can reuse a candidate starts, and the sender reads its answer. -/
theorem start_of_openReusing {out : Loc × Reused} {t : FS} (hr : r.Invoked)
    (hinterval : r.hello.reportInterval < 2 ^ 64) (hs : Sited r.pid site.fs.home site.fs.view r.destination)
    (hfates : false ∉ site.control.fates) (hrun : (openReusing r).run machine site.fs = (.ok out, t)) :
    ∃ out t acceptance, (startReceiving r clock).run siteMachine site = (.ok out, t) ∧
      readAcceptance .udp r.hello.chunks r.hello.payloadBytes r.hello.reportInterval
        (t.control.sent.drop site.control.sent.length) = .ok (acceptance, []) := by
  have hb := hr.able.bounded
  obtain ⟨file, reused⟩ := out
  have hopened : Opened r file reused t := returns_openReusing hr hs _ _ (Succeeds.of_run hrun)
  obtain ⟨content, hsize, hd⟩ := hopened.disk
  have hsound : (Receiving.start reused.resume).Sound r content := by
    refine ⟨hopened.partPath, hopened.mapPath, hopened.identity, hopened.bitmap, hopened.count, hsize,
      Nat.zero_le _, fun i hi => absurd hi (Nat.not_lt_zero i), ?_⟩
    show [] = content.take (min (0 * r.hello.payloadBytes) r.hello.size)
    rw [Nat.zero_mul, Nat.zero_min, List.take_zero]
  obtain ⟨u, hadvance, -⟩ := run_advance hb hsound hd
  have hcount : reused.chunks ≤ bitmapCount reused.resume.bitmap := hopened.count ▸ hopened.chunks_le
  have hchunks : reused.chunks ≤ r.hello.chunks := hcount.trans hopened.bitmap.count_le
  have hmax : maxChunks < 2 ^ 64 := by decide
  have hlimit := hb.chunks_le
  have hproduct : r.hello.chunks * r.hello.payloadBytes < 2 ^ 64 := hb.offset_lt_two_pow (Nat.le_refl _)
  have hbytes : reused.bytes < 2 ^ 64 :=
    Nat.lt_of_le_of_lt (hopened.bytes_le.trans (Nat.mul_le_mul_right _ hchunks)) hproduct
  have hpositive : 0 < r.hello.payloadBytes := Nat.lt_of_lt_of_le (by decide) hb.payloadBytes_ge
  have hpayloads := controlPayload_acceptancePayloads hb hinterval hopened.bitmap (by omega) hbytes
  obtain ⟨control, hsend, hsent⟩ := @run_sendPayloads _ ⟨u, site.control⟩ hpayloads hfates
  have hread := readAcceptance_payloads hopened.bitmap hproduct hpositive hcount hopened.bytes_le []
  have hfiles : (onFiles (openReusing r)).run siteMachine site = (.ok (file, reused), ⟨t, site.control⟩) := by
    rw [run_onFiles, hrun]
  have hfrontier : (onFiles (advanceHashFrontier file r.hello.chunkLayout (.start reused.resume))).run
      siteMachine ⟨t, site.control⟩ =
        (.ok ((Receiving.start reused.resume).advanced r content), ⟨u, site.control⟩) := by
    rw [run_onFiles, hadvance]
  have hstart : (startReceiving r clock).run siteMachine site =
      (.ok (file, ((Receiving.start reused.resume).advanced r content).enterLoop clock), ⟨u, control⟩) := by
    rw [startReceiving, run_bind_ok hfiles]
    dsimp only
    rw [run_bind_ok hfrontier, run_bind_ok hsend]
    rfl
  have hheard : control.sent.drop site.control.sent.length = acceptancePayloads r.hello reused ++ [] := by
    rw [hsent, List.drop_left, List.append_nil]
  exact ⟨_, _, _, hstart, by rw [hheard, hread]⟩

omit [Sha256] in
/-- The state of a transfer is opened, whatever is there. -/
theorem run_openState_ok (hs : Sited r.pid site.fs.home site.fs.view r.destination) :
    ∃ out t, (ResumeState.openState r.pid r.destination r.identity).run machine site.fs = (.ok out, t) := by
  obtain ⟨t, hrun⟩ := run_openState r.identity hs ⟨rfl, rfl⟩
  split at hrun
  · exact ⟨_, _, hrun.2⟩
  · exact ⟨_, _, hrun.2⟩

omit [Sha256] in
/-- A greeting with a manifest that has been scanned is read. -/
theorem parseHello_reusing (hudp : g.transport = .udp) (hparsed : parseHello g.hello = .ok r.hello)
    (hcount : target.chunks.length ≤ Cdc.maxChunks) :
    parseHello (g.reusing target).hello =
      .ok { r.hello with reuseManifest := some (target.chunks.length, target.hash) } := by
  obtain ⟨htyped, hcheck, heard⟩ := SendGreeting.parseHello_iff.1 hparsed
  refine SendGreeting.parseHello_iff.2 ⟨?_, ?_, ?_⟩
  · refine { htyped with reuse_le := fun found hfound => ?_ }
    cases hfound
    exact hcount
  · obtain ⟨hpayload, hinterval, hchunks, hmax, hgrace, -⟩ := checkHello_iff.1 hcheck
    exact checkHello_iff.2 ⟨hpayload, hinterval, hchunks, hmax, hgrace, fun _ => hudp⟩
  · rw [heard]
    rfl

end

section

variable [Sha256] {g : SendGreeting} {r : UdpReceiver} {object : List UInt8} {path : Path} {clock : Instant}
  {site : Site} {found : Option (List UInt8)}

/-- An object that is in the way of its transfer with reuse is one whose manifest is too long to be announced. -/
theorem announceable_of_reusingStart (h : PlainStart g r object clock site)
    (hreusing : ReusingStart g r object path clock site) : Cdc.Announceable object := by
  obtain ⟨target, hello, _, _, _, hscan, -, hparse, -, hread, -⟩ := hreusing
  have hscanned := Cdc.scanned_of_scan hscan
  have hsize : hello.size = target.size := by
    obtain ⟨-, -, rfl⟩ := SendGreeting.parseHello_iff.1 hparse
    show g.size = target.size
    rw [hscanned.size_eq, h.length]
  rw [hsize] at hread
  refine ⟨?_, (Cdc.readReuseManifest_iff hscanned).1 hread⟩
  rw [← hscanned.lengths, List.length_map]
  exact hscanned.count

/-- A candidate that is there when a transfer with reuse starts is one that can be scanned. -/
theorem scannable_of_reusingStart
    (hs : Sited r.pid site.fs.home site.fs.view r.destination)
    (hcandidate : ∀ file state t,
      (ResumeState.openState r.pid r.destination r.identity).run machine site.fs = (.ok (file, state), t) →
        Candidate t path found)
    (hreusing : ReusingStart g r object path clock site) : ∀ content, found = some content → Cdc.Scannable content := by
  obtain ⟨target, hello, out, t, _, -, -, -, -, -, hstart, -⟩ := hreusing
  obtain ⟨⟨file, state⟩, u, hopen⟩ := run_openState_ok hs
  rintro content rfl
  obtain ⟨place, hplace⟩ := hcandidate file state u hopen
  by_contra hrefused
  have herror : ∃ text, Cdc.scan content.length content = .error text := by
    rcases hscan : Cdc.scan content.length content with text | m
    · exact ⟨text, rfl⟩
    · exact absurd (Cdc.scan_ok_iff.1 ⟨m, hscan⟩) hrefused
  obtain ⟨text, hscan⟩ := herror
  have hfailed : (openReusing (r.reusing hello target path)).run machine site.fs = (.error (.message text), u) := by
    have hrefuse := @run_apply_refused u path place content _ r.pid file state target
      (r.reusing hello target path).hello.chunkLayout text hplace hscan
    have hreusing : (openReusing (r.reusing hello target path)).run machine site.fs = _ :=
      run_bind_ok hopen
    rw [hreusing]
    exact run_bind_error hrefuse
  obtain ⟨_, _, hfiles, -⟩ := run_bind_eq_ok hstart
  rw [run_onFiles, hfailed] at hfiles
  cases hfiles

/-- A receiver opens its state and reuses what it can of a candidate that is absent or can be scanned. -/
theorem openReusing_ok (hr : r.Invoked) (hs : Sited r.pid site.fs.home site.fs.view r.destination)
    (hcandidate : ∀ file state t,
      (ResumeState.openState r.pid r.destination r.identity).run machine site.fs = (.ok (file, state), t) →
        Candidate t path found)
    (hscannable : ∀ content, found = some content → Cdc.Scannable content) {target : Cdc.Manifest}
    (hreuse : r.reuse = some (target, path)) :
    ∃ out t, (openReusing r).run machine site.fs = (.ok out, t) := by
  have hb := hr.able.bounded
  obtain ⟨⟨file, state⟩, u, hopen⟩ := run_openState_ok hs
  have hopened : Opened r file { resume := state } u :=
    returns_openState hr.identity hs _ _ (Succeeds.of_run hopen)
  have happly : ∃ reused t, (applyReusableContent r.pid file state target path r.hello.chunkLayout).run
      machine u = (.ok reused, t) := by
    have hfound := hcandidate file state u hopen
    rcases found with _ | content
    · exact ⟨_, _, run_apply_absent hfound⟩
    · obtain ⟨place, hplace⟩ := hfound
      obtain ⟨candidate, hscan⟩ := Cdc.scan_ok_iff.2 (hscannable content rfl)
      obtain ⟨count, hash, payloads, hread⟩ := hr.manifest target path hreuse
      obtain ⟨before, hlength, hd⟩ := hopened.disk
      exact run_apply_found hb hopened.bitmap hopened.count hopened.mapPath
        (Cdc.laid_of_readReuseManifest hread) hd hlength hplace hscan
  obtain ⟨reused, t, happly⟩ := happly
  refine ⟨(file, reused), t, ?_⟩
  rw [openReusing, run_bind_ok hopen]
  dsimp only
  rw [hreuse]
  dsimp only
  rw [run_bind_ok happly]
  rfl

theorem reusingStart_of_announceable (h : PlainStart g r object clock site)
    (hs : Sited r.pid site.fs.home site.fs.view r.destination) (hfates : false ∉ site.control.fates)
    (hcandidate : ∀ file state t,
      (ResumeState.openState r.pid r.destination r.identity).run machine site.fs = (.ok (file, state), t) →
        Candidate t path found)
    (hobject : Cdc.Announceable object) (hscannable : ∀ content, found = some content → Cdc.Scannable content) :
    ReusingStart g r object path clock site := by
  obtain ⟨hcount, hbody⟩ := hobject
  obtain ⟨target, hscan⟩ := Cdc.scan_ok_iff.2 (show Cdc.Scannable object from ⟨hcount, by omega⟩)
  have hscanned := Cdc.scanned_of_scan hscan
  have hparse := @parseHello_reusing g r target h.udp h.parsed hscanned.count
  obtain ⟨htyped, -, heard⟩ := SendGreeting.parseHello_iff.1 h.parsed
  have hsize : target.size = r.hello.size := by
    rw [hscanned.size_eq, h.length, heard]
    rfl
  have hread := (Cdc.readReuseManifest_iff hscanned).2 hbody
  rw [hsize] at hread
  have hr : (r.reusing { r.hello with reuseManifest := some (target.chunks.length, target.hash) } target
      path).Invoked := by
    refine ⟨⟨_, hparse⟩, h.identity, fun m candidate hreuse => ?_⟩
    cases hreuse
    exact ⟨_, _, _, hread⟩
  have hinterval : r.hello.reportInterval < 2 ^ 64 := heard ▸ htyped.reportInterval_lt
  obtain ⟨out, t, hopen⟩ := openReusing_ok hr hs hcandidate hscannable rfl
  obtain ⟨out, t, acceptance, hstart, hanswer⟩ :=
    @start_of_openReusing _ (r.reusing _ target path) clock site out t hr hinterval hs hfates hopen
  have hsame : r.hello.chunks = g.chunks ∧ r.hello.payloadBytes = g.payloadBytes ∧
      r.hello.reportInterval = g.reportInterval := by
    rw [heard]
    exact ⟨rfl, rfl, rfl⟩
  obtain ⟨hchunks, hpayload, hreport⟩ := hsame
  refine ⟨target, _, out, t, acceptance, hscan, Cdc.controlPayload_manifestPayloads hscanned, hparse, rfl, hread,
    hstart, ?_⟩
  rw [← hchunks, ← hpayload, ← hreport]
  exact hanswer

/-- A transfer that comes to its loop without content reuse comes there with it if and only if the manifest of
its object can be announced and the candidate, if there is one, can be scanned. -/
theorem reuse_falls_back_iff (h : PlainStart g r object clock site)
    (hs : Sited r.pid site.fs.home site.fs.view r.destination) (hfates : false ∉ site.control.fates)
    (hcandidate : ∀ file state t,
      (ResumeState.openState r.pid r.destination r.identity).run machine site.fs = (.ok (file, state), t) →
        Candidate t path found) :
    ReusingStart g r object path clock site ↔
      Cdc.Announceable object ∧ ∀ content, found = some content → Cdc.Scannable content := by
  constructor
  · intro hreusing
    exact ⟨announceable_of_reusingStart h hreusing, scannable_of_reusingStart hs hcandidate hreusing⟩
  · rintro ⟨hobject, hscannable⟩
    exact reusingStart_of_announceable h hs hfates hcandidate hobject hscannable

end

/-! ## A receiver in an empty directory -/

section Example

/-- The greeting for an object of a size, with the largest payloads. -/
def freshGreeting (size : Nat) (hash : Hash) : SendGreeting where
  transport := .udp
  size
  expectedHash := hash
  offeredSession := Vector.replicate 16 0
  chunks := (size + maxUdpPayloadBytes - 1) / maxUdpPayloadBytes
  payloadBytes := maxUdpPayloadBytes
  reportInterval := 100
  repairGrace := 200
  reuse := none

def freshIdentity (size : Nat) (hash : Hash) (h : size < 2 ^ 40) : Identity where
  size
  chunks := (size + maxUdpPayloadBytes - 1) / maxUdpPayloadBytes
  payloadBytes := maxUdpPayloadBytes
  hash
  size_lt := Nat.lt_trans h (by decide)
  chunks_lt := Nat.lt_of_le_of_lt (Nat.div_le_self _ _) (by
    have hmax : maxUdpPayloadBytes = 1424 := rfl
    omega)
  payloadBytes_lt := by decide

def freshReceiver (size : Nat) (hash : Hash) (h : size < 2 ^ 40) : UdpReceiver where
  pid := 7
  destination := singleFile
  hello := (freshGreeting size hash).heard
  identity := freshIdentity size hash h
  key := Vector.replicate 32 0

def freshSite : Site := ⟨FS.empty, {}⟩

variable {size : Nat} {hash : Hash} {object : List UInt8}

theorem parseHello_fresh (h : size < 2 ^ 40) (hchunks : (freshGreeting size hash).chunks ≤ maxChunks) :
    parseHello (freshGreeting size hash).hello = .ok (freshGreeting size hash).heard := by
  have hlimit : maxChunks < 2 ^ 64 := by decide
  refine SendGreeting.parseHello_iff.2 ⟨⟨?_, ?_, ?_, ?_, ?_, fun _ hr => nomatch hr⟩, ?_, rfl⟩
  · show size < 2 ^ 64
    omega
  · omega
  · show maxUdpPayloadBytes < 2 ^ 64
    decide
  · show 100 < 2 ^ 64
    decide
  · show 200 < 2 ^ 64
    decide
  · have hpayload : minUdpPayloadBytes ≤ maxUdpPayloadBytes ∧ maxUdpPayloadBytes ≤ maxUdpPayloadBytes := by decide
    have hinterval : minReportInterval ≤ 100 ∧ 100 ≤ maxReportInterval := by decide
    have hgrace : 100 ≤ 200 ∧ 200 ≤ maxRepairGrace := by decide
    exact checkHello_iff.2 ⟨hpayload, hinterval, rfl, hchunks, hgrace, fun _ => rfl⟩

theorem identity_fresh (h : size < 2 ^ 40) :
    (freshReceiver size hash h).hello.identity = some (freshReceiver size hash h).identity := by
  have hdecode : Auth.decodeArray 32 (hex hash.toList) =
      .ok hash.toList := Auth.decodeArray_hex Vector.length_toList
  have hhello : (freshReceiver size hash h).hello.hash = hex hash.toList := rfl
  rw [Hello.identity, hhello, hdecode]
  have hsize : hash.toList.toArray.size = 32 := by simp
  exact dif_pos ⟨hsize, (freshIdentity size hash h).size_lt, (freshIdentity size hash h).chunks_lt,
    (freshIdentity size hash h).payloadBytes_lt⟩

/-- The transfer of an object that is not too large starts in an empty directory. -/
theorem plainStart_fresh [Sha256] (h : size < 2 ^ 40) (hlength : object.length = size)
    (hchunks : (freshGreeting size hash).chunks ≤ maxChunks) :
    PlainStart (freshGreeting size hash) (freshReceiver size hash h) object 0 freshSite := by
  have hparse := parseHello_fresh h hchunks
  have hr : (freshReceiver size hash h).Invoked :=
    ⟨⟨_, hparse⟩, identity_fresh h, fun _ _ hreuse => nomatch hreuse⟩
  obtain ⟨⟨file, state⟩, t, hopen⟩ := @run_openState_ok (freshReceiver size hash h) freshSite (sited_empty 7)
  have hrun : (openReusing (freshReceiver size hash h)).run machine freshSite.fs =
      (.ok (file, { resume := state }), t) := run_bind_ok hopen
  have hinterval : (freshReceiver size hash h).hello.reportInterval < 2 ^ 64 := by
    show 100 < 2 ^ 64
    decide
  obtain ⟨out, t, _, hstart, -⟩ :=
    @start_of_openReusing _ (freshReceiver size hash h) 0 freshSite _ t hr hinterval (sited_empty 7) (by simp [freshSite]) hrun
  exact ⟨rfl, ⟨rfl, rfl⟩, hlength, hparse, identity_fresh h, out, t, hstart⟩

/-- The destination itself is no candidate there. -/
theorem candidate_fresh (h : size < 2 ^ 40) {file : Loc} {state : ResumeState} {t : FS}
    (hrun : (ResumeState.openState 7 singleFile (freshIdentity size hash h)).run machine freshSite.fs =
      (.ok (file, state), t)) : Candidate t singleFile none := by
  have hopened : Opened (freshReceiver size hash h) file { resume := state } t :=
    returns_openState (identity_fresh h) (sited_empty 7) _ _ (Succeeds.of_run hrun)
  obtain ⟨content, -, hd⟩ := hopened.disk
  obtain ⟨u, hopen⟩ := run_openState (freshIdentity size hash h) (sited_empty 7) ⟨rfl, rfl⟩
  have hnothing : resumeFrom (freshIdentity size hash h)
      (FS.empty.view (FS.empty.home ++ (mapOf singleFile).names))
      (FS.empty.view (FS.empty.home ++ (partOf singleFile).names)) = none := rfl
  rw [hnothing] at hopen
  obtain ⟨⟨hhome, hview⟩, hopen⟩ := hopen
  have hsame : t = u := (Prod.mk.inj (hrun.symm.trans hopen)).2
  subst hsame
  have hnone : t.view (t.home ++ singleFile.names) = none := by
    rw [hview, hhome, checkpointed, Function.update_of_ne, Function.update_of_ne, emptied, Function.update_of_ne]
    · rfl
    · decide
    · decide
    · decide
  have hresolve : t.resolve true singleFile = .ok (t.home ++ singleFile.names) :=
    resolve_real (by decide) hd.sited.dirs (fun _ target htarget => by rw [hnone] at htarget; cases htarget)
  show (FS.exec (.stat singleFile) t).1 = .error .notFound
  rw [exec_stat hresolve, metadataAt_none hnone]

/-- The rule, for an object of one byte. -/
theorem reuse_falls_back_byte :
    @ReusingStart sha2 (freshGreeting 1 (sha2.digest [7])) (freshReceiver 1 (sha2.digest [7]) (by decide)) [7] singleFile 0 freshSite := by
  have hlt : 1 < 2 ^ 40 := by decide
  have hplain : @PlainStart sha2 (freshGreeting 1 (sha2.digest [7])) (freshReceiver 1 (sha2.digest [7]) (by decide)) [7] 0 freshSite :=
    @plainStart_fresh 1 (sha2.digest [7]) [7] sha2 hlt rfl (show (1 + 1424 - 1) / 1424 ≤ maxChunks by decide)
  refine (@reuse_falls_back_iff sha2 _ _ _ _ _ _ none hplain (sited_empty 7) (by simp [freshSite])
    (fun file state t hrun => candidate_fresh hlt hrun)).2 ⟨?_, nofun⟩
  have hpieces : Cdc.pieceLengths [7] = [1] := by decide
  constructor
  · rw [hpieces]
    decide
  · rw [Cdc.bodyLength, hpieces]
    decide

/-- Whatever the hash function, content reuse is in the way of an object of 13076201472 bytes. -/
theorem not_reuse_falls_back :
    ¬∃ _ : Sha256, ∀ (g : SendGreeting) (r : UdpReceiver) (object : List UInt8) (path : Path) (clock : Instant)
      (site : Site) (found : Option (List UInt8)),
      PlainStart g r object clock site → Sited r.pid site.fs.home site.fs.view r.destination →
      false ∉ site.control.fates →
      (∀ file state t,
        (ResumeState.openState r.pid r.destination r.identity).run machine site.fs = (.ok (file, state), t) →
          Candidate t path found) →
      ReusingStart g r object path clock site := by
  rintro ⟨_, h⟩
  have hsize := Cdc.length_flatten_atLimit 797452 41
  have hlt : 797452 * 16384 + 41 * 262144 < 2 ^ 40 := by decide
  have hchunks : (797452 * 16384 + 41 * 262144 + 1424 - 1) / 1424 ≤ maxChunks := by decide
  have hplain := @plainStart_fresh _ (Sha256.digest (Cdc.atLimit 797452 41).flatten) _ _ hlt hsize hchunks
  have hreusing := h _ _ _ singleFile _ _ none hplain (sited_empty 7) (by simp [freshSite])
    (fun file state t hrun => candidate_fresh hlt hrun)
  obtain ⟨-, hbody⟩ := announceable_of_reusingStart hplain hreusing
  obtain ⟨_, -, hlimit⟩ := Cdc.scan_atLimit
  have hmax : Cdc.maxEncodedBytes = 67108864 := rfl
  omega

end Example

end PacketTide
