import PacketTide.Proofs.AcceptanceProofs
import PacketTide.Proofs.DeliveryProofs
import PacketTide.Proofs.SiteProofs
import PacketTide.SendTcp
import PacketTide.Sha2

/-!
# TCP and the control channel

The sender does not count the bytes that it writes. So the receiver finds its way back to the frames exactly if
the file has not changed its size, or if the sender fails for some other reason.
-/

namespace PacketTide

open Effects FileSystem Prog Text

/-! ## Reading -/

section Reading

variable {stream : DataStream} {count : Nat}

theorem leadingBytes_append (bytes : List UInt8) (rest : List (Except Errno UInt8)) :
    leadingBytes (bytes.map .ok ++ rest) = bytes ++ leadingBytes rest := by
  induction bytes with
  | nil => rfl
  | cons b bytes ih => exact congrArg (b :: ·) ih

/-- Some of the bytes that come next are taken. -/
theorem take_leadingBytes (input : List (Except Errno UInt8)) (count : Nat) :
    input = ((leadingBytes input).take count).map .ok ++ input.drop ((leadingBytes input).take count).length := by
  induction input generalizing count with
  | nil => cases count <;> rfl
  | cons next input ih =>
    rcases next with e | b
    · cases count <;> rfl
    · rcases count with _ | count
      · rfl
      · exact congrArg (.ok b :: ·) (ih count)

/-- A read fails, or finds the end, or takes some of the bytes that come next. -/
theorem read_cases (stream : DataStream) (hcount : 0 < count) :
    (∃ e input, stream.input = .error e :: input ∧ stream.read count = (.error e, { stream with input })) ∨
    (∃ left, stream.input = [] ∧ stream.read count = (.ok [], left)) ∨
    ∃ b bytes rest sizes, bytes.length + 1 ≤ count ∧ stream.input = (b :: bytes).map .ok ++ rest ∧
      stream.read count = (.ok (b :: bytes), ⟨rest, sizes⟩) := by
  obtain ⟨input, sizes⟩ := stream
  rcases input with _ | ⟨e | b, input⟩
  · have hread : DataStream.read ⟨[], sizes⟩ count = (.ok (([] : List UInt8).take _),
        ⟨([] : List (Except Errno UInt8)).drop (([] : List UInt8).take _).length, sizes.tail⟩) := rfl
    rw [List.take_nil] at hread
    exact .inr (.inl ⟨_, rfl, hread⟩)
  · exact .inl ⟨e, input, rfl, rfl⟩
  · obtain ⟨most, hpos, hmost, hread⟩ : ∃ most, 0 < most ∧ most ≤ count ∧
        DataStream.read ⟨.ok b :: input, sizes⟩ count = (.ok ((b :: leadingBytes input).take most),
          ⟨(Except.ok b :: input).drop ((b :: leadingBytes input).take most).length, sizes.tail⟩) := by
      rcases sizes with _ | ⟨more, sizes⟩
      · exact ⟨count, hcount, le_rfl, rfl⟩
      · exact ⟨min count (more + 1), by omega, Nat.min_le_left _ _, rfl⟩
    obtain ⟨most, rfl⟩ := Nat.exists_eq_succ_of_ne_zero hpos.ne'
    have hlength : ((leadingBytes input).take most).length + 1 ≤ count := by
      rw [List.length_take]
      omega
    refine .inr (.inr ⟨b, (leadingBytes input).take most, input.drop ((leadingBytes input).take most).length,
      sizes.tail, hlength, ?_, ?_⟩)
    · exact congrArg (.ok b :: ·) (take_leadingBytes input most)
    · rw [hread]
      rfl

end Reading

/-! ## Writing the file -/

section Writing

variable {file : DataStream} {out : BulkStream} {content : List UInt8} {n : Nat}

/-- The connection does not break before so many bytes have been written. -/
def BulkStream.Holds (out : BulkStream) (count : Nat) : Prop :=
  ∀ left e, out.breaks = some (left, e) → count ≤ left

theorem writeAll_cases (out : BulkStream) (bytes : List UInt8) :
    (out.Holds bytes.length ∧ ∃ breaks, out.writeAll bytes = (.ok (), ⟨out.written ++ bytes, breaks⟩) ∧
      ∀ count, BulkStream.Holds ⟨out.written ++ bytes, breaks⟩ count ↔ out.Holds (bytes.length + count)) ∨
    ¬out.Holds bytes.length ∧ ∃ e out', out.writeAll bytes = (.error e, out') := by
  obtain ⟨written, _ | ⟨left, e⟩⟩ := out
  · refine .inl ⟨?_, none, rfl, fun count => ⟨fun _ => ?_, fun _ => ?_⟩⟩
    · rintro left e ⟨⟩
    · rintro left e ⟨⟩
    · rintro left e ⟨⟩
  · by_cases hle : bytes.length ≤ left
    · refine .inl ⟨?_, some (left - bytes.length, e), if_pos hle, fun count => ⟨fun h => ?_, fun h => ?_⟩⟩
      · rintro left e ⟨⟩
        exact hle
      · rintro left e ⟨⟩
        have hcount := h _ _ rfl
        omega
      · rintro left e ⟨⟩
        have hcount := h _ _ rfl
        omega
    · refine .inr ⟨fun h => hle (h left e rfl), .io e, _, if_neg hle⟩

/-- The whole file is written if it can be read to its end and the connection does not break. -/
theorem sendTcp_ok (hread : file.input = content.map .ok) (hholds : out.Holds content.length)
    (hn : file.input.length < n) :
    ∃ breaks, sendTcp n file out = (.ok (), ⟨out.written ++ content, breaks⟩) := by
  induction n generalizing file out content with
  | zero => omega
  | succ n ih =>
    rcases @read_cases bulkBufferLen file (by decide) with ⟨e, input, hinput, -⟩ | ⟨left, hinput, hfile⟩ |
      ⟨b, bytes, rest, sizes, -, hinput, hfile⟩
    · rw [hread] at hinput
      rcases content with _ | ⟨c, content⟩ <;> cases hinput
    · rw [hread, List.map_eq_nil_iff] at hinput
      subst hinput
      refine ⟨out.breaks, ?_⟩
      rw [sendTcp, hfile, List.append_nil]
    · obtain ⟨piece, content, rfl, hpiece, hrest⟩ := List.map_eq_append_iff.1 (hread.symm.trans hinput)
      obtain rfl := List.map_injective_iff.2 (fun _ _ h => Except.ok.inj h) hpiece
      rw [List.length_append] at hholds
      rw [hinput, List.length_append, List.length_map, List.length_cons] at hn
      rcases writeAll_cases out (b :: bytes) with ⟨-, breaks, hwrite, hleft⟩ | ⟨hshort, -⟩
      · obtain ⟨breaks, hsend⟩ := @ih ⟨rest, sizes⟩ _ content hrest.symm ((hleft _).2 hholds) (by dsimp only; omega)
        refine ⟨breaks, ?_⟩
        rw [sendTcp, hfile]
        dsimp only
        rw [hwrite]
        dsimp only
        rw [hsend, List.append_assoc]
      · refine absurd (fun left e h => ?_) hshort
        have hcount := hholds left e h
        omega

/-- The sender comes to the end only if it has written the whole file. -/
theorem written_of_sendTcp {out' : BulkStream} (hn : file.input.length < n)
    (h : sendTcp n file out = (.ok (), out')) :
    ∃ content, file.input = content.map .ok ∧ out.Holds content.length ∧ out'.written = out.written ++ content := by
  induction n generalizing file out with
  | zero => omega
  | succ n ih =>
    rw [sendTcp] at h
    rcases @read_cases bulkBufferLen file (by decide) with ⟨e, input, -, hfile⟩ | ⟨left, hinput, hfile⟩ |
      ⟨b, bytes, rest, sizes, -, hinput, hfile⟩
    · rw [hfile] at h
      cases h
    · rw [hfile] at h
      cases h
      exact ⟨[], hinput, fun left e _ => Nat.zero_le left, (List.append_nil _).symm⟩
    · rw [hinput, List.length_append, List.length_map, List.length_cons] at hn
      rw [hfile] at h
      dsimp only at h
      rcases writeAll_cases out (b :: bytes) with ⟨-, breaks, hwrite, hleft⟩ | ⟨-, e, broken, hwrite⟩
      · rw [hwrite] at h
        obtain ⟨content, hrest, hholds, hwritten⟩ := @ih ⟨rest, sizes⟩ _ (by dsimp only; omega) h
        refine ⟨b :: bytes ++ content, ?_, ?_, ?_⟩
        · rw [hinput, List.map_append]
          exact congrArg _ hrest
        · rw [List.length_append]
          exact (hleft _).1 hholds
        · rw [hwritten, List.append_assoc]
      · rw [hwrite] at h
        cases h

end Writing

/-! ## The sender -/

section Sender

variable [Sha256] {s : TcpSend} {raw content : List UInt8}

/-- The message by which the sender vouches for the acknowledgement. -/
def ackInput (auth : Auth.SessionAuth) : List UInt8 :=
  Auth.controlMacInput auth.session .clientToServer 0 (ascii "COMPLETE_ACK")

/-- The acknowledgement is written and vouched for, or neither. -/
theorem acknowledge_cases (s : TcpSend) (raw : List UInt8) :
    ((∀ e, s.failures.head? ≠ some (some e)) ∧ ∃ failures, s.acknowledge raw = {
        result := .ok (), raw
        control := {
          failures
          output := [Auth.frameLine s.auth .clientToServer 0 (ascii "COMPLETE_ACK")]
          vouched := [(s.auth.c2s, ackInput s.auth)] } }) ∨
    (∃ e, s.failures.head? = some (some e)) ∧
      ∃ e control, s.acknowledge raw = { result := .error e, raw, control } ∧ control.vouched = [] := by
  have hpayload : controlPayload (ascii "COMPLETE_ACK") := by decide
  unfold TcpSend.acknowledge Auth.ControlWriter.send
  rw [if_neg (not_not.2 hpayload)]
  rcases hfailures : s.failures with _ | ⟨_ | e, failures⟩
  · exact .inl ⟨fun e h => (nomatch h), [], rfl⟩
  · exact .inl ⟨fun e h => (nomatch h), failures, rfl⟩
  · exact .inr ⟨⟨e, rfl⟩, _, _, rfl, rfl⟩

omit [Sha256] in
/-- The receiver accepts, and what comes next is left. -/
theorem readAcceptance_ready {greeting : SendGreeting} (lines : List Str) :
    readAcceptance .tcp greeting.chunks greeting.payloadBytes greeting.reportInterval
      ((ascii "READY " ++ decimal greeting.payloadBytes ++ space :: decimal greeting.reportInterval) :: lines) =
        .ok ({}, lines) := by
  obtain ⟨hready, hcomplete⟩ := ready_cases greeting.payloadBytes greeting.reportInterval
  have htcp : Transport.tcp ≠ Transport.udp := by decide
  rw [readAcceptance, nextLine, check_bind]
  simp only [hready, Bool.false_eq_true, if_false]
  rw [pure_bind]
  simp only [if_neg hcomplete]
  rw [if_neg (not_not.2 rfl), if_pos htcp]
  rfl

/-- Nothing stops the sender: it writes the whole file and the acknowledgement. -/
theorem run_of_completes (h : s.Completes content) :
    s.run.result = .ok () ∧ s.run.raw = content ∧
      s.run.control.output = [Auth.frameLine s.auth .clientToServer 0 (ascii "COMPLETE_ACK")] ∧
      s.run.control.vouched = [(s.auth.c2s, ackInput s.auth)] := by
  obtain ⟨rest, hlines⟩ := h.confirmed
  obtain ⟨breaks, hsend⟩ := @sendTcp_ok s.file { breaks := s.breaks } content _ h.read h.written
    (Nat.lt_succ_self _)
  unfold TcpSend.run
  rw [hlines, readAcceptance_ready]
  dsimp only
  rw [if_neg Bool.false_ne_true, hsend]
  dsimp only [TcpSend.expectCompletion, nextLine]
  rw [if_neg (not_not.2 rfl)]
  rcases acknowledge_cases s ([] ++ content) with ⟨-, failures, hrun⟩ | ⟨⟨e, hfailed⟩, -⟩
  · rw [hrun]
    exact ⟨rfl, rfl, rfl, rfl⟩
  · exact absurd hfailed (h.acknowledged e)

/-- The sender vouches for the acknowledgement only if it returns. -/
theorem result_of_vouched (h : s.run.control.vouched ≠ []) : s.run.result = .ok () := by
  have hack : ∀ raw, (s.acknowledge raw).control.vouched ≠ [] → (s.acknowledge raw).result = .ok () := by
    intro raw hvouched
    rcases acknowledge_cases s raw with ⟨-, failures, hrun⟩ | ⟨-, e, control, hrun, hnone⟩
    · rw [hrun]
    · rw [hrun] at hvouched
      exact absurd hnone hvouched
  revert h
  unfold TcpSend.run
  split
  · intro h
    exact absurd rfl h
  · split
    · exact hack []
    · split
      · intro h
        exact absurd rfl h
      · unfold TcpSend.expectCompletion
        split
        · intro h
          exact absurd rfl h
        · split
          · intro h
            exact absurd rfl h
          · exact hack _

/-- A sender that has been told to go on and returns has not been stopped. -/
theorem completes_of_run {lines : List Str}
    (hlines : s.lines = (ascii "READY " ++ decimal s.greeting.payloadBytes ++
      space :: decimal s.greeting.reportInterval) :: lines)
    (h : s.run.result = .ok ()) : ∃ content, s.Completes content := by
  unfold TcpSend.run at h
  rw [hlines, readAcceptance_ready] at h
  dsimp only at h
  rw [if_neg Bool.false_ne_true] at h
  rcases hsend : sendTcp (s.file.input.length + 1) s.file { breaks := s.breaks } with ⟨e | u, out⟩
  · rw [hsend] at h
    cases h
  obtain ⟨content, hread, hholds, -⟩ := written_of_sendTcp (Nat.lt_succ_self _) hsend
  rw [hsend] at h
  dsimp only at h
  rcases lines with _ | ⟨completion, lines⟩
  · cases h
  dsimp only [TcpSend.expectCompletion, nextLine] at h
  by_cases hcompletion : completion = ascii "COMPLETE"
  · rw [if_neg (not_not.2 hcompletion)] at h
    rcases acknowledge_cases s out.written with ⟨hwrites, -⟩ | ⟨-, e, control, hrun, -⟩
    · exact ⟨content, hread, hholds, ⟨lines, hcompletion ▸ hlines⟩, hwrites⟩
    · rw [hrun] at h
      cases h
  · rw [if_pos hcompletion] at h
    cases h

end Sender

/-! ## The receiver -/

section Receiver

variable {α : Type} {site : Site} {answer : Except AnyError Str}

/-- Programs over files send nothing. -/
theorem concludes_onFiles (p : FsProg α) (site : Site) :
    Concludes siteMachine siteRefuse (onFiles p) (fun _ t => t.control = site.control) site := by
  induction p generalizing site with
  | done r => exact concludes_done rfl
  | call c next ih => exact concludes_call (fun e => ih _ site) (ih _ { site with fs := (FS.exec c site.fs).2 })

/-- A payload is sent, or the write fails. -/
theorem concludes_sendControl (payload : Str) (site : Site) :
    Concludes siteMachine siteRefuse (sendControl payload) (fun r t =>
      t.control.sent = site.control.sent ++ match r with
        | .ok _ => [payload]
        | .error _ => []) site := by
  have hsent := sent_attempt site.control payload
  refine concludes_call (fun e => concludes_done (List.append_nil _).symm) ?_
  have hexec : siteMachine.exec (.send payload) site =
      ((site.control.attempt payload).1, ⟨site.fs, (site.control.attempt payload).2⟩) := rfl
  rw [hexec]
  dsimp only
  rcases hr : (site.control.attempt payload).1 with e | u
  · rw [hr] at hsent
    exact concludes_done hsent
  · rw [hr] at hsent
    exact concludes_done hsent

/-- How a receiver ends, by the payloads before and after: it fails without having confirmed the transfer, or it
has confirmed it and succeeds if that is acknowledged. -/
def Confirms (answer : Except AnyError Str) (before : List Str) (result : Except AnyError Unit)
    (after : List Str) : Prop :=
  (∃ e, result = .error e) ∧ (after = before ∨ after = before ++ [ascii "ERROR hash-mismatch"]) ∨
    after = before ++ [ascii "COMPLETE"] ∧ (result = .ok () ↔ answer = .ok (ascii "COMPLETE_ACK"))

theorem confirms_silent (answer : Except AnyError Str) (before : List Str) (e : AnyError) :
    Confirms answer before (.error e) before := .inl ⟨⟨e, rfl⟩, .inl rfl⟩

/-- A program over files comes before what confirms the transfer. -/
theorem Confirms.onFiles {p : FsProg α} {next : α → SiteProg Unit} (before : List Str)
    (hbefore : site.control.sent = before)
    (h : ∀ a t, t.control.sent = before →
      Concludes siteMachine siteRefuse (next a) (fun r u => Confirms answer before r u.control.sent) t) :
    Concludes siteMachine siteRefuse (PacketTide.onFiles p >>= next)
      (fun r u => Confirms answer before r u.control.sent) site := by
  refine concludes_bind ((concludes_onFiles p site).mono fun r t ht => ?_)
  have hsent : t.control.sent = before := by rw [ht, hbefore]
  rcases r with e | a
  · show Confirms answer before (.error e) t.control.sent
    rw [hsent]
    exact confirms_silent answer before e
  · exact h a t hsent

theorem confirms_sendCompletion {before : List Str} (hbefore : site.control.sent = before) :
    Concludes siteMachine siteRefuse (sendCompletionAndWait answer)
      (fun r u => Confirms answer before r u.control.sent) site := by
  refine concludes_bind ((concludes_sendControl _ site).mono fun r t ht => ?_)
  rw [hbefore] at ht
  rcases r with e | u
  · rw [List.append_nil] at ht
    show Confirms answer before (.error e) t.control.sent
    rw [ht]
    exact confirms_silent answer before e
  · rcases answer with e | acknowledgement
    · refine concludes_done (.inr ⟨ht, ?_⟩)
      constructor <;> intro h <;> cases h
    · by_cases hack : acknowledgement = ascii "COMPLETE_ACK"
      · refine concludes_bind (concludes_done ?_)
        show Concludes siteMachine siteRefuse (if acknowledgement ≠ ascii "COMPLETE_ACK" then _ else _) _ _
        rw [if_neg (not_not.2 hack)]
        exact concludes_done (.inr ⟨ht, fun _ => by rw [hack], fun _ => rfl⟩)
      · refine concludes_bind (concludes_done ?_)
        show Concludes siteMachine siteRefuse (if acknowledgement ≠ ascii "COMPLETE_ACK" then _ else _) _ _
        rw [if_pos hack]
        refine concludes_done (.inr ⟨ht, fun h => ?_, fun h => absurd (Except.ok.inj h) hack⟩)
        cases h

/-- The end of a transfer over one connection or four: the file is checked, installed and confirmed. -/
theorem confirms_completeTcp [Sha256] {before : List Str} {temporary destination : Path} {hello : Hello}
    {file : Loc} {hashed : List UInt8} (hbefore : site.control.sent = before) :
    Concludes siteMachine siteRefuse (completeTcp temporary destination hello file hashed answer)
      (fun r u => Confirms answer before r u.control.sent) site := by
  refine Confirms.onFiles before hbefore fun _ t ht => ?_
  by_cases hhash : hex (Sha256.digest hashed).bytes ≠ hello.hash
  · rw [if_pos hhash]
    refine concludes_bind ((concludes_sendControl _ t).mono fun r u hu => ?_)
    rw [ht] at hu
    rcases r with e | _
    · rw [List.append_nil] at hu
      show Confirms answer before (.error e) u.control.sent
      rw [hu]
      exact confirms_silent answer before e
    · exact concludes_done (.inl ⟨⟨_, rfl⟩, .inr hu⟩)
  · rw [if_neg hhash]
    exact Confirms.onFiles before ht fun _ u hu => confirms_sendCompletion hu

theorem confirms_receiveTcp [Sha256] {before : List Str} {temporary destination : Path} {hello : Hello}
    {stream : DataStream} (hbefore : site.control.sent = before) :
    Concludes siteMachine siteRefuse (receiveTcp temporary destination hello stream answer)
      (fun r u => Confirms answer before r u.control.sent) site := by
  refine Confirms.onFiles before hbefore fun file t ht => ?_
  exact Confirms.onFiles before ht fun received u hu => confirms_completeTcp hu

end Receiver

/-! ## Both ends -/

namespace TcpRun

variable [Sha256] {r : TcpRun}

/-- What the receiver says, and whether it succeeds. -/
theorem Connected.receiver_cases (h : r.Connected) :
    (∃ e, r.receiver.1 = .error e) ∧ r.sender.lines = [] ∨
      Confirms r.answer [ascii "READY " ++ decimal r.sender.greeting.payloadBytes ++
        space :: decimal r.sender.greeting.reportInterval] r.receiver.1 r.sender.lines := by
  have hready : readyPayload r.hello = ascii "READY " ++ decimal r.sender.greeting.payloadBytes ++
      space :: decimal r.sender.greeting.reportInterval := by
    unfold readyPayload
    rw [h.payloadBytes_eq, h.reportInterval_eq]
  rw [h.lines, ← hready]
  have hends : Concludes siteMachine siteRefuse (receiveOnTcp r.temporary r.destination r.hello
      { input := r.stream.map .ok, sizes := r.sizes } r.answer) (fun result t =>
        (∃ e, result = .error e) ∧ t.control.sent = [] ∨
          Confirms r.answer [readyPayload r.hello] result t.control.sent) r.site := by
    refine concludes_bind ((concludes_sendControl _ r.site).mono fun result t ht => ?_)
    rw [h.fresh] at ht
    rcases result with e | u
    · exact .inl ⟨⟨e, rfl⟩, ht⟩
    · exact (confirms_receiveTcp ht).mono fun _ _ hconfirms => .inr hconfirms
  exact hends r.plan _ _ _ rfl

/-- A sender that returns has not been stopped, and the receiver has confirmed the transfer. -/
theorem Connected.completes (h : r.Connected) (hok : r.sender.run.result = .ok ()) :
    (∃ content, r.sender.Completes content) ∧
      (r.receiver.1 = .ok () ↔ r.answer = .ok (ascii "COMPLETE_ACK")) := by
  rcases h.receiver_cases with ⟨-, hnone⟩ | hconfirms
  · unfold TcpSend.run at hok
    rw [hnone] at hok
    cases hok
  have hready : ∃ lines, r.sender.lines = (ascii "READY " ++ decimal r.sender.greeting.payloadBytes ++
      space :: decimal r.sender.greeting.reportInterval) :: lines := by
    rcases hconfirms with ⟨-, hlines | hlines⟩ | ⟨hlines, -⟩
    · exact ⟨_, hlines⟩
    · exact ⟨_, hlines⟩
    · exact ⟨_, hlines⟩
  obtain ⟨lines, hlines⟩ := hready
  obtain ⟨content, hcompletes⟩ := completes_of_run hlines hok
  refine ⟨⟨content, hcompletes⟩, ?_⟩
  obtain ⟨rest, hconfirmed⟩ := hcompletes.confirmed
  rcases hconfirms with ⟨-, hsilent | herror⟩ | ⟨-, hiff⟩
  · rw [hsilent] at hconfirmed
    cases hconfirmed
  · rw [herror] at hconfirmed
    have hline := (List.cons.inj (List.cons.inj hconfirmed).2).1
    exact absurd hline (by decide)
  · exact hiff

/-- A receiver that succeeds has read the acknowledgement of a sender that has returned. -/
theorem Connected.result_of_received (h : r.Connected) (hok : r.receiver.1 = .ok ()) :
    r.sender.run.result = .ok () := by
  have hanswer : r.answer = .ok (ascii "COMPLETE_ACK") := by
    rcases h.receiver_cases with ⟨⟨e, herror⟩, -⟩ | ⟨⟨e, herror⟩, -⟩ | ⟨-, hiff⟩
    · rw [hok] at herror
      cases herror
    · rw [hok] at herror
      cases herror
    · exact hiff.1 hok
  refine result_of_vouched fun hnone => ?_
  have haccepted : ∃ m, m ∈ r.reading.2.accepted := by
    have hends : Ends wireMachine (Auth.ControlReader.mk r.sender.auth .clientToServer 0).recv
        (fun result t => (∃ received, result = .ok received) → ∃ m, m ∈ t.accepted)
          { input := r.afterObject.map .ok } := by
      refine Auth.ends_recv ?_ ?_ ?_
      · rintro e input ⟨received, hreceived⟩
        cases hreceived
      · rintro e input payload ⟨received, hreceived⟩
        cases hreceived
      · intro input payload _ _
        exact ⟨_, List.mem_append_right _ (List.mem_singleton.2 rfl)⟩
    refine hends ?_
    unfold answer reading at hanswer
    split at hanswer
    next payload reader hread => exact ⟨_, hread⟩
    next => cases hanswer
    next => cases hanswer
  obtain ⟨m, hm⟩ := haccepted
  have hvouched := h.authentic m hm
  rw [hnone] at hvouched
  exact absurd hvouched List.not_mem_nil

/-- The receiver comes to the acknowledgement if the sender has written what it has announced. -/
theorem Connected.answer_of_announced (h : r.Connected) {content : List UInt8}
    (hcompletes : r.sender.Completes content) (hsize : content.length = r.sender.greeting.size) :
    r.afterObject = r.sender.run.control.output.flatMap (· ++ [newline]) ∧
      r.answer = .ok (ascii "COMPLETE_ACK") := by
  obtain ⟨-, hraw, houtput, -⟩ := run_of_completes hcompletes
  have hafter : r.afterObject = r.sender.run.control.output.flatMap (· ++ [newline]) := by
    unfold afterObject stream
    rw [h.size_eq, ← hsize, hraw, List.drop_left]
  refine ⟨hafter, ?_⟩
  obtain ⟨t, hread⟩ : ∃ t, r.reading = (.ok (ascii "COMPLETE_ACK", ⟨r.sender.auth, .clientToServer, 1⟩), t) := by
    refine ⟨_, @Auth.run_recv _ r.sender.auth .clientToServer 0 _ { input := r.afterObject.map .ok } []
      (Auth.oneLine_of_printable (by decide)) (by decide) (by decide) ?_⟩
    rw [hafter, houtput]
    exact Auth.arriving_cons _ []
  unfold answer
  rw [hread]

/-- A transfer over TCP stays in step exactly if the file has as many bytes when it is sent as have been
announced, or if the sender is stopped. -/
theorem in_step_iff (h : r.Connected) :
    r.InStep ↔ ∀ content, r.sender.Completes content → content.length = r.sender.greeting.size := by
  constructor
  · intro hstep content hcompletes
    obtain ⟨hok, hraw, -⟩ := run_of_completes hcompletes
    rcases hstep.announced with ⟨e, herror⟩ | hannounced
    · rw [hok] at herror
      cases herror
    · rwa [hraw] at hannounced
  · intro hsize
    rcases hresult : r.sender.run.result with e | u
    · refine ⟨.inl ⟨e, hresult⟩, fun hok => ?_, fun hok => ?_, h.result_of_received⟩
      · rw [hresult] at hok
        cases hok
      · rw [hresult] at hok
        cases hok
    · obtain ⟨⟨content, hcompletes⟩, hiff⟩ := h.completes hresult
      obtain ⟨-, hraw, -⟩ := run_of_completes hcompletes
      obtain ⟨hafter, hanswer⟩ := h.answer_of_announced hcompletes (hsize content hcompletes)
      refine ⟨.inr ?_, fun _ => hafter, fun _ => hiff.2 hanswer, h.result_of_received⟩
      rw [hraw]
      exact hsize content hcompletes

end TcpRun

section Example

def tcpGreeting [Sha256] : SendGreeting where
  transport := .tcp
  size := 1
  expectedHash := Sha256.digest [7]
  offeredSession := Vector.replicate 16 0
  chunks := 1
  payloadBytes := 1024
  reportInterval := 50
  repairGrace := 125
  reuse := none

def tcpHello [Sha256] : Hello where
  transport := .tcp
  size := 1
  hash := hex (Sha256.digest [7]).bytes
  session := List.replicate 16 0
  chunks := 1
  payloadBytes := 1024
  reportInterval := 50
  repairGrace := 125
  reuseManifest := none

/-- A transfer of one byte, given what the file holds when it is sent. -/
def tcpRun [Sha256] (content : List UInt8) : TcpRun where
  sender := {
    greeting := tcpGreeting
    auth := Auth.sampleAuth
    lines := [ascii "READY 1024 50", ascii "COMPLETE"]
    file := { input := content.map .ok } }
  hello := tcpHello
  temporary := temporaryPath 1 ⟨none, [⟨[97], by decide⟩]⟩
  destination := ⟨none, [⟨[97], by decide⟩]⟩
  site := ⟨FS.empty, {}⟩

variable {content : List UInt8}

theorem completes_tcpRun [Sha256] : (tcpRun content).sender.Completes content := by
  refine ⟨rfl, ?_, ⟨[], ?_⟩, ?_⟩
  · rintro left e ⟨⟩
  · have hready : ascii "READY 1024 50" = ascii "READY " ++ decimal 1024 ++ space :: decimal 50 := by decide +kernel
    exact congrArg (· :: [ascii "COMPLETE"]) hready
  · rintro e ⟨⟩

/-- The ends are connected if the receiver confirms the transfer and accepts nothing but the acknowledgement. -/
theorem connected_tcpRun [Sha256]
    (hlines : (tcpRun content).receiver.2.1.control.sent = [ascii "READY 1024 50", ascii "COMPLETE"])
    (haccepted : ∀ m ∈ (tcpRun content).reading.2.accepted, m = (Auth.sampleAuth.c2s, ackInput Auth.sampleAuth)) :
    (tcpRun content).Connected := by
  refine ⟨rfl, rfl, rfl, rfl, hlines.symm, fun m hm => ?_⟩
  obtain ⟨-, -, -, hvouched⟩ := run_of_completes (@completes_tcpRun content _)
  rw [hvouched, haccepted m hm]
  exact List.mem_singleton.2 rfl

/-- The receiver of a file that has not changed comes to the acknowledgement. -/
theorem accepted_unchanged [Sha256] :
    (tcpRun [7]).reading.2.accepted = [(Auth.sampleAuth.c2s, ackInput Auth.sampleAuth)] := by
  obtain ⟨-, hraw, houtput, -⟩ := run_of_completes (@completes_tcpRun [7] _)
  have hafter : (tcpRun [7]).afterObject = [Auth.frameLine Auth.sampleAuth .clientToServer 0
      (ascii "COMPLETE_ACK")].flatMap (· ++ [newline]) := by
    unfold TcpRun.afterObject TcpRun.stream
    rw [hraw, houtput]
    rfl
  have hread := @Auth.run_recv _ Auth.sampleAuth .clientToServer 0 (ascii "COMPLETE_ACK")
    { input := (tcpRun [7]).afterObject.map .ok } [] (Auth.oneLine_of_printable (by decide)) (by decide) (by decide)
    (by rw [hafter]; exact Auth.arriving_cons _ [])
  unfold TcpRun.reading
  rw [show (tcpRun [7]).sender.auth = Auth.sampleAuth from rfl, hread]
  rfl

/-- The receiver of a file that has grown comes to its next byte. -/
theorem accepted_grown [Sha256] : (tcpRun [7, 13]).reading.2.accepted = [] := by
  obtain ⟨-, hraw, -⟩ := run_of_completes (@completes_tcpRun [7, 13] _)
  unfold TcpRun.reading TcpRun.afterObject TcpRun.stream
  rw [hraw]
  rfl

/-- The rule, for a file that has not changed. -/
theorem in_step_unchanged : @TcpRun.InStep sha2 (@tcpRun sha2 [7]) := by
  have hconnected : @TcpRun.Connected sha2 (@tcpRun sha2 [7]) := by
    refine @connected_tcpRun _ sha2 (by decide +kernel) fun m hm => ?_
    rw [@accepted_unchanged sha2] at hm
    exact List.mem_singleton.1 hm
  refine (@TcpRun.in_step_iff sha2 _ hconnected).2 fun content hcompletes => ?_
  have hcontent := congrArg List.length hcompletes.read
  rw [List.length_map] at hcontent
  exact hcontent.symm

/-- A file that has grown by a byte is written as a whole, and the sender returns though the receiver does not
come to its acknowledgement. -/
theorem not_in_step_grown : ¬∀ (_ : Sha256) (r : TcpRun), r.Connected → r.InStep := by
  intro hall
  obtain ⟨hok, hraw, -⟩ := @run_of_completes sha2 _ _ (@completes_tcpRun [7, 13] sha2)
  have hconnected : @TcpRun.Connected sha2 (@tcpRun sha2 [7, 13]) := by
    refine @connected_tcpRun _ sha2 (by decide +kernel) fun m hm => ?_
    rw [@accepted_grown sha2] at hm
    exact absurd hm List.not_mem_nil
  have hannounced := @TcpRun.InStep.announced sha2 _ (hall sha2 _ hconnected)
  rcases hannounced with ⟨e, herror⟩ | hannounced
  · rw [hok] at herror
    cases herror
  · rw [hraw] at hannounced
    exact absurd hannounced (by decide)

end Example

end PacketTide
