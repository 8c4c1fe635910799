import PacketTide.Network
import PacketTide.Proofs.ManifestProofs
import PacketTide.Proofs.ReceiptMapProofs
import PacketTide.Proofs.WireProofs
import PacketTide.Text.Proofs.WordProofs

/-!
# Sessions that complete

When the network hands over what the other side wrote, the handshake returns on both sides and
frames are received.
-/

namespace PacketTide.Auth

open Effects FileSystem Prog Text

/-! ## Fields and tags -/

theorem decodePairs_hex {bytes : List UInt8} {n index : Nat} (h : n + index = bytes.length) :
    decodePairs (hex bytes) n index = .ok (bytes.drop index) := by
  induction n generalizing index with
  | zero =>
    have hdrop : bytes.drop index = [] := List.drop_eq_nil_of_le (by omega)
    rw [decodePairs, hdrop]
  | succ n ih =>
    have hindex : index < bytes.length := by omega
    have hpair := slice_hex (List.getElem?_eq_getElem hindex)
    rw [decodePairs, hpair]
    dsimp only
    rw [parseUnsigned_hexPair]
    dsimp only
    rw [ih (by omega), List.drop_eq_getElem_cons hindex, UInt8.ofNat_toNat]
    rfl

theorem decodeArray_hex {bytes : List UInt8} {n : Nat} (h : bytes.length = n) :
    decodeArray n (hex bytes) = .ok bytes := by
  have hlen := length_hex bytes
  rw [decodeArray, if_neg (by omega), decodePairs_hex (by omega), List.drop_zero]

theorem foldl_or_eq_zero (bytes : List UInt8) (acc : UInt8) :
    bytes.foldl (· ||| ·) acc = 0 ↔ acc = 0 ∧ ∀ b ∈ bytes, b = 0 := by
  induction bytes generalizing acc with
  | nil => simp
  | cons b bytes ih =>
    rw [List.foldl_cons, ih, UInt8.or_eq_zero_iff, List.forall_mem_cons, and_assoc]

theorem zipWith_xor_eq_zero {left right : List UInt8} (h : left.length = right.length) :
    (∀ b ∈ List.zipWith (· ^^^ ·) left right, b = 0) ↔ left = right := by
  induction left generalizing right with
  | nil => simpa using List.length_eq_zero_iff.1 h.symm
  | cons a left ih =>
    rcases right with _ | ⟨b, right⟩
    · cases h
    rw [List.zipWith_cons_cons, List.forall_mem_cons, UInt8.xor_eq_zero_iff, ih (Nat.succ.inj h),
      List.cons.injEq]

/-- Comparing without an early exit tells whether byte strings are the same. -/
theorem constantTimeEq_iff {left right : List UInt8} : constantTimeEq left right = true ↔ left = right := by
  rw [constantTimeEq, Bool.and_eq_true, beq_iff_eq, beq_iff_eq, foldl_or_eq_zero]
  constructor
  · rintro ⟨hlength, -, hzero⟩
    exact (zipWith_xor_eq_zero hlength).1 hzero
  · rintro rfl
    exact ⟨rfl, rfl, (zipWith_xor_eq_zero rfl).2 rfl⟩

theorem constantTimeEq_self (bytes : List UInt8) : constantTimeEq bytes bytes = true :=
  constantTimeEq_iff.2 rfl

section Runs

variable {w : Wire}

/-- What arrives when lines are handed over. -/
def arriving (lines : List Str) : List (Except Errno UInt8) :=
  (lines.flatMap (· ++ [newline])).map .ok

theorem arriving_cons (line : Str) (lines : List Str) :
    arriving (line :: lines) = line.map .ok ++ .ok newline :: arriving lines := by
  simp [arriving]

/-- Text that may stand on a line. -/
structure OneLine (line : Str) : Prop where
  newline : newline ∉ line
  carriageReturn : carriageReturn ∉ line
  valid : validUtf8 line = true

theorem run_readByte {b : UInt8} {rest : List (Except Errno UInt8)}
    (h : w.input = .ok b :: rest) :
    readByte.run wireMachine w = (.ok (some b), { w with input := rest }) := by
  obtain ⟨input, failures, draws, output, vouched, accepted⟩ := w
  cases h
  rfl

theorem run_readLineFrom {line acc : Str} {rest : List (Except Errno UInt8)} {n : Nat}
    (hnewline : newline ∉ line) (hreturn : carriageReturn ∉ line)
    (hvalid : validUtf8 (acc ++ line) = true) (hlen : line.length < n)
    (hinput : w.input = line.map .ok ++ .ok newline :: rest) :
    (readLineFrom n acc).run wireMachine w = (.ok (acc ++ line), { w with input := rest }) := by
  induction line generalizing acc n w with
  | nil =>
    obtain ⟨n, rfl⟩ := Nat.exists_eq_succ_of_ne_zero (Nat.ne_of_gt hlen)
    rw [List.append_nil] at hvalid ⊢
    rw [readLineFrom, run_bind_ok (run_readByte hinput)]
    dsimp only
    rw [if_pos rfl, fromUtf8, if_pos hvalid]
    rfl
  | cons b line ih =>
    obtain ⟨n, rfl⟩ := Nat.exists_eq_succ_of_ne_zero (Nat.ne_of_gt (Nat.zero_lt_of_lt hlen))
    obtain ⟨hb, hnewline⟩ := not_or.1 fun hm => hnewline (List.mem_cons.2 hm)
    obtain ⟨hb', hreturn⟩ := not_or.1 fun hm => hreturn (List.mem_cons.2 hm)
    have happend : acc ++ b :: line = acc ++ [b] ++ line := by simp
    rw [readLineFrom, run_bind_ok (run_readByte hinput)]
    dsimp only
    rw [if_neg (Ne.symm hb), if_neg (Ne.symm hb'), happend]
    rw [happend] at hvalid
    exact ih hnewline hreturn hvalid (Nat.lt_of_succ_lt_succ hlen) rfl

theorem run_readLine {line : Str} {lines : List Str} {limit : Nat} (h : OneLine line)
    (hlen : line.length < limit) (hinput : w.input = arriving (line :: lines)) :
    (readLineLimited limit).run wireMachine w =
      (.ok line, { w with input := arriving lines }) := by
  rw [arriving_cons] at hinput
  exact run_readLineFrom h.newline h.carriageReturn h.valid hlen hinput

variable [Sha256] {key : Hash} {message : List UInt8}

theorem run_writeTagged (line : Str) (input : List (Except Errno UInt8)) (draws : List Hash)
    (output : List Str) (vouched accepted : List (Hash × List UInt8)) :
    (writeTagged key message line).run wireMachine ⟨input, [], draws, output, vouched, accepted⟩ =
      (.ok (), ⟨input, [], draws, output ++ [line ++ hex (hmacSha256 key.bytes message).bytes],
        vouched ++ [(key, message)], accepted⟩) := rfl

omit [Sha256] in
theorem run_writeLine (line : Str) (input : List (Except Errno UInt8)) (draws : List Hash)
    (output : List Str) (vouched accepted : List (Hash × List UInt8)) :
    (writeLine line).run wireMachine ⟨input, [], draws, output, vouched, accepted⟩ =
      (.ok (), ⟨input, [], draws, output ++ [line], vouched, accepted⟩) := rfl

omit [Sha256] in
theorem run_randomBytes (value : Hash) (input : List (Except Errno UInt8)) (draws : List Hash)
    (output : List Str) (vouched accepted : List (Hash × List UInt8)) :
    randomBytes.run wireMachine ⟨input, [], value :: draws, output, vouched, accepted⟩ =
      (.ok value, ⟨input, [], draws, output, vouched, accepted⟩) := rfl

theorem run_checkTag (text : String) :
    (checkTag key message (hmacSha256 key.bytes message).bytes text).run wireMachine w =
      (.ok (), { w with accepted := w.accepted ++ [(key, message)] }) := by
  rw [checkTag, if_neg (by rw [constantTimeEq_self]; decide)]
  rfl

end Runs

/-! ## The lines of a handshake -/

section Lines

variable [Sha256]

def challengeLine (challenge : Hash) : Str := ascii "TSU4C " ++ hex challenge.bytes

def greetingLine (key challenge : Hash) (hello : Str) : Str :=
  ascii "TSU4 " ++ hello ++ [space] ++
    hex (hmacSha256 key.bytes (clientHelloInput challenge.bytes hello)).bytes

def responseLine (key nonce : Hash) (transcript : List UInt8) : Str :=
  ascii "TSU4S " ++ hex nonce.bytes ++ [space] ++
    hex (hmacSha256 key.bytes (serverHelloInput transcript)).bytes

def finishLine (key : Hash) (transcript : List UInt8) : Str :=
  ascii "TSU4F " ++ hex (hmacSha256 key.bytes (clientFinishInput transcript)).bytes

omit [Sha256] in
theorem oneLine_of_printable {line : Str} (h : Printable line) : OneLine line where
  newline hm := absurd (h _ hm).1 (by decide)
  carriageReturn hm := absurd (h _ hm).1 (by decide)
  valid := h.valid

omit [Sha256] in
theorem oneLine_append {line rest : Str} (h : OneLine line) (h' : OneLine rest) : OneLine (line ++ rest) where
  newline hm := (List.mem_append.1 hm).elim h.newline h'.newline
  carriageReturn hm := (List.mem_append.1 hm).elim h.carriageReturn h'.carriageReturn
  valid := (validUtf8_append h.valid).trans h'.valid

omit [Sha256] in
theorem stripPrefix_append (first rest : Str) : stripPrefix first (first ++ rest) = some rest := by
  rw [stripPrefix, if_pos (List.prefix_append _ _), List.drop_left]

omit [Sha256] in
theorem oneLine_challengeLine (challenge : Hash) :
    OneLine (challengeLine challenge) ∧ (challengeLine challenge).length < maxHandshakeLine := by
  have hlabel : Printable (ascii "TSU4C ") := by decide
  refine ⟨oneLine_of_printable (printable_append hlabel (printable_hex _)), ?_⟩
  rw [challengeLine, List.length_append, length_hash]
  decide

theorem oneLine_responseLine (key nonce : Hash) (transcript : List UInt8) :
    OneLine (responseLine key nonce transcript) ∧
      (responseLine key nonce transcript).length < maxHandshakeLine := by
  have hlabel : Printable (ascii "TSU4S ") := by decide
  have hspace : Printable [space] := by decide
  refine ⟨oneLine_of_printable (printable_append (printable_append
    (printable_append hlabel (printable_hex _)) hspace) (printable_hex _)), ?_⟩
  rw [responseLine, List.length_append, List.length_append, List.length_append, length_hash,
    length_hash]
  decide

theorem oneLine_finishLine (key : Hash) (transcript : List UInt8) :
    OneLine (finishLine key transcript) ∧
      (finishLine key transcript).length < maxHandshakeLine := by
  have hlabel : Printable (ascii "TSU4F ") := by decide
  refine ⟨oneLine_of_printable (printable_append hlabel (printable_hex _)), ?_⟩
  rw [finishLine, List.length_append, length_hash]
  decide

/-- A greeting fits on a line if its text does. -/
theorem oneLine_greetingLine (key challenge : Hash) {hello : Str} (h : Printable hello)
    (hlen : hello.length + 71 ≤ maxHandshakeLine) :
    OneLine (greetingLine key challenge hello) ∧
      (greetingLine key challenge hello).length < maxHandshakeLine := by
  have hlabel : Printable (ascii "TSU4 ") := by decide
  have htag : (ascii "TSU4 ").length = 5 := by decide
  have hspace : Printable [space] := by decide
  refine ⟨oneLine_of_printable (printable_append (printable_append
    (printable_append hlabel h) hspace) (printable_hex _)), ?_⟩
  rw [greetingLine, List.length_append, List.length_append, List.length_append, length_hash,
    htag, List.length_singleton]
  omega

/-- White space splits the response into its fields. -/
theorem splitWhitespace_responseLine (key nonce : Hash) (transcript : List UInt8) :
    splitWhitespace (responseLine key nonce transcript) = [ascii "TSU4S", hex nonce.bytes,
      hex (hmacSha256 key.bytes (serverHelloInput transcript)).bytes] := by
  have hlabel : ascii "TSU4S " = ascii "TSU4S" ++ [space] := by decide
  have hfields : responseLine key nonce transcript = [space].intercalate [ascii "TSU4S",
      hex nonce.bytes, hex (hmacSha256 key.bytes (serverHelloInput transcript)).bytes] := by
    rw [responseLine, hlabel, List.intercalate_cons_cons, List.intercalate_cons_cons,
      List.intercalate_singleton]
    simp
  have hgraphic : ∀ hash : Hash, Graphic (hex hash.bytes) ∧ hex hash.bytes ≠ [] := by
    intro hash
    refine ⟨graphic_hex _, hex_ne_nil fun hnil => ?_⟩
    have hlen := length_hash_bytes hash
    rw [hnil] at hlen
    cases hlen
  have htag : Graphic (ascii "TSU4S") ∧ ascii "TSU4S" ≠ [] := by decide
  rw [hfields]
  refine splitWhitespace_fields fun f hf => ?_
  rcases List.mem_cons.1 hf with rfl | hf
  · exact htag
  rcases List.mem_cons.1 hf with rfl | hf
  · exact hgraphic nonce
  · rw [List.mem_singleton.1 hf]
    exact hgraphic _

end Lines

/-! ## Handshakes -/

section Handshakes

variable [Sha256] {input : List (Except Errno UInt8)} {output : List Str}
  {vouched accepted : List (Hash × List UInt8)} {key challenge nonce : Hash} {hello : Str}
  {transcript : List UInt8} {lines : List Str} {draws : List Hash}

/-- A client that is handed the lines of a server finishes the handshake. -/
theorem run_clientHandshake
    (htranscript : transcript = transcriptOf challenge.bytes hello nonce.bytes)
    (hinput : input =
      arriving (challengeLine challenge :: responseLine key nonce transcript :: lines)) :
    (clientHandshake key hello).run wireMachine ⟨input, [], draws, output, vouched, accepted⟩ =
      (.ok (deriveSession key transcript), ⟨arriving lines, [], draws,
        output ++ [greetingLine key challenge hello] ++ [finishLine key transcript],
        vouched ++ [(key, clientHelloInput challenge.bytes hello)] ++
          [(key, clientFinishInput transcript)],
        accepted ++ [(key, serverHelloInput transcript)]⟩) := by
  have hchallenge := oneLine_challengeLine challenge
  have hresponse := oneLine_responseLine key nonce transcript
  rw [clientHandshake, run_bind_ok (run_readLine hchallenge.1 hchallenge.2 hinput), challengeLine,
    stripPrefix_append, require, pure_eq, ok_bind, decodeArray_hex (length_hash_bytes challenge),
    lift_eq, ok_bind, clientRespond, run_bind_ok (run_writeTagged _ _ _ _ _ _),
    run_bind_ok (run_readLine hresponse.1 hresponse.2 rfl), splitWhitespace_responseLine]
  dsimp only
  rw [if_neg (by simp), decodeArray_hex (length_hash_bytes nonce), lift_eq, ok_bind,
    decodeArray_hex (length_hash_bytes _), lift_eq, ok_bind, ← htranscript,
    run_bind_ok (run_checkTag _), run_bind_ok (run_writeTagged _ _ _ _ _ _)]
  rfl

/-- A server that is handed the lines of a client finishes the handshake. -/
theorem run_serverHandshake (hhello : Printable hello)
    (hlen : hello.length + 71 ≤ maxHandshakeLine)
    (htranscript : transcript = transcriptOf challenge.bytes hello nonce.bytes)
    (hinput : input =
      arriving (greetingLine key challenge hello :: finishLine key transcript :: lines)) :
    (serverHandshake key).run wireMachine
        ⟨input, [], challenge :: nonce :: draws, output, vouched, accepted⟩ =
      (.ok (hello, deriveSession key transcript), ⟨arriving lines, [], draws,
        output ++ [challengeLine challenge] ++ [responseLine key nonce transcript],
        vouched ++ [(key, serverHelloInput transcript)],
        accepted ++ [(key, clientHelloInput challenge.bytes hello)] ++
          [(key, clientFinishInput transcript)]⟩) := by
  have hgreeting := oneLine_greetingLine key challenge hhello hlen
  have hfinish := oneLine_finishLine key transcript
  have hparts : greetingLine key challenge hello = ascii "TSU4 " ++ (hello ++
      space :: hex (hmacSha256 key.bytes (clientHelloInput challenge.bytes hello)).bytes) := by
    rw [greetingLine, List.append_assoc, List.append_assoc, List.singleton_append]
  rw [serverHandshake, run_bind_ok (run_randomBytes _ _ _ _ _ _),
    run_bind_ok (run_writeLine _ _ _ _ _ _),
    run_bind_ok (run_readLine hgreeting.1 hgreeting.2 hinput), hparts, stripPrefix_append, require,
    pure_eq, ok_bind, rsplitOnce_append (graphic_hex _).plain.space_not_mem, require, pure_eq,
    ok_bind]
  dsimp only
  rw [decodeArray_hex (length_hash_bytes _), lift_eq, ok_bind, run_bind_ok (run_checkTag _),
    serverRespond, run_bind_ok (run_randomBytes _ _ _ _ _ _), ← htranscript,
    run_bind_ok (run_writeTagged _ _ _ _ _ _),
    run_bind_ok (run_readLine hfinish.1 hfinish.2 rfl), finishLine, stripPrefix_append, require,
    pure_eq, ok_bind, decodeArray_hex (length_hash_bytes _), lift_eq, ok_bind,
    run_bind_ok (run_checkTag _)]
  rfl

end Handshakes

/-! ## Frames -/

section Frames

variable [Sha256] {input : List (Except Errno UInt8)} {draws : List Hash} {output lines : List Str}
  {vouched accepted : List (Hash × List UInt8)} {auth : SessionAuth} {direction : Direction}
  {n : Nat} {payload : Str}

/-- The line of a frame. -/
def frameLine (auth : SessionAuth) (direction : Direction) (n : Nat) (payload : Str) : Str :=
  ascii "A " ++ decimal n ++ space :: payload ++ [space] ++
    hex (hmacSha256 (auth.controlKey direction).bytes
      (controlMacInput auth.session direction n payload)).bytes

theorem run_send (hpayload : controlPayload payload) (hn : n + 1 < 2 ^ 64) :
    (ControlWriter.mk auth direction n |>.send payload).run wireMachine
        ⟨input, [], draws, output, vouched, accepted⟩ =
      (.ok ⟨auth, direction, n + 1⟩, ⟨input, [], draws,
        output ++ [frameLine auth direction n payload],
        vouched ++ [(auth.controlKey direction, controlMacInput auth.session direction n payload)],
        accepted⟩) := by
  rw [ControlWriter.send, if_neg (not_not.2 hpayload), run_bind_ok (run_writeTagged _ _ _ _ _ _)]
  dsimp only
  rw [if_neg (Nat.not_le.2 hn)]
  rfl

theorem length_frameLine (hlen : payload.length ≤ maxControlLine / 2) (hn : n < 2 ^ 64) :
    (frameLine auth direction n payload).length < maxControlLine := by
  have htag : (ascii "A ").length = 2 := by decide
  have hdigits : (decimal n).length ≤ 20 := length_decimal_le (by decide) (by omega)
  have hmax : maxControlLine = 65536 := rfl
  simp only [frameLine, List.length_append, List.length_cons, List.length_nil, length_hash, htag]
  omega

theorem oneLine_frameLine (hpayload : OneLine payload) : OneLine (frameLine auth direction n payload) := by
  have hprintable : ∀ {text : Str}, Printable text → OneLine text := oneLine_of_printable
  have hlabel : OneLine (ascii "A ") := hprintable (by decide)
  have hspace : OneLine [space] := hprintable (by decide)
  have hhead := oneLine_append hlabel (hprintable (graphic_decimal n).printable)
  have hbody := oneLine_append (oneLine_append hhead (oneLine_append hspace hpayload)) hspace
  exact oneLine_append hbody (hprintable (printable_hex _))

theorem splitN_frameLine :
    splitN space 3 (frameLine auth direction n payload) = [ascii "A", decimal n, payload ++
      space :: hex (hmacSha256 (auth.controlKey direction).bytes
        (controlMacInput auth.session direction n payload)).bytes] := by
  have hlabel : ascii "A " = ascii "A" ++ [space] := by decide
  have htag : space ∉ ascii "A" := by decide
  have hparts : frameLine auth direction n payload = ascii "A" ++ space :: (decimal n ++
      space :: (payload ++ space :: hex (hmacSha256 (auth.controlKey direction).bytes
        (controlMacInput auth.session direction n payload)).bytes)) := by
    simp [frameLine, hlabel]
  rw [hparts, splitN, splitOnce_append htag]
  dsimp only
  rw [splitN, splitOnce_append (plain_decimal n).space_not_mem]
  dsimp only
  rw [splitN]

/-- A reader that is handed the frame of its place receives the payload. -/
theorem run_recv {w : Wire} {rest : List (Except Errno UInt8)} (hpayload : OneLine payload)
    (hlen : payload.length ≤ maxControlLine / 2) (hn : n + 1 < 2 ^ 64)
    (hinput : w.input = (frameLine auth direction n payload).map .ok ++ .ok newline :: rest) :
    (ControlReader.mk auth direction n |>.recv).run wireMachine w =
      (.ok (payload, ⟨auth, direction, n + 1⟩), { w with
        input := rest
        accepted := w.accepted ++
          [(auth.controlKey direction, controlMacInput auth.session direction n payload)] }) := by
  have hline : OneLine (frameLine auth direction n payload) := oneLine_frameLine hpayload
  have hlength := @length_frameLine _ auth direction _ _ hlen (Nat.lt_of_succ_lt hn)
  have hread : (readLineLimited maxControlLine).run wireMachine w =
      (.ok (frameLine auth direction n payload), { w with input := rest }) :=
    run_readLineFrom hline.newline hline.carriageReturn hline.valid hlength hinput
  rw [ControlReader.recv, run_bind_ok hread, splitN_frameLine]
  dsimp only
  rw [if_neg (by simp)]
  simp only [List.getElem?_cons_succ, List.getElem?_cons_zero, require, pure_eq, ok_bind, parseNumber,
    parseUnsigned_decimal (Nat.lt_of_succ_lt hn), rsplitOnce_append (graphic_hex _).plain.space_not_mem,
    decodeArray_hex (length_hash_bytes _), lift_eq, ne_eq, not_true_eq_false, if_false]
  rw [run_bind_ok (run_checkTag _), if_neg (Nat.not_le.2 hn)]
  rfl

end Frames

/-! ## A client and a server -/

section Pair

variable [Sha256] (key challenge nonce : Hash) (hello : Str)

/-- The transcript of the pair. -/
def pairedTranscript : List UInt8 := transcriptOf challenge.bytes hello nonce.bytes

/-- A client that is handed the lines of a server with these values. -/
def pairedClient : Party where
  key := key
  role := .client hello
  input := arriving [challengeLine challenge,
    responseLine key nonce (pairedTranscript challenge nonce hello)]

/-- A server with these values that is handed the lines of its client. -/
def pairedServer : Party where
  key := key
  role := .server
  draws := [challenge, nonce]
  input := arriving [greetingLine key challenge hello,
    finishLine key (pairedTranscript challenge nonce hello)]

theorem run_pairedClient :
    (pairedClient key challenge nonce hello).program.run wireMachine
        (pairedClient key challenge nonce hello).wire =
      (.ok ((hello, deriveSession key (pairedTranscript challenge nonce hello)),
          .start (deriveSession key (pairedTranscript challenge nonce hello))
            .clientToServer .serverToClient),
        ⟨[], [], [], [greetingLine key challenge hello,
            finishLine key (pairedTranscript challenge nonce hello)],
          [(key, clientHelloInput challenge.bytes hello),
            (key, clientFinishInput (pairedTranscript challenge nonce hello))],
          [(key, serverHelloInput (pairedTranscript challenge nonce hello))]⟩) := by
  have hclient : (clientHandshake key hello).run wireMachine
      (pairedClient key challenge nonce hello).wire = _ := run_clientHandshake rfl rfl
  have hhandshake : (pairedClient key challenge nonce hello).handshake.run wireMachine
      (pairedClient key challenge nonce hello).wire = _ := run_bind_ok hclient
  rw [Party.program, run_bind_ok hhandshake]
  rfl

theorem run_pairedServer (hhello : Printable hello) (hlen : hello.length + 71 ≤ maxHandshakeLine) :
    (pairedServer key challenge nonce hello).program.run wireMachine
        (pairedServer key challenge nonce hello).wire =
      (.ok ((hello, deriveSession key (pairedTranscript challenge nonce hello)),
          .start (deriveSession key (pairedTranscript challenge nonce hello))
            .serverToClient .clientToServer),
        ⟨[], [], [], [challengeLine challenge,
            responseLine key nonce (pairedTranscript challenge nonce hello)],
          [(key, serverHelloInput (pairedTranscript challenge nonce hello))],
          [(key, clientHelloInput challenge.bytes hello),
            (key, clientFinishInput (pairedTranscript challenge nonce hello))]⟩) := by
  have hserver : (pairedServer key challenge nonce hello).handshake.run wireMachine
      (pairedServer key challenge nonce hello).wire = _ :=
    run_serverHandshake hhello hlen rfl rfl
  rw [Party.program, run_bind_ok hserver]
  rfl

/-- A server and any number of clients with the same lines. -/
def replayed (ι : Type) : Option ι → Party
  | none => pairedServer key challenge nonce hello
  | some _ => pairedClient key challenge nonce hello

theorem vouched_pairedClient : (pairedClient key challenge nonce hello).final.vouched =
    [(key, clientHelloInput challenge.bytes hello),
      (key, clientFinishInput (pairedTranscript challenge nonce hello))] := by
  rw [Party.final, run_pairedClient]

theorem accepted_pairedClient : (pairedClient key challenge nonce hello).final.accepted =
    [(key, serverHelloInput (pairedTranscript challenge nonce hello))] := by
  rw [Party.final, run_pairedClient]

theorem vouched_pairedServer (hhello : Printable hello)
    (hlen : hello.length + 71 ≤ maxHandshakeLine) :
    (pairedServer key challenge nonce hello).final.vouched =
      [(key, serverHelloInput (pairedTranscript challenge nonce hello))] := by
  rw [Party.final, run_pairedServer key challenge nonce hello hhello hlen]

theorem accepted_pairedServer (hhello : Printable hello)
    (hlen : hello.length + 71 ≤ maxHandshakeLine) :
    (pairedServer key challenge nonce hello).final.accepted =
      [(key, clientHelloInput challenge.bytes hello),
        (key, clientFinishInput (pairedTranscript challenge nonce hello))] := by
  rw [Party.final, run_pairedServer key challenge nonce hello hhello hlen]

/-- Only messages of the other side are accepted, however many clients there are. -/
theorem unforgeable_replayed {ι : Type} [Inhabited ι] (hhello : Printable hello)
    (hlen : hello.length + 71 ≤ maxHandshakeLine) :
    Unforgeable fun i => (replayed key challenge nonce hello ι i).final := by
  rintro (_ | i) m hm
  · refine ⟨some default, ?_⟩
    show m ∈ (pairedClient key challenge nonce hello).final.vouched
    rw [vouched_pairedClient]
    have hserver : m ∈ (pairedServer key challenge nonce hello).final.accepted := hm
    rwa [accepted_pairedServer _ _ _ _ hhello hlen] at hserver
  · refine ⟨none, ?_⟩
    show m ∈ (pairedServer key challenge nonce hello).final.vouched
    rw [vouched_pairedServer _ _ _ _ hhello hlen]
    have hclient : m ∈ (pairedClient key challenge nonce hello).final.accepted := hm
    rwa [accepted_pairedClient] at hclient

theorem freshDraws_replayed {ι : Type} (hne : challenge ≠ nonce) :
    FreshDraws (replayed key challenge nonce hello ι) := by
  rintro (_ | i) (_ | j) m n value hm hn
  · refine ⟨rfl, ?_⟩
    have hm' : [challenge, nonce][m]? = some value := hm
    have hn' : [challenge, nonce][n]? = some value := hn
    have hnodup : [challenge, nonce].Nodup := by simp [hne]
    exact (List.getElem?_inj (List.getElem?_eq_some_iff.1 hm').1 hnodup).1 (hm'.trans hn'.symm)
  · cases hn
  · cases hm
  · cases hm

end Pair

end PacketTide.Auth
