import PacketTide.PeerInput
import PacketTide.Proofs.SessionProofs
import PacketTide.Sha2

/-!
# Panics of the readers

A reader panics exactly if it slices a straddled field, and any peer can send one.
-/

namespace PacketTide.Auth

open Effects FileSystem Prog Text

/-! ## Fields -/

theorem slice_pair (value : Str) (i : Nat) :
    slice value i (i + 2) = if isCharBoundary value i = true ∧ isCharBoundary value (i + 2) = true
      then some ((value.drop i).take 2) else none := by
  have htake : (value.take (i + 2)).drop i = (value.drop i).take 2 := by
    rw [List.drop_take, Nat.add_sub_cancel_left]
  simp [slice, htake]

/-- Decoding from an index on panics at the first pair that is not a slice. -/
theorem decodePairs_panic_iff {value : Str} {n index : Nat} :
    decodePairs value n index = .error .panic ↔ ∃ i < n,
      (∀ j < i, ∃ byte, parseUnsigned 8 16 ((value.drop ((index + j) * 2)).take 2) = some byte) ∧
      ¬(isCharBoundary value ((index + i) * 2) = true ∧
        isCharBoundary value ((index + i) * 2 + 2) = true) := by
  induction n generalizing index with
  | zero => simp [decodePairs]
  | succ n ih =>
    rw [decodePairs, slice_pair]
    by_cases hslice : isCharBoundary value (index * 2) = true ∧
        isCharBoundary value (index * 2 + 2) = true
    · rw [if_pos hslice]
      dsimp only
      rcases hbyte : parseUnsigned 8 16 ((value.drop (index * 2)).take 2) with _ | byte
      · constructor
        · intro h
          cases h
        · rintro ⟨i, -, hparse, hbad⟩
          rcases i with _ | i
          · exact absurd hslice hbad
          · obtain ⟨byte, hzero⟩ := hparse 0 (Nat.succ_pos i)
            rw [Nat.add_zero, hbyte] at hzero
            cases hzero
      · have hmap : ((decodePairs value n (index + 1)).map (UInt8.ofNat byte :: ·) =
            .error .panic) ↔ decodePairs value n (index + 1) = .error .panic := by
          cases decodePairs value n (index + 1) <;> simp [Except.map]
        dsimp only
        rw [hmap, ih]
        constructor
        · rintro ⟨i, hi, hparse, hbad⟩
          refine ⟨i + 1, Nat.succ_lt_succ hi, fun j hj => ?_, ?_⟩
          · rcases j with _ | j
            · exact ⟨byte, hbyte⟩
            · have hplace : index + (j + 1) = index + 1 + j := by omega
              rw [hplace]
              exact hparse j (Nat.lt_of_succ_lt_succ hj)
          · have hplace : index + (i + 1) = index + 1 + i := by omega
            rwa [hplace]
        · rintro ⟨i, hi, hparse, hbad⟩
          rcases i with _ | i
          · exact absurd hslice hbad
          · refine ⟨i, Nat.lt_of_succ_lt_succ hi, fun j hj => ?_, ?_⟩
            · have hplace : index + (j + 1) = index + 1 + j := by omega
              rw [← hplace]
              exact hparse (j + 1) (Nat.succ_lt_succ hj)
            · have hplace : index + (i + 1) = index + 1 + i := by omega
              rwa [← hplace]
    · rw [if_neg hslice]
      refine iff_of_true rfl ⟨0, Nat.succ_pos n, fun j hj => absurd hj (Nat.not_lt_zero j), ?_⟩
      exact hslice

theorem decodeArray_panic_iff {value : Str} {n : Nat} :
    decodeArray n value = .error .panic ↔ Straddled n value := by
  unfold decodeArray Straddled
  by_cases hlen : value.length = n * 2
  · rw [if_neg (not_not.2 hlen), decodePairs_panic_iff]
    simp only [Nat.zero_add, hlen, true_and]
  · rw [if_pos hlen]
    simp [hlen]

theorem fromUtf8_eq_some {bytes text : Str} (h : fromUtf8 bytes = some text) :
    validUtf8 bytes = true ∧ bytes = text := by
  unfold fromUtf8 at h
  split at h
  next hvalid => exact ⟨hvalid, Option.some.inj h⟩
  next => cases h

theorem length_splitN_le (sep : UInt8) (n : Nat) (s : Str) : (splitN sep n s).length ≤ n := by
  induction n generalizing s with
  | zero => simp [splitN]
  | succ n ih =>
    rcases n with _ | n
    · simp [splitN]
    · rw [splitN]
      rcases splitOnce sep s with _ | ⟨part, rest⟩
      · simp
      · simpa using ih rest

theorem splitN_three {line a b c : Str} (ha : (splitN space 3 line)[0]? = some a)
    (hb : (splitN space 3 line)[1]? = some b) (hc : (splitN space 3 line)[2]? = some c) :
    splitN space 3 line = [a, b, c] := by
  have hlen := length_splitN_le space 3 line
  rcases hfields : splitN space 3 line with _ | ⟨x, _ | ⟨y, _ | ⟨z, _ | ⟨t, rest⟩⟩⟩⟩
  all_goals rw [hfields] at ha hb hc hlen
  · cases ha
  · cases hb
  · cases hc
  · cases ha
    cases hb
    cases hc
    rfl
  · simp only [List.length_cons] at hlen
    omega

/-! ## Lines -/

section Lines

variable {w : Wire}

theorem ends_readLineFrom_lineFrom {Q : Except Stop Str → Wire → Prop} {n : Nat} {bytes : Str}
    (hok : ∀ line input, lineFrom n bytes w.input = some (line, input) →
      Q (.ok line) { w with input })
    (hfail : ∀ e input, Q (.error (.error e)) { w with input }) :
    Ends wireMachine (readLineFrom n bytes) Q w := by
  induction n generalizing w bytes with
  | zero => exact hfail _ w.input
  | succ n ih =>
    obtain ⟨input, failures, draws, output, vouched, accepted⟩ := w
    rcases input with _ | ⟨e | b, input⟩
    · exact hfail _ []
    · exact hfail _ input
    · have hread : readByte.run wireMachine ⟨.ok b :: input, failures, draws, output, vouched,
          accepted⟩ = (.ok (some b), ⟨input, failures, draws, output, vouched, accepted⟩) := rfl
      rw [readLineFrom]
      refine ends_bind ?_
      rw [Ends, hread]
      show Ends wireMachine (if b = newline then _ else _) Q _
      by_cases hb : b = newline
      · rw [if_pos hb]
        refine ends_require (fun _ => hfail _ input) fun line hline => hok line input ?_
        rw [lineFrom, if_pos hb, hline]
        rfl
      · rw [if_neg hb]
        by_cases hb' : b = carriageReturn
        · rw [if_pos hb']
          exact hfail _ input
        · rw [if_neg hb']
          refine ih (fun line rest hline => hok line rest ?_) fun e rest => hfail e rest
          rw [lineFrom, if_neg hb, if_neg hb']
          exact hline

theorem ends_readLine {Q : Except Stop Str → Wire → Prop} {limit : Nat}
    (hok : ∀ line input, firstLine limit w.input = some (line, input) →
      Q (.ok line) { w with input })
    (hfail : ∀ e input, Q (.error (.error e)) { w with input }) :
    Ends wireMachine (readLineLimited limit) Q w :=
  ends_readLineFrom_lineFrom hok hfail

/-- A line is read as the input has it. -/
theorem run_lineFrom {n : Nat} {bytes line : Str} {input : List (Except Errno UInt8)}
    (h : lineFrom n bytes w.input = some (line, input)) :
    (readLineFrom n bytes).run wireMachine w = (.ok line, { w with input }) := by
  induction n generalizing w bytes with
  | zero => cases h
  | succ n ih =>
    obtain ⟨pending, failures, draws, output, vouched, accepted⟩ := w
    rcases pending with _ | ⟨e | b, pending⟩
    · cases h
    · cases h
    · have hread : readByte.run wireMachine ⟨.ok b :: pending, failures, draws, output, vouched,
          accepted⟩ = (.ok (some b), ⟨pending, failures, draws, output, vouched, accepted⟩) := rfl
      rw [readLineFrom, run_bind_ok hread]
      rw [lineFrom] at h
      dsimp only
      split_ifs at h ⊢ with hb hb'
      · obtain ⟨text, htext, heq⟩ := Option.map_eq_some_iff.1 h
        obtain ⟨rfl, rfl⟩ := Prod.mk.inj heq
        rw [htext]
        rfl
      · exact ih h

theorem run_firstLine {limit : Nat} {line : Str} {input : List (Except Errno UInt8)}
    (h : firstLine limit w.input = some (line, input)) :
    (readLineLimited limit).run wireMachine w = (.ok line, { w with input }) :=
  run_lineFrom h

theorem ends_readGreeting {Q : Except Stop Str → Wire → Prop} {n : Nat} {bytes : Str}
    (hok : ∀ greeting input, greetingFrom n bytes w.input = some greeting →
      Q (.ok greeting) { w with input })
    (hfail : ∀ e input, Q (.error (.error e)) { w with input }) :
    Ends wireMachine (readGreetingFrom n bytes) Q w := by
  induction n generalizing w bytes with
  | zero => exact hfail _ w.input
  | succ n ih =>
    obtain ⟨pending, failures, draws, output, vouched, accepted⟩ := w
    rcases pending with _ | ⟨e | b, pending⟩
    · exact hfail _ []
    · exact hfail _ pending
    · have hread : readByte.run wireMachine ⟨.ok b :: pending, failures, draws, output, vouched,
          accepted⟩ = (.ok (some b), ⟨pending, failures, draws, output, vouched, accepted⟩) := rfl
      rw [readGreetingFrom]
      refine ends_bind ?_
      rw [Ends, hread]
      show Ends wireMachine (if b = newline then _ else _) Q _
      by_cases hb : b = newline
      · rw [if_pos hb]
        refine hok bytes pending ?_
        rw [greetingFrom, if_pos hb]
      · rw [if_neg hb]
        refine ih (fun greeting rest hgreeting => hok greeting rest ?_) fun e rest => hfail e rest
        rw [greetingFrom, if_neg hb]
        exact hgreeting

theorem run_greetingFrom {n : Nat} {bytes greeting : Str}
    (h : greetingFrom n bytes w.input = some greeting) :
    ∃ input, (readGreetingFrom n bytes).run wireMachine w = (.ok greeting, { w with input }) := by
  induction n generalizing w bytes with
  | zero => cases h
  | succ n ih =>
    obtain ⟨pending, failures, draws, output, vouched, accepted⟩ := w
    rcases pending with _ | ⟨e | b, pending⟩
    · cases h
    · cases h
    · have hread : readByte.run wireMachine ⟨.ok b :: pending, failures, draws, output, vouched,
          accepted⟩ = (.ok (some b), ⟨pending, failures, draws, output, vouched, accepted⟩) := rfl
      rw [readGreetingFrom, run_bind_ok hread]
      rw [greetingFrom] at h
      dsimp only
      split_ifs at h ⊢ with hb
      · cases h
        exact ⟨pending, rfl⟩
      · exact ih h

end Lines

/-! ## Panics that have a reason -/

/-- A program panics only if a condition holds. -/
structure PanicsOnlyIf {α : Type} (P : Prop) (r : Except Stop α) (w : Wire) : Prop where
  reason : r = .error .panic → P

theorem quiet {α : Type} {P : Prop} {e : AnyError} {w : Wire} :
    PanicsOnlyIf P (.error (.error e) : Except Stop α) w :=
  ⟨fun h => nomatch h⟩

theorem quiet_ok {α : Type} {P : Prop} {a : α} {w : Wire} :
    PanicsOnlyIf P (.ok a : Except Stop α) w :=
  ⟨fun h => nomatch h⟩

theorem straddled_of_panic {n : Nat} {value : Str} {α : Type} {e : Stop}
    (hvalue : decodeArray n value = .error e) (h : (Except.error e : Except Stop α) = .error .panic) :
    Straddled n value := by
  cases h
  exact decodeArray_panic_iff.1 hvalue

theorem ends_bind_of_run {α β : Type} {p : WireProg α} {f : α → WireProg β} {w t : Wire} {a : α}
    {Q : Except Stop β → Wire → Prop} (hrun : p.run wireMachine w = (.ok a, t))
    (h : Ends wireMachine (f a) Q t) : Ends wireMachine (p >>= f) Q w := by
  unfold Ends
  rwa [run_bind_ok hrun]

theorem ends_bind_require {α β : Type} {f : α → WireProg β} {w : Wire} {value : Option α} {a : α}
    {text : String} {Q : Except Stop β → Wire → Prop} (hvalue : value = some a)
    (h : Ends wireMachine (f a) Q w) : Ends wireMachine (require value text >>= f) Q w := by
  rw [hvalue]
  exact h

theorem ends_bind_lift {α β : Type} {f : α → WireProg β} {w : Wire} {r : Except Stop α} {a : α}
    {Q : Except Stop β → Wire → Prop} (hr : r = .ok a) (h : Ends wireMachine (f a) Q w) :
    Ends wireMachine (Prog.lift r >>= f) Q w := by
  rw [hr]
  exact h

theorem ends_bind_straddled {β : Type} {f : List UInt8 → WireProg β} {w : Wire} {n : Nat}
    {value : Str} (h : Straddled n value) :
    Ends wireMachine (Prog.lift (decodeArray n value) >>= f) (fun r _ => r = .error .panic) w := by
  rw [decodeArray_panic_iff.2 h]
  rfl

section Readers

variable [Sha256] {key : Hash} {hello : Str} {draws : List Hash} {output : List Str}
  {input : List (Except Errno UInt8)} {failures : List (Option Errno)}
  {vouched accepted : List (Hash × List UInt8)} {auth : SessionAuth} {reader : ControlReader}

theorem serverHandshake_panicsOnlyIf : Ends wireMachine (serverHandshake key)
    (PanicsOnlyIf (ServerStraddled key draws input))
    ⟨input, failures, draws, output, vouched, accepted⟩ := by
  refine ends_bind (ends_randomBytes quiet fun challenge rest hdraws => ?_)
  refine ends_bind (ends_writeLine (fun _ _ => quiet) fun failures => ?_)
  refine ends_bind (ends_readLine (fun line input₁ hline => ?_) fun _ _ => quiet)
  refine ends_bind (ends_require (fun _ => quiet) fun body hbody => ?_)
  refine ends_bind (ends_require (fun _ => quiet) fun parts hparts => ?_)
  obtain ⟨hello, mac⟩ := parts
  refine ends_bind (ends_lift ?_)
  rcases hmac : decodeArray 32 mac with e | supplied
  · refine ⟨fun h => ?_⟩
    exact ⟨challenge, rest, line, input₁, body, hello, mac, hdraws, hline, hbody, hparts,
      .inl (straddled_of_panic hmac h)⟩
  refine ends_bind (ends_checkTag quiet fun htag => ?_)
  refine ends_bind (ends_randomBytes quiet fun nonce rest' hrest => ?_)
  refine ends_bind (ends_writeTagged (fun _ _ => quiet) fun failures output => ?_)
  refine ends_bind (ends_readLine (fun line' input₂ hline' => ?_) fun _ _ => quiet)
  refine ends_bind (ends_require (fun _ => quiet) fun finish hfinish => ?_)
  refine ends_bind (ends_lift ?_)
  rcases hsupplied : decodeArray 32 finish with e | suppliedFinish
  · refine ⟨fun h => ?_⟩
    exact ⟨challenge, rest, line, input₁, body, hello, mac, hdraws, hline, hbody, hparts,
      .inr ⟨supplied, nonce, rest', line', input₂, finish, hmac, htag, hrest, hline', hfinish,
        straddled_of_panic hsupplied h⟩⟩
  exact ends_bind (ends_checkTag quiet fun _ => quiet_ok)

theorem clientHandshake_panicsOnlyIf : Ends wireMachine (clientHandshake key hello)
    (PanicsOnlyIf (ClientStraddled input))
    ⟨input, failures, draws, output, vouched, accepted⟩ := by
  refine ends_bind (ends_readLine (fun line input₁ hline => ?_) fun _ _ => quiet)
  refine ends_bind (ends_require (fun _ => quiet) fun challengeHex hhex => ?_)
  refine ends_bind (ends_lift ?_)
  rcases hchallenge : decodeArray 32 challengeHex with e | challenge
  · refine ⟨fun h => ?_⟩
    exact ⟨line, input₁, challengeHex, hline, hhex, .inl (straddled_of_panic hchallenge h)⟩
  refine ends_bind (ends_writeTagged (fun _ _ => quiet) fun failures output => ?_)
  refine ends_bind (ends_readLine (fun line' input₂ hline' => ?_) fun _ _ => quiet)
  dsimp only [Then]
  split
  next tag nonce mac hfields =>
    split
    next => exact quiet
    next htag =>
      rw [not_not.1 htag] at hfields
      refine ends_bind (ends_lift ?_)
      rcases hnonce : decodeArray 32 nonce with e | serverNonce
      · refine ⟨fun h => ?_⟩
        exact ⟨line, input₁, challengeHex, hline, hhex, .inr ⟨challenge, line', input₂, nonce, mac,
          hchallenge, hline', hfields, .inl (straddled_of_panic hnonce h)⟩⟩
      refine ends_bind (ends_lift ?_)
      rcases hmac : decodeArray 32 mac with e | supplied
      · refine ⟨fun h => ?_⟩
        exact ⟨line, input₁, challengeHex, hline, hhex, .inr ⟨challenge, line', input₂, nonce, mac,
          hchallenge, hline', hfields, .inr ⟨serverNonce, hnonce, straddled_of_panic hmac h⟩⟩⟩
      refine ends_bind (ends_checkTag quiet fun _ => ?_)
      exact ends_bind (ends_writeTagged (fun _ _ => quiet)
        fun _ _ => quiet_ok)
  next => exact quiet

theorem recv_panicsOnlyIf : Ends wireMachine reader.recv
    (PanicsOnlyIf (FrameStraddled reader.sequence input))
    ⟨input, failures, draws, output, vouched, accepted⟩ := by
  refine ends_bind (ends_readLine (fun line input₁ hline => ?_) fun _ _ => quiet)
  unfold Then
  dsimp only
  split
  next => exact quiet
  next htag =>
    refine ends_bind (ends_require (fun _ => quiet) fun field hfield => ?_)
    refine ends_bind (ends_require (fun _ => quiet) fun sequence hsequence => ?_)
    show Ends wireMachine (if sequence ≠ reader.sequence then _ else _) _ _
    split
    next => exact quiet
    next hplace =>
      refine ends_bind (ends_require (fun _ => quiet) fun tail htail => ?_)
      refine ends_bind (ends_require (fun _ => quiet) fun parts hparts => ?_)
      obtain ⟨payload, mac⟩ := parts
      refine ends_bind (ends_lift ?_)
      rcases hmac : decodeArray 32 mac with e | supplied
      · refine ⟨fun h => ?_⟩
        rw [not_not.1 hplace] at hsequence
        exact ⟨line, input₁, field, tail, payload, mac, hline,
          splitN_three (not_not.1 htag) hfield htail, hsequence, hparts, straddled_of_panic hmac h⟩
      refine ends_bind (ends_checkTag quiet fun _ => ?_)
      show Ends wireMachine (if 2 ^ 64 ≤ reader.sequence + 1 then _ else _) _ _
      split
      next => exact quiet
      next => exact quiet_ok

theorem readTcp4Hello_panicsOnlyIf : Ends wireMachine (readTcp4Hello auth)
    (PanicsOnlyIf (LaneStraddled input))
    ⟨input, failures, draws, output, vouched, accepted⟩ := by
  refine ends_bind (ends_readGreeting (fun greeting rest hgreeting => ?_) fun _ _ => quiet)
  refine ends_bind (ends_require (fun _ => quiet) fun text htext => ?_)
  obtain ⟨hvalid, rfl⟩ := fromUtf8_eq_some htext
  dsimp only [Then]
  split
  next tag session lane mac hfields =>
    split
    next => exact quiet
    next htag =>
      rw [not_not.1 htag] at hfields
      refine ends_bind (ends_lift ?_)
      rcases hsession : decodeArray 16 session with e | bytes
      · refine ⟨fun h => ?_⟩
        exact ⟨greeting, session, lane, mac, hgreeting, hvalid, hfields,
          .inl (straddled_of_panic hsession h)⟩
      refine ends_bind (ends_require (fun _ => quiet) fun number hnumber => ?_)
      refine ends_bind (ends_lift ?_)
      rcases hmac : decodeArray 32 mac with e | supplied
      · refine ⟨fun h => ?_⟩
        exact ⟨greeting, session, lane, mac, hgreeting, hvalid, hfields,
          .inr ⟨bytes, number, hsession, hnumber, straddled_of_panic hmac h⟩⟩
      show Ends wireMachine (if bytes ≠ auth.session ∨ tcp4Lanes ≤ number then _ else _) _ _
      split
      next => exact quiet
      next => exact ends_bind (ends_checkTag quiet fun _ => quiet_ok)
  next => exact quiet

/-! ## Reasons that lead to a panic -/

theorem run_checkTag_of_eq {w : Wire} {message supplied : List UInt8} {text : String}
    (h : constantTimeEq supplied (hmacSha256 key.bytes message).bytes = true) :
    (checkTag key message supplied text).run wireMachine w =
      (.ok (), { w with accepted := w.accepted ++ [(key, message)] }) := by
  rw [checkTag, if_neg (by rw [h]; decide)]
  rfl

theorem serverHandshake_panics (h : ServerStraddled key draws input) :
    Ends wireMachine (serverHandshake key) (fun r _ => r = .error .panic)
      ⟨input, [], draws, output, vouched, accepted⟩ := by
  obtain ⟨challenge, rest, line, input₁, body, hello, mac, rfl, hline, hbody, hparts, hmac⟩ := h
  refine ends_bind_of_run (run_randomBytes _ _ _ _ _ _) ?_
  refine ends_bind_of_run (run_writeLine _ _ _ _ _ _) ?_
  refine ends_bind_of_run (run_firstLine hline) ?_
  refine ends_bind_require hbody ?_
  refine ends_bind_require hparts ?_
  rcases hmac with hmac | ⟨supplied, nonce, rest', line', input₂, finish, hsupplied, htag, rfl,
    hline', hfinish, hmac⟩
  · exact ends_bind_straddled hmac
  · refine ends_bind_lift hsupplied ?_
    refine ends_bind_of_run (run_checkTag_of_eq htag) ?_
    refine ends_bind_of_run (run_randomBytes _ _ _ _ _ _) ?_
    refine ends_bind_of_run (run_writeTagged _ _ _ _ _ _) ?_
    refine ends_bind_of_run (run_firstLine hline') ?_
    refine ends_bind_require hfinish ?_
    exact ends_bind_straddled hmac

theorem clientHandshake_panics (h : ClientStraddled input) :
    Ends wireMachine (clientHandshake key hello) (fun r _ => r = .error .panic)
      ⟨input, [], draws, output, vouched, accepted⟩ := by
  obtain ⟨line, input₁, challengeHex, hline, hhex, hmac⟩ := h
  refine ends_bind_of_run (run_firstLine hline) ?_
  refine ends_bind_require hhex ?_
  rcases hmac with hmac | ⟨challenge, line', input₂, nonce, mac, hchallenge, hline', hfields, hmac⟩
  · exact ends_bind_straddled hmac
  refine ends_bind_lift hchallenge ?_
  refine ends_bind_of_run (run_writeTagged _ _ _ _ _ _) ?_
  refine ends_bind_of_run (run_firstLine hline') ?_
  rw [hfields]
  dsimp only
  rw [if_neg (by simp)]
  rcases hmac with hmac | ⟨serverNonce, hnonce, hmac⟩
  · exact ends_bind_straddled hmac
  · refine ends_bind_lift hnonce ?_
    exact ends_bind_straddled hmac

theorem recv_panics (h : FrameStraddled reader.sequence input) :
    Ends wireMachine reader.recv (fun r _ => r = .error .panic)
      ⟨input, [], draws, output, vouched, accepted⟩ := by
  obtain ⟨line, input₁, field, tail, payload, mac, hline, hfields, hsequence, hparts, hmac⟩ := h
  refine ends_bind_of_run (run_firstLine hline) ?_
  dsimp only
  rw [hfields, if_neg (by simp)]
  refine ends_bind_require rfl ?_
  refine ends_bind_require hsequence ?_
  rw [if_neg (not_not.2 rfl)]
  refine ends_bind_require rfl ?_
  refine ends_bind_require hparts ?_
  exact ends_bind_straddled hmac

theorem readTcp4Hello_panics (h : LaneStraddled input) :
    Ends wireMachine (readTcp4Hello auth) (fun r _ => r = .error .panic)
      ⟨input, [], draws, output, vouched, accepted⟩ := by
  obtain ⟨greeting, session, lane, mac, hgreeting, hvalid, hfields, hmac⟩ := h
  obtain ⟨rest, hrun⟩ := run_greetingFrom (w := ⟨input, [], draws, output, vouched, accepted⟩)
    hgreeting
  refine ends_bind_of_run hrun ?_
  refine ends_bind_require (if_pos hvalid) ?_
  rw [hfields]
  dsimp only
  rw [if_neg (by simp)]
  rcases hmac with hmac | ⟨bytes, number, hsession, hnumber, hmac⟩
  · exact ends_bind_straddled hmac
  · refine ends_bind_lift hsession ?_
    refine ends_bind_require hnumber ?_
    exact ends_bind_straddled hmac

end Readers

theorem panicFree_iff {α : Type} {p : WireProg α} {P : Prop} {draws : List Hash}
    {input : List (Except Errno UInt8)}
    (honly : ∀ failures output vouched accepted,
      Ends wireMachine p (PanicsOnlyIf P) ⟨input, failures, draws, output, vouched, accepted⟩)
    (hpanics : P → Ends wireMachine p (fun r _ => r = .error .panic) ⟨input, [], draws, [], [], []⟩) :
    PanicFree p draws input ↔ ¬P := by
  constructor
  · intro h hP
    exact h [] [] [] [] (hpanics hP)
  · intro hP failures output vouched accepted h
    exact hP ((honly failures output vouched accepted).reason h)

/-- Each reader returns on what a peer puts on the connection, exactly if none of the fields that it
slices is straddled. -/
theorem panicFree_readers_iff [Sha256] (key : Hash) (hello : Str) (auth : SessionAuth)
    (reader : ControlReader) (draws : List Hash) (input : List (Except Errno UInt8)) :
    (PanicFree (serverHandshake key) draws input ↔ ¬ServerStraddled key draws input) ∧
    (PanicFree (clientHandshake key hello) draws input ↔ ¬ClientStraddled input) ∧
    (PanicFree reader.recv draws input ↔ ¬FrameStraddled reader.sequence input) ∧
    (PanicFree (readTcp4Hello auth) draws input ↔ ¬LaneStraddled input) :=
  ⟨panicFree_iff (fun _ _ _ _ => serverHandshake_panicsOnlyIf) serverHandshake_panics,
    panicFree_iff (fun _ _ _ _ => clientHandshake_panicsOnlyIf) clientHandshake_panics,
    panicFree_iff (fun _ _ _ _ => recv_panicsOnlyIf) recv_panics,
    panicFree_iff (fun _ _ _ _ => readTcp4Hello_panicsOnlyIf) readTcp4Hello_panics⟩

section Example

local instance standardHash : Sha256 := sha2

/-- A greeting with a tag of the length of 64 digits, in which the second character has two bytes. -/
def straddledGreeting : Str := ascii "TSU4 x a" ++ [0xC3, 0xA9] ++ List.replicate 61 48

theorem not_panicFree_readers :
    ¬∀ (key : Hash) (draws : List Hash) (input : List (Except Errno UInt8)),
      PanicFree (serverHandshake key) draws input := by
  intro h
  have hline : firstLine maxHandshakeLine (arriving [straddledGreeting]) =
      some (straddledGreeting, []) := by decide +kernel
  have hstraddled : Straddled 32 (97 :: 0xC3 :: 0xA9 :: List.replicate 61 48) := by
    refine ⟨by decide +kernel, 0, by decide, fun j hj => absurd hj (Nat.not_lt_zero j), ?_⟩
    decide +kernel
  refine h default [default] (arriving [straddledGreeting]) [] [] [] [] (serverHandshake_panics ?_)
  exact ⟨default, [], straddledGreeting, [], ascii "x a" ++ [0xC3, 0xA9] ++ List.replicate 61 48,
    ascii "x", 97 :: 0xC3 :: 0xA9 :: List.replicate 61 48, rfl, hline, by decide +kernel,
    by decide +kernel, .inl hstraddled⟩

end Example

end PacketTide.Auth
