import PacketTide.Proofs.HandshakeProofs
import PacketTide.Proofs.PanicProofs
import PacketTide.Proofs.SendTcpProofs
import PacketTide.Tcp4

/-!
# Lanes

How an object is split into lanes, and which connection the receiver takes for which lane.
-/

namespace PacketTide

open Effects FileSystem Prog Text

/-! ## Ranges -/

section Ranges

variable {size lane other k : Nat}

/-- The length of a lane. -/
def laneLength (size lane : Nat) : Nat := size / 4 + if lane < size % 4 then 1 else 0

theorem tcp4LaneRange_snd (size lane : Nat) :
    (tcp4LaneRange size lane).2 = (tcp4LaneRange size lane).1 + laneLength size lane := rfl

/-- A lane starts where the one before it stops. -/
theorem laneRange_next (size lane : Nat) : (tcp4LaneRange size lane).2 = (tcp4LaneRange size (lane + 1)).1 := by
  have hmul : size / 4 * (lane + 1) = size / 4 * lane + size / 4 := Nat.mul_succ _ _
  show size / 4 * lane + min (size % 4) lane + (size / 4 + if lane < size % 4 then 1 else 0) =
    size / 4 * (lane + 1) + min (size % 4) (lane + 1)
  rw [hmul]
  by_cases hlane : lane < size % 4
  · rw [if_pos hlane]
    omega
  · rw [if_neg hlane]
    omega

theorem laneRange_first (size : Nat) : (tcp4LaneRange size 0).1 = 0 := by
  show size / 4 * 0 + min (size % 4) 0 = 0
  omega

theorem laneRange_last (size : Nat) : (tcp4LaneRange size 3).2 = size := by
  have hmod : size % 4 < 4 := Nat.mod_lt size (by decide)
  have hdiv := Nat.div_add_mod size 4
  show size / 4 * 3 + min (size % 4) 3 + (size / 4 + if 3 < size % 4 then 1 else 0) = size
  rw [if_neg (by omega)]
  omega

theorem laneRange_le (size lane : Nat) : (tcp4LaneRange size lane).1 ≤ (tcp4LaneRange size lane).2 := by
  rw [tcp4LaneRange_snd]
  exact Nat.le_add_right _ _

/-- The lanes come one after the other. -/
theorem laneRange_le_of_lt (h : lane < other) : (tcp4LaneRange size lane).2 ≤ (tcp4LaneRange size other).1 := by
  induction other with
  | zero => omega
  | succ other ih =>
    rw [← laneRange_next]
    rcases Nat.lt_succ_iff_lt_or_eq.1 h with hlt | rfl
    · exact (ih hlt).trans (laneRange_le size other)
    · exact le_rfl

theorem laneRange_le_size (h : lane < 4) : (tcp4LaneRange size lane).2 ≤ size := by
  rcases Nat.lt_succ_iff_lt_or_eq.1 h with hlt | rfl
  · exact (laneRange_le_of_lt hlt).trans ((laneRange_le size 3).trans_eq (laneRange_last size))
  · exact (laneRange_last size).le

/-- Every byte belongs to a lane. -/
theorem exists_lane (h : k < size) :
    ∃ lane < 4, (tcp4LaneRange size lane).1 ≤ k ∧ k < (tcp4LaneRange size lane).2 := by
  have hlast := laneRange_last size
  have hzero := laneRange_first size
  have h0 : (tcp4LaneRange size 0).2 = (tcp4LaneRange size 1).1 := laneRange_next size 0
  have h1 : (tcp4LaneRange size 1).2 = (tcp4LaneRange size 2).1 := laneRange_next size 1
  have h2 : (tcp4LaneRange size 2).2 = (tcp4LaneRange size 3).1 := laneRange_next size 2
  by_cases hk0 : k < (tcp4LaneRange size 0).2
  · exact ⟨0, by decide, by omega, hk0⟩
  by_cases hk1 : k < (tcp4LaneRange size 1).2
  · exact ⟨1, by decide, by omega, hk1⟩
  by_cases hk2 : k < (tcp4LaneRange size 2).2
  · exact ⟨2, by decide, by omega, hk2⟩
  exact ⟨3, by decide, by omega, by omega⟩

/-- A byte belongs to one lane only. -/
theorem lane_unique (h : (tcp4LaneRange size lane).1 ≤ k) (h' : k < (tcp4LaneRange size lane).2)
    (hother : (tcp4LaneRange size other).1 ≤ k) (hother' : k < (tcp4LaneRange size other).2) : lane = other := by
  rcases Nat.lt_trichotomy lane other with hlt | heq | hlt
  · have hle := @laneRange_le_of_lt size _ _ hlt
    omega
  · exact heq
  · have hle := @laneRange_le_of_lt size _ _ hlt
    omega

theorem within64_of_lt {n : Nat} (h : n < 2 ^ 64) : within64 n = some n := if_pos h

theorem splitsLanes (hsize : size < 2 ^ 64) : SplitsLanes size := by
  refine ⟨fun lane hlane => ?_, laneRange_first size, laneRange_next size, laneRange_last size,
    fun lane other => ?_⟩
  · have hstop : size / 4 * lane + min (size % 4) lane + (size / 4 + if lane < size % 4 then 1 else 0) ≤ size :=
      laneRange_le_size hlane
    have hbefore : within64 (size / 4 * lane) = some (size / 4 * lane) := within64_of_lt (by omega)
    have hstart : within64 (size / 4 * lane + min (size % 4) lane) =
        some (size / 4 * lane + min (size % 4) lane) := within64_of_lt (by omega)
    have hlength := @within64_of_lt (size / 4 + if lane < size % 4 then 1 else 0) (by omega)
    have hend := @within64_of_lt (size / 4 * lane + min (size % 4) lane +
      (size / 4 + if lane < size % 4 then 1 else 0)) (by omega)
    unfold tcp4LaneRangeChecked
    dsimp only [Auth.tcp4Lanes]
    simp only [hbefore, hstart, hlength, hend, Option.bind_eq_bind, Option.bind_some]
    rfl
  · rw [tcp4LaneRange_snd, tcp4LaneRange_snd, Nat.add_sub_cancel_left, Nat.add_sub_cancel_left]
    unfold laneLength
    split <;> split <;> omega

end Ranges

/-! ## What the sender writes to a lane -/

/-- A write adds some of its bytes, and all of them if it succeeds. -/
theorem written_writeAll (out : BulkStream) (bytes : List UInt8) :
    ∃ part, (out.writeAll bytes).2.written = out.written ++ part ∧ part <+: bytes ∧
      ((out.writeAll bytes).1 = .ok () → part = bytes) := by
  obtain ⟨written, _ | ⟨left, e⟩⟩ := out
  · exact ⟨bytes, rfl, List.prefix_rfl, fun _ => rfl⟩
  · by_cases hle : bytes.length ≤ left
    · have hwrite : BulkStream.writeAll ⟨written, some (left, e)⟩ bytes = (.ok (), ⟨written ++ bytes, _⟩) := if_pos hle
      rw [hwrite]
      exact ⟨bytes, rfl, List.prefix_rfl, fun _ => rfl⟩
    · have hwrite : BulkStream.writeAll ⟨written, some (left, e)⟩ bytes =
          (.error (.io e), ⟨written ++ bytes.take left, _⟩) := if_neg hle
      rw [hwrite]
      exact ⟨bytes.take left, rfl, List.take_prefix _ _, fun hok => (nomatch hok)⟩

/-- A part of a list and then a part of what follows it. -/
theorem append_prefix_drop {α : Type} {first next whole : List α} {count : Nat} (hfirst : first <+: whole.take count)
    (hnext : next <+: (whole.drop first.length).take (count - first.length)) : first ++ next <+: whole.take count := by
  obtain ⟨rest, hrest⟩ := hfirst
  rw [← List.drop_take, ← hrest, List.drop_left] at hnext
  rw [← hrest]
  exact (List.prefix_append_right_inj first).2 hnext

/-- A thread of the sender writes some of the bytes of its range. -/
theorem written_sendTcpRange {source : List UInt8} {n offset stop : Nat} {reads : List (Except Errno Nat)}
    {out : BulkStream} :
    ∃ bytes, (sendTcpRange source n offset stop reads out).2.written = out.written ++ bytes ∧
      bytes <+: (source.drop offset).take (stop - offset) := by
  induction n generalizing offset reads out with
  | zero => exact ⟨[], (List.append_nil _).symm, List.nil_prefix⟩
  | succ n ih =>
    have hnothing : ∃ bytes, out.written = out.written ++ bytes ∧
        bytes <+: (source.drop offset).take (stop - offset) := ⟨[], (List.append_nil _).symm, List.nil_prefix⟩
    rw [sendTcpRange]
    split
    · exact hnothing
    split
    · exact hnothing
    next more _ =>
    split
    · exact hnothing
    next b bytes hbytes =>
    have hpiece : b :: bytes <+: (source.drop offset).take (stop - offset) := by
      rw [← hbytes]
      exact List.take_prefix_take_left (by omega)
    obtain ⟨part, hwritten, hpart, hall⟩ := written_writeAll out (b :: bytes)
    split
    next e out' hwrite =>
      rw [hwrite] at hwritten
      exact ⟨part, hwritten, hpart.trans hpiece⟩
    next u out' hwrite =>
      rw [hwrite] at hwritten hall
      obtain rfl := hall rfl
      obtain ⟨next, hnext, hprefix⟩ := @ih (offset + (bytes.length + 1)) reads.tail out'
      refine ⟨b :: bytes ++ next, ?_, append_prefix_drop hpiece ?_⟩
      · rw [hnext, hwritten, List.append_assoc]
      · rw [List.drop_drop]
        rwa [Nat.sub_add_eq] at hprefix

/-- The sender writes its greeting and then its range, or a part of that. -/
theorem sentOn_begins [Sha256] (s : Tcp4Send) (auth : Auth.SessionAuth) {lane : Nat} (hlane : lane < Auth.tcp4Lanes) :
    s.sentOn auth lane <+: laneGreeting auth lane ++ newline ::
      (s.source.drop (tcp4LaneRange s.source.length lane).1).take
        ((tcp4LaneRange s.source.length lane).2 - (tcp4LaneRange s.source.length lane).1) := by
  obtain ⟨greeting, hwritten, hgreeting, hall⟩ := written_writeAll { breaks := s.breaks lane }
    (laneGreeting auth lane ++ [newline])
  have hwritten : (s.greet auth lane).2.written = greeting := hwritten
  rw [← List.singleton_append, ← List.append_assoc]
  unfold Tcp4Send.sentOn
  split
  · split
    · rw [hwritten]
      exact hgreeting.trans (List.prefix_append _ _)
    · exact List.nil_prefix
  next hnone =>
    have hgreeted : (s.greet auth lane).1 = .ok () := by
      have hok := List.find?_eq_none.1 hnone lane (List.mem_range.2 hlane)
      rcases hr : (s.greet auth lane).1 with e | _
      · rw [hr] at hok
        exact absurd rfl hok
      · rfl
    obtain ⟨bytes, hsent, hprefix⟩ := @written_sendTcpRange s.source
      ((tcp4LaneRange s.source.length lane).2 - (tcp4LaneRange s.source.length lane).1)
      (tcp4LaneRange s.source.length lane).1 (tcp4LaneRange s.source.length lane).2 (s.reads lane)
      (s.greet auth lane).2
    dsimp only
    rw [hsent, hwritten, hall hgreeted]
    exact (List.prefix_append_right_inj _).2 hprefix

/-! ## Greetings -/

section Greetings

variable {w t : Wire} {auth : Auth.SessionAuth} {lane : Nat}

/-- The greeting ends with the first newline. -/
theorem line_of_readGreetingFrom {n : Nat} {bytes greeting : List UInt8}
    (h : (Auth.readGreetingFrom n bytes).run wireMachine w = (.ok greeting, t)) :
    ∃ line, newline ∉ line ∧ greeting = bytes ++ line ∧ w.input = line.map .ok ++ .ok newline :: t.input := by
  induction n generalizing w bytes with
  | zero => cases h
  | succ n ih =>
    obtain ⟨input, failures, draws, output, vouched, accepted⟩ := w
    rcases input with _ | ⟨e | b, input⟩
    · cases h
    · cases h
    · have hread : Auth.readByte.run wireMachine ⟨.ok b :: input, failures, draws, output, vouched, accepted⟩ =
          (.ok (some b), ⟨input, failures, draws, output, vouched, accepted⟩) := rfl
      rw [Auth.readGreetingFrom, run_bind_ok hread] at h
      dsimp only at h
      by_cases hb : b = newline
      · rw [if_pos hb] at h
        cases h
        exact ⟨[], List.not_mem_nil, (List.append_nil _).symm, by rw [hb]; rfl⟩
      · rw [if_neg hb] at h
        obtain ⟨line, hline, rfl, hinput⟩ := ih h
        refine ⟨b :: line, ?_, by simp, congrArg (.ok b :: ·) hinput⟩
        intro hmem
        rcases List.mem_cons.1 hmem with heq | hmem
        · exact hb heq.symm
        · exact hline hmem

/-- A connection whose greeting is accepted greets for the lane that it is taken for. -/
theorem greets_of_readTcp4Hello [Sha256] {stream : DataStream}
    (h : (Auth.readTcp4Hello auth).run wireMachine { input := stream.input } = (.ok lane, t)) :
    Greets auth stream lane { stream with input := t.input } := by
  have hends : Ends wireMachine (Auth.readTcp4Hello auth) (fun r t => ∀ lane, r = .ok lane →
      Greets auth stream lane { stream with input := t.input }) { input := stream.input } := by
    refine ends_bind ?_
    unfold Ends
    rcases hread : (Auth.readGreetingFrom 128 []).run wireMachine { input := stream.input } with ⟨e | greeting, u⟩
    · rintro lane ⟨⟩
    obtain ⟨line, hnewline, hgreeting, hinput⟩ := line_of_readGreetingFrom hread
    rw [List.nil_append] at hgreeting
    subst hgreeting
    have hquiet : ∀ {e : Stop} {t : Wire}, ∀ lane, (.error e : Except Stop Nat) = .ok lane →
        Greets auth stream lane { stream with input := t.input } := by
      rintro e t lane ⟨⟩
    show Ends wireMachine (Auth.require (fromUtf8 greeting) _ >>= _) (fun r t => ∀ lane, r = .ok lane →
      Greets auth stream lane { stream with input := t.input }) u
    refine ends_bind (Auth.ends_require (fun _ => hquiet) fun text htext => ?_)
    obtain ⟨-, rfl⟩ := Auth.fromUtf8_eq_some htext
    dsimp only [Then]
    split
    next tag session number mac hfields =>
      split
      next => exact hquiet
      next htag =>
        rw [not_not.1 htag] at hfields
        refine ends_bind (Auth.ends_lift ?_)
        rcases hsession : Auth.decodeArray 16 session with e | bytes
        · exact hquiet
        dsimp only [Then]
        refine ends_bind (Auth.ends_require (fun _ => hquiet) fun lane hlane => ?_)
        dsimp only [Then]
        refine ends_bind (Auth.ends_lift ?_)
        rcases hmac : Auth.decodeArray 32 mac with e | supplied
        · exact hquiet
        dsimp only [Then]
        split
        next => exact hquiet
        next hright =>
          obtain ⟨hbytes, hbound⟩ := not_or.1 hright
          rw [not_not.1 hbytes] at hsession ⊢
          refine ends_bind (Auth.ends_checkTag hquiet fun htag => ?_)
          rintro lane ⟨⟩
          rw [Auth.constantTimeEq_iff.1 htag] at hmac
          exact ⟨greeting, hnewline, ⟨session, number, mac, hfields, hsession, hlane, not_le.1 hbound, hmac⟩, rfl, hinput⟩
    next => exact hquiet
  unfold Ends at hends
  rw [h] at hends
  exact hends lane rfl

end Greetings

/-! ## The greeting of the sender -/

section Greeting

variable [Sha256] {auth : Auth.SessionAuth} {lane own : Nat}

omit [Sha256] in
theorem hex_ne_nil_of_length {bytes : List UInt8} {n : Nat} (h : bytes.length = n + 1) : hex bytes ≠ [] := by
  refine hex_ne_nil fun hnil => ?_
  rw [hnil] at h
  cases h

/-- The fields of the greeting of a lane. -/
def greetingFields (auth : Auth.SessionAuth) (lane : Nat) : List Str :=
  [ascii "TSU4D", hex auth.session, decimal lane,
    hex (hmacSha256 auth.lane.bytes (Auth.laneInput auth.session lane)).bytes]

theorem graphic_greetingFields (hsession : auth.session.length = 16) :
    ∀ f ∈ greetingFields auth lane, Graphic f ∧ f ≠ [] := by
  have htag : Graphic (ascii "TSU4D") ∧ ascii "TSU4D" ≠ [] := by decide
  intro f hf
  rcases List.mem_cons.1 hf with rfl | hf
  · exact htag
  rcases List.mem_cons.1 hf with rfl | hf
  · exact ⟨graphic_hex _, hex_ne_nil_of_length hsession⟩
  rcases List.mem_cons.1 hf with rfl | hf
  · exact ⟨graphic_decimal _, decimal_ne_nil _⟩
  · rw [List.mem_singleton.1 hf]
    exact ⟨graphic_hex _, hex_ne_nil_of_length (length_hash_bytes _)⟩

theorem laneGreeting_eq (auth : Auth.SessionAuth) (lane : Nat) :
    laneGreeting auth lane = [space].intercalate (greetingFields auth lane) := by
  have hlabel : ascii "TSU4D " = ascii "TSU4D" ++ [space] := by decide
  unfold laneGreeting greetingFields
  rw [hlabel, List.intercalate_cons_cons, List.intercalate_cons_cons, List.intercalate_cons_cons,
    List.intercalate_singleton]
  simp

theorem newline_not_mem_laneGreeting (hsession : auth.session.length = 16) : newline ∉ laneGreeting auth lane := by
  rw [laneGreeting_eq]
  exact (newline_not_mem_fields fun f hf => (graphic_greetingFields hsession f hf).1.plain).1

/-- The greeting of the sender names its lane. -/
theorem eq_of_laneGreeting (hown : own < 2 ^ 64) (h : LaneGreeting auth lane (laneGreeting auth own)) :
    lane = own := by
  obtain ⟨session, number, mac, hfields, hsession, hlane, -, -⟩ := h
  rw [laneGreeting_eq, splitWhitespace_fields (graphic_greetingFields (Auth.length_decodeArray hsession))] at hfields
  cases hfields
  rw [parseUnsigned_decimal hown] at hlane
  cases hlane
  rfl

omit [Sha256] in
/-- The first newline ends the line. -/
theorem eq_of_line {line line' rest rest' : List UInt8} (h : newline ∉ line) (h' : newline ∉ line')
    (heq : line ++ newline :: rest = line' ++ newline :: rest') : line = line' ∧ rest = rest' := by
  induction line generalizing line' with
  | nil =>
    rcases line' with _ | ⟨b, line'⟩
    · exact ⟨rfl, (List.cons.inj heq).2⟩
    · exact absurd List.mem_cons_self ((List.cons.inj heq).1 ▸ h')
  | cons b line ih =>
    rcases line' with _ | ⟨b', line'⟩
    · exact absurd List.mem_cons_self ((List.cons.inj heq).1 ▸ h)
    · obtain ⟨rfl, htails⟩ := List.cons.inj heq
      obtain ⟨rfl, rfl⟩ := ih (List.not_mem_of_not_mem_cons h) (List.not_mem_of_not_mem_cons h') htails
      exact ⟨rfl, rfl⟩

/-- What comes over a connection after its greeting is the range of the lane that it has greeted for. -/
theorem leadingBytes_of_greets {s : Tcp4Send} {stream left : DataStream} (hgreets : Greets auth stream lane left)
    (hown : own < Auth.tcp4Lanes) (h : leadingBytes stream.input <+: s.sentOn auth own) :
    leadingBytes left.input <+: (s.source.drop (tcp4LaneRange s.source.length lane).1).take
      ((tcp4LaneRange s.source.length lane).2 - (tcp4LaneRange s.source.length lane).1) := by
  obtain ⟨line, hline, hgreeting, -, hinput⟩ := hgreets
  obtain ⟨session, number, mac, -, hsession, -⟩ := id hgreeting
  obtain ⟨tail, htail⟩ := h.trans (sentOn_begins s auth hown)
  rw [hinput, leadingBytes_append, leadingBytes, List.append_assoc, List.cons_append] at htail
  obtain ⟨rfl, hrange⟩ := eq_of_line hline (newline_not_mem_laneGreeting (Auth.length_decodeArray hsession)) htail
  rw [eq_of_laneGreeting (hown.trans (by decide)) hgreeting]
  exact ⟨tail, hrange⟩

theorem printable_laneGreeting (auth : Auth.SessionAuth) (lane : Nat) : Printable (laneGreeting auth lane) := by
  have hlabel : Printable (ascii "TSU4D ") := by decide
  have hspace : ∀ {s : Str}, Printable s → Printable (space :: s) := fun hs =>
    printable_append (s := [space]) (by decide) hs
  exact printable_append (printable_append (printable_append hlabel (printable_hex _))
    (hspace (graphic_decimal lane).printable)) (hspace (printable_hex _))

theorem length_laneGreeting (hsession : auth.session.length = 16) (hlane : lane < Auth.tcp4Lanes) :
    (laneGreeting auth lane).length = 105 := by
  have hdecimal : ∀ lane : Fin 4, (decimal lane).length = 1 := by decide
  have hlabel : (ascii "TSU4D ").length = 6 := by decide
  have hmac := length_hash_bytes (hmacSha256 auth.lane.bytes (Auth.laneInput auth.session lane))
  unfold laneGreeting
  rw [List.length_append, List.length_append, List.length_append, List.length_cons, List.length_cons, length_hex,
    length_hex, hsession, hmac, hdecimal ⟨lane, hlane⟩, hlabel]

omit [Sha256] in
theorem run_readGreetingFrom {w : Wire} {line bytes : List UInt8} {rest : List (Except Errno UInt8)} {n : Nat}
    (hline : newline ∉ line) (hlen : line.length < n) (hinput : w.input = line.map .ok ++ .ok newline :: rest) :
    (Auth.readGreetingFrom n bytes).run wireMachine w = (.ok (bytes ++ line), { w with input := rest }) := by
  induction line generalizing bytes n w with
  | nil =>
    obtain ⟨n, rfl⟩ := Nat.exists_eq_succ_of_ne_zero (Nat.ne_of_gt hlen)
    rw [Auth.readGreetingFrom, run_bind_ok (Auth.run_readByte hinput), List.append_nil]
    dsimp only
    rw [if_pos rfl]
    rfl
  | cons b line ih =>
    obtain ⟨n, rfl⟩ := Nat.exists_eq_succ_of_ne_zero (Nat.ne_of_gt (Nat.zero_lt_of_lt hlen))
    obtain ⟨hb, hline⟩ := not_or.1 fun hm => hline (List.mem_cons.2 hm)
    have happend : bytes ++ b :: line = bytes ++ [b] ++ line := by simp
    rw [Auth.readGreetingFrom, run_bind_ok (Auth.run_readByte hinput), happend]
    dsimp only
    rw [if_neg (Ne.symm hb)]
    exact ih hline (Nat.lt_of_succ_lt_succ hlen) rfl

/-- The receiver accepts the greeting of the sender for its lane. -/
theorem run_readTcp4Hello {w : Wire} {rest : List (Except Errno UInt8)} (hsession : auth.session.length = 16)
    (hlane : lane < Auth.tcp4Lanes) (hinput : w.input = (laneGreeting auth lane).map .ok ++ .ok newline :: rest) :
    ∃ t, (Auth.readTcp4Hello auth).run wireMachine w = (.ok lane, t) ∧ t.input = rest := by
  have hlength : (laneGreeting auth lane).length < 128 := by
    rw [length_laneGreeting hsession hlane]
    decide
  have hline := @run_readGreetingFrom _ _ [] _ _ (newline_not_mem_laneGreeting hsession) hlength hinput
  have htext : fromUtf8 (laneGreeting auth lane) = some (laneGreeting auth lane) :=
    if_pos (printable_laneGreeting auth lane).valid
  have hfields : splitWhitespace (laneGreeting auth lane) = greetingFields auth lane := by
    rw [laneGreeting_eq, splitWhitespace_fields (graphic_greetingFields hsession)]
  have hnumber : parseUnsigned 64 10 (decimal lane) = some lane := parseUnsigned_decimal (hlane.trans (by decide))
  have hmac := Auth.decodeArray_hex (length_hash_bytes (hmacSha256 auth.lane.bytes (Auth.laneInput auth.session lane)))
  refine ⟨{ w with input := rest, accepted := w.accepted ++ [(auth.lane, Auth.laneInput auth.session lane)] }, ?_, rfl⟩
  have hlift : ∀ {α β : Type} {value : α} {f : α → WireProg β} {w : Wire},
      ((Prog.lift (.ok value) : WireProg α) >>= f).run wireMachine w = (f value).run wireMachine w := rfl
  have hrequire : ∀ {α β : Type} {value : α} {text : String} {f : α → WireProg β} {w : Wire},
      (Auth.require (some value) text >>= f).run wireMachine w = (f value).run wireMachine w := rfl
  rw [Auth.readTcp4Hello, run_bind_ok hline, List.nil_append, htext, hrequire, hfields]
  dsimp only [greetingFields]
  rw [if_neg (not_not.2 rfl), Auth.decodeArray_hex hsession, hlift, Auth.parseNumber, hnumber, hrequire, hmac, hlift,
    if_neg (not_or.2 ⟨not_not.2 rfl, not_le.2 hlane⟩),
    run_bind_ok (Auth.run_checkTag_of_eq (Auth.constantTimeEq_self _))]
  rfl

end Greeting

/-! ## Accepting connections -/

section Accepting

variable [Sha256] {auth : Auth.SessionAuth} {slots : List (Option DataStream)} {accepted : List Arrival}
  {lanes : List DataStream}

/-- What has been accepted when all slots are taken: each free slot by one connection that has greeted for it. -/
structure SlotsTaken (auth : Auth.SessionAuth) (slots : List (Option DataStream)) (waited : List Arrival)
    (greeted : List (Nat × DataStream)) (lanes : List DataStream) : Prop where
  greets : List.Forall₂ (fun stream (entry : Nat × DataStream) => Greets auth stream entry.1 entry.2)
    (connections waited) greeted
  length_eq : lanes.length = slots.length
  nodup : (greeted.map Prod.fst).Nodup
  free : ∀ lane : Nat, slots[lane]? = some none ↔ lane ∈ greeted.map Prod.fst
  kept : ∀ (lane : Nat) (stream : DataStream), slots[lane]? = some (some stream) → lanes[lane]? = some stream
  carried : ∀ entry ∈ greeted, lanes[entry.1]? = some entry.2

omit [Sha256] in
/-- Slots that are all taken. -/
theorem map_some_of_all (h : slots.all Option.isSome = true) : (slots.filterMap id).map some = slots := by
  induction slots with
  | nil => rfl
  | cons slot slots ih =>
    obtain ⟨hslot, hslots⟩ := Bool.and_eq_true_iff.1 (List.all_cons.symm.trans h)
    obtain ⟨stream, rfl⟩ := Option.isSome_iff_exists.1 hslot
    exact congrArg (some stream :: ·) (ih hslots)

theorem slotsTaken_of_all (h : slots.all Option.isSome = true) :
    SlotsTaken auth slots [] [] (slots.filterMap id) := by
  have hmap := map_some_of_all h
  refine ⟨.nil, ?_, List.nodup_nil, fun lane => ⟨fun hfree => ?_, fun hmem => absurd hmem List.not_mem_nil⟩,
    fun lane stream hslot => ?_, fun entry hmem => absurd hmem List.not_mem_nil⟩
  · rw [← List.length_map some, hmap]
  · have hsome := List.all_eq_true.1 h none (List.mem_of_getElem? hfree)
    cases hsome
  · rw [← hmap, List.getElem?_map] at hslot
    obtain ⟨taken, htaken, heq⟩ := Option.map_eq_some_iff.1 hslot
    cases heq
    exact htaken

/-- One more connection takes a free slot. -/
theorem SlotsTaken.cons {stream left : DataStream} {lane : Nat} {waited : List Arrival}
    {greeted : List (Nat × DataStream)} (hfree : slots[lane]? = some none) (hgreets : Greets auth stream lane left)
    (h : SlotsTaken auth (slots.set lane (some left)) waited greeted lanes) :
    SlotsTaken auth slots (.connection stream :: waited) ((lane, left) :: greeted) lanes := by
  have hlt := (List.getElem?_eq_some_iff.1 hfree).1
  have htaken : (slots.set lane (some left))[lane]? = some (some left) := by
    rw [List.getElem?_set_self hlt]
  have hother : ∀ other, other ≠ lane → (slots.set lane (some left))[other]? = slots[other]? := by
    intro other hne
    exact List.getElem?_set_ne hne.symm
  refine ⟨.cons hgreets h.greets, ?_, ?_, fun other => ?_, fun other stream' hslot => ?_, fun entry hmem => ?_⟩
  · rw [h.length_eq, List.length_set]
  · refine List.nodup_cons.2 ⟨fun hmem => ?_, h.nodup⟩
    have hagain := (h.free lane).2 hmem
    rw [htaken] at hagain
    cases hagain
  · rw [List.map_cons, List.mem_cons]
    by_cases hne : other = lane
    · subst hne
      exact ⟨fun _ => .inl rfl, fun _ => hfree⟩
    · rw [← hother other hne, h.free other]
      exact ⟨.inr, fun hmem => hmem.resolve_left hne⟩
  · by_cases hne : other = lane
    · subst hne
      rw [hfree] at hslot
      cases hslot
    · exact h.kept other stream' ((hother other hne).trans hslot)
  · rcases List.mem_cons.1 hmem with rfl | hmem
    · exact h.kept lane left htaken
    · exact h.carried entry hmem

theorem taken_of_acceptLanes (h : acceptLanes auth slots accepted = .ok (some lanes)) :
    ∃ waited rest greeted, accepted = waited ++ rest ∧ SlotsTaken auth slots waited greeted lanes := by
  induction accepted generalizing slots with
  | nil =>
    unfold acceptLanes at h
    by_cases hall : slots.all Option.isSome = true
    · rw [if_pos hall] at h
      cases h
      exact ⟨[], [], [], rfl, slotsTaken_of_all hall⟩
    · rw [if_neg hall] at h
      cases h
  | cons arrival accepted ih =>
    unfold acceptLanes at h
    by_cases hall : slots.all Option.isSome = true
    · rw [if_pos hall] at h
      cases h
      exact ⟨[], arrival :: accepted, [], rfl, slotsTaken_of_all hall⟩
    rw [if_neg hall] at h
    rcases arrival with stream | late | e
    · dsimp only at h
      split at h
      next => cases h
      next => cases h
      next lane wire hread =>
        split at h
        next hfree =>
          obtain ⟨waited, rest, greeted, rfl, htaken⟩ := ih h
          exact ⟨.connection stream :: waited, rest, _, rfl, htaken.cons hfree (greets_of_readTcp4Hello hread)⟩
        next => cases h
    · dsimp only at h
      split at h
      · cases h
      · obtain ⟨waited, rest, greeted, rfl, htaken⟩ := ih h
        exact ⟨.wouldBlock late :: waited, rest, greeted, rfl, ⟨htaken.greets, htaken.length_eq,
          htaken.nodup, htaken.free, htaken.kept, htaken.carried⟩⟩
    · cases h

/-- Every lane has a connection of its own, which has greeted for it. -/
theorem assigned_of_acceptLanes
    (h : acceptLanes auth (List.replicate Auth.tcp4Lanes none) accepted = .ok (some lanes)) :
    lanes.length = Auth.tcp4Lanes ∧ Assigned auth accepted lanes := by
  obtain ⟨waited, rest, greeted, hwaited, htaken⟩ := taken_of_acceptLanes h
  refine ⟨htaken.length_eq.trans List.length_replicate, ?_⟩
  refine ⟨waited, rest, greeted, hwaited, htaken.greets, ?_, htaken.carried⟩
  refine (List.perm_ext_iff_of_nodup htaken.nodup List.nodup_range).2 fun lane => ?_
  rw [← htaken.free, List.getElem?_replicate, List.mem_range]
  split
  next hlt => exact ⟨fun _ => hlt, fun _ => rfl⟩
  next hge => exact ⟨fun hnone => (nomatch hnone), fun hlt => absurd hlt hge⟩

omit [Sha256] in
theorem exists_left_of_forall₂ {α β : Type} {R : α → β → Prop} {left : List α} {right : List β} {b : β}
    (h : List.Forall₂ R left right) (hmem : b ∈ right) : ∃ a ∈ left, R a b := by
  induction h with
  | nil => exact absurd hmem List.not_mem_nil
  | @cons a b' left right hR _ ih =>
    rcases List.mem_cons.1 hmem with rfl | hmem
    · exact ⟨a, List.mem_cons_self, hR⟩
    · obtain ⟨a', ha', hR'⟩ := ih hmem
      exact ⟨a', List.mem_cons_of_mem a ha', hR'⟩

/-- The connection that carries a lane. -/
theorem Assigned.exists_greets (h : Assigned auth accepted lanes) {lane : Nat} {left : DataStream}
    (hlane : lane < Auth.tcp4Lanes) (hleft : lanes[lane]? = some left) :
    ∃ stream ∈ connections accepted, Greets auth stream lane left := by
  obtain ⟨waited, rest, greeted, rfl, hgreets, hperm, hcarried⟩ := h
  obtain ⟨entry, hentry, rfl⟩ := List.mem_map.1 (hperm.symm.subset (List.mem_range.2 hlane))
  have hsame := (hcarried entry hentry).symm.trans hleft
  cases hsame
  obtain ⟨stream, hstream, hgreet⟩ := exists_left_of_forall₂ hgreets hentry
  refine ⟨stream, ?_, hgreet⟩
  unfold connections
  rw [List.filterMap_append]
  exact List.mem_append_left _ hstream

end Accepting

end PacketTide
