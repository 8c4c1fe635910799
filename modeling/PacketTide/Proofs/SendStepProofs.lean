import PacketTide.UdpTransfer
import PacketTide.Proofs.RepairProofs

/-!
# What a step of the sender sends

The sending thread passes over the chunks in order, sends those that are missing, and sends again what it
has taken from the queue, where only reports put chunks.
-/

namespace PacketTide

open Text

variable {c : UdpSender} {s s' : Sending} {orders : Nat → FirstKey} {delays : Nat → ℚ≥0}

/-! ## The log -/

theorem packetsOf_append (log : List (ℚ × SendEvent)) (t : ℚ) (sequence : Nat) (repair : Bool) :
    packetsOf (log ++ [(t, .packet sequence repair)]) = packetsOf log ++ [(sequence, repair)] := by
  simp [packetsOf]

theorem packetsOf_control (log : List (ℚ × SendEvent)) (t : ℚ) (payload : Str) :
    packetsOf (log ++ [(t, .control payload)]) = packetsOf log := by
  simp [packetsOf]

theorem saidOf_append (log : List (ℚ × SendEvent)) (t : ℚ) (payload : Str) :
    saidOf (log ++ [(t, .control payload)]) = saidOf log ++ [payload] := by
  simp [saidOf]

theorem saidOf_packet (log : List (ℚ × SendEvent)) (t : ℚ) (sequence : Nat) (repair : Bool) :
    saidOf (log ++ [(t, .packet sequence repair)]) = saidOf log := by
  simp [saidOf]

/-! ## Steps -/

/-- The number of the chunks that the first pass has left behind, while it lasts. -/
def SendPhase.position : SendPhase → Option Nat
  | pass sequence | original sequence => some sequence
  | between sequence | interleaved sequence _ => some (sequence + 1)
  | _ => none

/-- A line asks for a chunk. -/
def Requests (chunks : Nat) (line : Str) (x : Nat) : Prop :=
  ∃ snapshot text, readFeedback chunks line = .report snapshot text ∧ NamedIn (rangesOf text) x

namespace Sending

/-- What waits to be sent again comes from the queue, and the queue does not grow. -/
structure AsksNoMore (s s' : Sending) : Prop where
  queue : ∀ x ∈ s'.repairs.queue, x ∈ s.repairs.queue
  waiting : ∀ x ∈ s'.phase.waiting, x ∈ s.phase.waiting ∨ x ∈ s.repairs.queue

/-- What a step of the sending thread sends, and how far it comes. -/
inductive Moves (c : UdpSender) (s s' : Sending) : Prop where
  | quiet (hpackets : packetsOf s'.log = packetsOf s.log)
      (hsaid : ascii "END" ∈ saidOf s'.log → ascii "END" ∈ saidOf s.log)
      (hposition : ∀ n, s'.phase.position = some n → s.phase.position = some n)
      (horiginal : ∀ n, s'.phase = .original n → bitmapContains c.durableChunks n = false ∧
        n < c.chunks ∨ s.phase = .original n)
  | skip {n : Nat} (hphase : s.phase = .pass n) (hheld : bitmapContains c.durableChunks n = true)
      (hlt : n < c.chunks) (hpackets : packetsOf s'.log = packetsOf s.log)
      (hsaid : ascii "END" ∈ saidOf s'.log → ascii "END" ∈ saidOf s.log)
      (hphase' : s'.phase = .pass (n + 1))
  | original {n : Nat} (hphase : s.phase = .original n)
      (hpackets : packetsOf s'.log = packetsOf s.log ++ [(n, false)])
      (hsaid : ascii "END" ∈ saidOf s'.log → ascii "END" ∈ saidOf s.log)
      (hphase' : s'.phase = .between n)
  | repair {x : Nat} (hmem : x ∈ s.phase.waiting)
      (hpackets : packetsOf s'.log = packetsOf s.log ++ [(x, true)])
      (hsaid : ascii "END" ∈ saidOf s'.log → ascii "END" ∈ saidOf s.log)
      (hposition : s'.phase.position = s.phase.position) (hphase' : ∀ n, s'.phase ≠ .original n)
  | ended {n : Nat} (hphase : s.phase = .pass n) (hge : c.chunks ≤ n)
      (hpackets : packetsOf s'.log = packetsOf s.log) (hphase' : s'.phase = .tail)

theorem asksNoMore_of_eq (hqueue : s'.repairs.queue = s.repairs.queue)
    (hwaiting : ∀ x ∈ s'.phase.waiting, x ∈ s.phase.waiting) : s.AsksNoMore s' :=
  ⟨fun _ hx => hqueue ▸ hx, fun x hx => .inl (hwaiting x hx)⟩

theorem said_cancel (s : Sending) :
    ascii "END" ∈ saidOf s.cancel.log → ascii "END" ∈ saidOf s.log := by
  show _ ∈ saidOf (s.log ++ [(s.now, .control _)]) → _
  rw [saidOf_append, List.mem_append, List.mem_singleton]
  rintro (h | h)
  · exact h
  · exact absurd h (by decide)

theorem moves_cancel (s : Sending) : Moves c s s.cancel ∧ s.AsksNoMore s.cancel := by
  refine ⟨.quiet (packetsOf_control _ _ _) s.said_cancel (fun n hn => ?_) (fun n hn => ?_), ?_⟩
  · cases hn
  · cases hn
  · exact asksNoMore_of_eq rfl fun x hx => nomatch hx

theorem log_heartbeat (c : UdpSender) (s : Sending) :
    packetsOf (s.heartbeat c).log = packetsOf s.log ∧
      (ascii "END" ∈ saidOf (s.heartbeat c).log → ascii "END" ∈ saidOf s.log) ∧
      (s.heartbeat c).repairs = s.repairs := by
  unfold heartbeat
  split
  · refine ⟨packetsOf_control _ _ _, ?_, rfl⟩
    show _ ∈ saidOf (s.log ++ [(s.now, .control _)]) → _
    rw [saidOf_append, List.mem_append, List.mem_singleton]
    rintro (h | h)
    · exact h
    · exact absurd h (by decide)
  · exact ⟨rfl, id, rfl⟩

/-- An action of the sending thread. -/
theorem moves_act (c : UdpSender) (s : Sending) (orders : Nat → FirstKey) (delays : Nat → ℚ≥0) :
    Moves c s (s.act c orders delays) ∧ s.AsksNoMore (s.act c orders delays) := by
  obtain ⟨htaken, hleft⟩ := @takeRepairs_queue s.repairs s.now orders delays s.takeLimit
  obtain ⟨hpackets, hsaid, hrepairs⟩ := log_heartbeat c s
  rcases hphase : s.phase with n | n | n | ⟨n, waiting⟩ | _ | _ | waiting | _ | _
  all_goals simp only [Sending.act, hphase]
  case pass =>
    split
    next hge =>
      refine ⟨.ended hphase hge (packetsOf_control _ _ _) rfl, asksNoMore_of_eq rfl ?_⟩
      exact fun x hx => nomatch hx
    next hlt =>
      split
      · exact s.moves_cancel
      · split
        next hheld =>
          refine ⟨.skip hphase hheld (Nat.not_le.1 hlt) hpackets hsaid rfl, asksNoMore_of_eq ?_ ?_⟩
          · exact congrArg RepairQueue.queue hrepairs
          · exact fun x hx => nomatch hx
        next hheld =>
          refine ⟨.quiet hpackets hsaid (fun m hm => ?_) (fun m hm => .inl ?_), asksNoMore_of_eq ?_ ?_⟩
          · rw [hphase]
            exact hm
          · cases hm
            exact ⟨Bool.eq_false_iff.2 hheld, Nat.not_le.1 hlt⟩
          · exact congrArg RepairQueue.queue hrepairs
          · exact fun x hx => nomatch hx
  case original =>
    refine ⟨.original hphase (packetsOf_append _ _ _ _) ?_ rfl, asksNoMore_of_eq rfl ?_⟩
    · exact fun h => (saidOf_packet s.log s.now n false) ▸ h
    · exact fun x hx => nomatch hx
  case between =>
    split
    · refine ⟨.quiet rfl id (fun m hm => ?_) (fun m hm => nomatch hm), fun x hx => ?_, fun x hx => .inr ?_⟩
      · rw [hphase]
        exact hm
      · exact List.drop_subset _ _ (hleft ▸ hx)
      · exact List.take_subset _ _ (htaken ▸ hx)
    · refine ⟨.quiet rfl id (fun m hm => ?_) (fun m hm => nomatch hm), asksNoMore_of_eq rfl ?_⟩
      · rw [hphase]
        exact hm
      · exact fun x hx => nomatch hx
  case interleaved =>
    rcases waiting with _ | ⟨x, waiting⟩
    · refine ⟨.quiet rfl id (fun m hm => ?_) (fun m hm => nomatch hm), asksNoMore_of_eq rfl ?_⟩
      · rw [hphase]
        exact hm
      · exact fun x hx => nomatch hx
    · refine ⟨.repair (x := x) ?_ (packetsOf_append _ _ _ _) ?_ ?_ (fun m hm => nomatch hm),
        asksNoMore_of_eq rfl fun y hy => ?_⟩
      · rw [hphase]
        exact List.mem_cons_self
      · exact fun h => (saidOf_packet s.log s.now x true) ▸ h
      · rw [hphase]
        rfl
      · rw [hphase]
        exact List.mem_cons_of_mem _ hy
  case tail =>
    split
    · refine ⟨.quiet (packetsOf_control _ _ _) ?_ (fun m hm => nomatch hm) (fun m hm => nomatch hm),
        asksNoMore_of_eq rfl fun x hx => nomatch hx⟩
      show _ ∈ saidOf (s.log ++ [(s.now, .control _)]) → _
      rw [saidOf_append, List.mem_append, List.mem_singleton]
      rintro (h | h)
      · exact h
      · exact absurd h (by decide)
    · split
      · exact s.moves_cancel
      · refine ⟨.quiet hpackets hsaid (fun m hm => nomatch hm) (fun m hm => nomatch hm),
          asksNoMore_of_eq ?_ fun x hx => nomatch hx⟩
        exact congrArg RepairQueue.queue hrepairs
  case taking =>
    refine ⟨.quiet rfl id (fun m hm => ?_) (fun m hm => ?_), fun x hx => ?_, fun x hx => .inr ?_⟩
    · dsimp only at hm
      split at hm
      · cases hm
      · cases hm
    · dsimp only at hm
      split at hm
      · cases hm
      · cases hm
    · exact List.drop_subset _ _ (hleft ▸ hx)
    · dsimp only at hx
      split at hx
      · cases hx
      · exact List.take_subset _ _ (htaken ▸ hx)
  case repairing =>
    rcases waiting with _ | ⟨x, waiting⟩
    · exact ⟨.quiet rfl id (fun m hm => nomatch hm) (fun m hm => nomatch hm),
        asksNoMore_of_eq rfl fun x hx => nomatch hx⟩
    · refine ⟨.repair (x := x) ?_ (packetsOf_append _ _ _ _) ?_ ?_ (fun m hm => nomatch hm),
        asksNoMore_of_eq rfl fun y hy => ?_⟩
      · rw [hphase]
        exact List.mem_cons_self
      · exact fun h => (saidOf_packet s.log s.now x true) ▸ h
      · rw [hphase]
        rfl
      · rw [hphase]
        exact List.mem_cons_of_mem _ hy
  case acknowledged =>
    exact ⟨.quiet rfl id (fun m hm => hm) (fun m hm => .inr hm), asksNoMore_of_eq rfl fun x hx => hx⟩
  case failed =>
    exact ⟨.quiet rfl id (fun m hm => hm) (fun m hm => .inr hm), asksNoMore_of_eq rfl fun x hx => hx⟩

/-- A step that is not the reading of a line. -/
theorem moves_step {input : SendInput} (hinput : ∀ line, input ≠ .hear line) :
    Moves c s (s.step c input) ∧ s.AsksNoMore (s.step c input) := by
  have hsame : ∀ s' : Sending, s'.log = s.log → s'.phase = s.phase → s'.repairs = s.repairs →
      Moves c s s' ∧ s.AsksNoMore s' := by
    intro s' hlog hphase hrepairs
    refine ⟨.quiet (by rw [hlog]) (by rw [hlog]; exact id) (fun n hn => hphase ▸ hn)
      (fun n hn => .inr (hphase ▸ hn)), asksNoMore_of_eq (by rw [hrepairs]) fun x hx => hphase ▸ hx⟩
  cases input with
  | hear line => exact absurd rfl (hinput line)
  | act orders delays => exact moves_act c s orders delays
  | disconnect error =>
    show Moves c s (s.disconnect error) ∧ s.AsksNoMore (s.disconnect error)
    unfold Sending.disconnect
    split
    · exact hsame s rfl rfl rfl
    · exact hsame _ rfl rfl rfl
  | fail =>
    show Moves c s (if s.ended then s else s.cancel) ∧ s.AsksNoMore (if s.ended then s else s.cancel)
    split
    · exact hsame s rfl rfl rfl
    · exact s.moves_cancel
  | wait time => exact hsame _ rfl rfl rfl

/-- Nothing that has been sent is taken back. -/
theorem log_prefix_step (c : UdpSender) (s : Sending) (input : SendInput) :
    s.log <+: (s.step c input).log := by
  have hemit : ∀ event, s.log <+: (s.emit event).log := fun event => List.prefix_append _ _
  have hheartbeat : s.log <+: (s.heartbeat c).log := by
    unfold heartbeat
    split
    · exact hemit _
    · exact List.prefix_refl _
  cases input with
  | hear line =>
    show s.log <+: (s.hear c line).log
    unfold Sending.hear
    split
    · exact List.prefix_refl _
    · split <;> exact List.prefix_refl _
  | act orders delays =>
    show s.log <+: (s.act c orders delays).log
    rcases hphase : s.phase with n | n | n | ⟨n, _ | ⟨x, waiting⟩⟩ | _ | _ | (_ | ⟨x, waiting⟩) | _ | _
    all_goals simp only [Sending.act, hphase]
    case pass =>
      split
      · exact hemit _
      · split
        · exact hemit _
        · exact hheartbeat
    case between => split <;> exact List.prefix_refl _
    case tail =>
      split
      · exact hemit _
      · split
        · exact hemit _
        · exact hheartbeat
    all_goals first
      | exact hemit _
      | exact List.prefix_refl _
  | disconnect error =>
    show s.log <+: (s.disconnect error).log
    unfold Sending.disconnect
    split <;> exact List.prefix_refl _
  | fail =>
    show s.log <+: (if s.ended then s else s.cancel).log
    split
    · exact List.prefix_refl _
    · exact hemit _
  | wait time => exact List.prefix_refl _

/-! ## The first pass -/

/-- The chunks that have been sent for the first time. -/
def originalsOf (log : List (ℚ × SendEvent)) : List Nat :=
  ((packetsOf log).filter fun packet => !packet.2).map Prod.fst

/-- The first pass has left a number of chunks behind, and has sent those that the receiver did not
hold. -/
structure Passing (c : UdpSender) (s : Sending) (n : Nat) : Prop where
  originals : originalsOf s.log = (List.range n).filter fun x => !bitmapContains c.durableChunks x
  le_chunks : n ≤ c.chunks
  position : ∀ m, s.phase.position = some m → m = n
  original : ∀ m, s.phase = .original m → bitmapContains c.durableChunks m = false ∧ m < c.chunks
  ended : ascii "END" ∈ saidOf s.log → n = c.chunks

theorem Passing.moves {n : Nat} (h : Passing c s n) (hmoves : Moves c s s') :
    ∃ n', Passing c s' n' := by
  have hsame : packetsOf s'.log = packetsOf s.log → originalsOf s'.log = originalsOf s.log := fun heq =>
    congrArg (fun l => (l.filter fun packet => !packet.2).map Prod.fst) heq
  cases hmoves with
  | quiet hpackets hsaid hposition horiginal =>
    refine ⟨n, (hsame hpackets).trans h.originals, h.le_chunks, fun m hm => h.position m (hposition m hm),
      fun m hm => ?_, fun hend => h.ended (hsaid hend)⟩
    rcases horiginal m hm with hnew | hold
    · exact hnew
    · exact h.original m hold
  | @skip m hphase hheld hlt hpackets hsaid hphase' =>
    obtain rfl := h.position m (by rw [hphase]; rfl)
    refine ⟨m + 1, ?_, hlt, fun k hk => ?_, fun k hk => ?_, fun hend => ?_⟩
    · rw [hsame hpackets, h.originals, List.range_succ, List.filter_append, List.filter_cons_of_neg,
        List.filter_nil, List.append_nil]
      rw [hheld]
      decide
    · rw [hphase'] at hk
      cases hk
      rfl
    · rw [hphase'] at hk
      cases hk
    · have hpassed := h.ended (hsaid hend)
      omega
  | @original m hphase hpackets hsaid hphase' =>
    obtain rfl := h.position m (by rw [hphase]; rfl)
    obtain ⟨hmissing, hlt⟩ := h.original m hphase
    refine ⟨m + 1, ?_, hlt, fun k hk => ?_, fun k hk => ?_, fun hend => ?_⟩
    · rw [List.range_succ, List.filter_append, ← h.originals, List.filter_cons_of_pos (by rw [hmissing]; rfl)]
      unfold originalsOf
      rw [hpackets, List.filter_append, List.map_append]
      rfl
    · rw [hphase'] at hk
      cases hk
      rfl
    · rw [hphase'] at hk
      cases hk
    · have hpassed := h.ended (hsaid hend)
      omega
  | repair hmem hpackets hsaid hposition hphase' =>
    refine ⟨n, ?_, h.le_chunks, fun m hm => h.position m (hposition ▸ hm),
      fun m hm => absurd hm (hphase' m), fun hend => h.ended (hsaid hend)⟩
    rw [← h.originals]
    unfold originalsOf
    rw [hpackets, List.filter_append, List.map_append]
    exact List.append_nil _
  | @ended m hphase hge hpackets hphase' =>
    obtain rfl := h.position m (by rw [hphase]; rfl)
    refine ⟨m, (hsame hpackets).trans h.originals, h.le_chunks, fun k hk => ?_, fun k hk => ?_, fun _ => ?_⟩
    · rw [hphase'] at hk
      cases hk
    · rw [hphase'] at hk
      cases hk
    · exact Nat.le_antisymm h.le_chunks hge

/-! ## Reading -/

theorem hear_asks (c : UdpSender) (s : Sending) (line : Str) :
    (s.hear c line).log = s.log ∧ (s.hear c line).phase = s.phase ∧
      ∀ x ∈ (s.hear c line).repairs.queue, x ∈ s.repairs.queue ∨ Requests c.chunks line x := by
  unfold Sending.hear
  split
  · exact ⟨rfl, rfl, fun x hx => .inl hx⟩
  · split
    · exact ⟨rfl, rfl, fun x hx => .inl hx⟩
    next snapshot text hreport =>
      refine ⟨rfl, rfl, fun x hx => ?_⟩
      rcases mem_queue_enqueueRepairs hx with hx | hx
      · exact .inl hx
      · exact .inr ⟨snapshot, text, hreport, hx⟩
    · exact ⟨rfl, rfl, fun x hx => .inl hx⟩
    · exact ⟨rfl, rfl, fun x hx => .inl hx⟩

theorem Passing.hear {n : Nat} (h : Passing c s n) (line : Str) : Passing c (s.hear c line) n := by
  obtain ⟨hlog, hphase, -⟩ := s.hear_asks c line
  refine ⟨?_, h.le_chunks, ?_, ?_, ?_⟩
  · rw [hlog]
    exact h.originals
  · rw [hphase]
    exact h.position
  · rw [hphase]
    exact h.original
  · rw [hlog]
    exact h.ended

end Sending

end PacketTide
