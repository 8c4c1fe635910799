import PacketTide.Proofs.RepairProofs
import PacketTide.SendUdp

/-!
# Repairs of a sender

While a chunk waits to be sent again, and for a cooldown after that, the repair queue has to remember it.
It does so as long as it forgets only chunks for which that time is over.
-/

namespace PacketTide

open Text

variable {c : UdpSender} {s : Sending} {q : RepairQueue} {now : ℚ} {x : Nat}

theorem mem_remembered_pop {sequence : Nat} {order : FirstKey} (h : sequence ∉ q.remembered) :
    x ∈ (q.pop sequence order now).remembered ↔
      x = sequence ∨ x ∈ q.remembered ∧ q.victim order ≠ some x := by
  rw [RepairQueue.remembered, lastSent_pop h, List.map_cons, List.mem_cons]
  refine or_congr Iff.rfl ⟨fun hx => ?_, fun hx => ?_⟩
  · obtain ⟨e, he, rfl⟩ := List.mem_map.1 hx
    obtain ⟨hmem, hne⟩ := mem_kept.1 he
    exact ⟨List.mem_map_of_mem hmem, hne⟩
  · obtain ⟨hx, hne⟩ := hx
    obtain ⟨e, he, rfl⟩ := List.mem_map.1 hx
    exact List.mem_map_of_mem (mem_kept.2 ⟨he, hne⟩)

/-- A log is spaced if it was before its last entry and that is no repair that comes too soon. -/
theorem repairsSpaced_concat {cooldown : ℚ} {log : List (ℚ × SendEvent)} {sent : ℚ × SendEvent}
    (h : RepairsSpaced cooldown log)
    (hlast : ∀ x, sent.2 = .packet x true → ∀ t, (t, SendEvent.packet x true) ∈ log →
      t + cooldown ≤ sent.1) : RepairsSpaced cooldown (log ++ [sent]) := by
  intro before t₁ between t₂ after x heq
  rcases List.eq_nil_or_concat' after with rfl | ⟨init, last, rfl⟩
  · obtain ⟨hlog, hsent⟩ := List.append_inj' heq rfl
    obtain rfl : sent = (t₂, .packet x true) := List.singleton_inj.1 hsent
    subst hlog
    exact hlast x rfl t₁ (by simp)
  · have hsplit : log = before ++ (t₁, .packet x true) :: between ++ (t₂, .packet x true) :: init := by
      rw [← List.cons_append, ← List.append_assoc] at heq
      exact (List.append_inj' heq rfl).1
    exact h before t₁ between t₂ init x hsplit

namespace Sending

/-- What holds of the repairs of a sender. -/
structure Orderly (c : UdpSender) (s : Sending) : Prop where
  valid : s.repairs.Valid s.now
  cooldown_eq : s.repairs.cooldown = c.repairCooldown
  waiting_nodup : s.phase.waiting.Nodup
  waiting_remembered : ∀ x ∈ s.phase.waiting, x ∈ s.repairs.remembered
  recent : ∀ t x, (t, SendEvent.packet x true) ∈ s.log →
    x ∈ s.repairs.remembered ∨ t + c.repairCooldown ≤ s.now
  waiting_cool : ∀ x ∈ s.phase.waiting, ∀ t, (t, SendEvent.packet x true) ∈ s.log →
    t + c.repairCooldown ≤ s.now
  spaced : RepairsSpaced c.repairCooldown s.log

/-- Something is sent that is no repair. -/
theorem Orderly.emit (h : Orderly c s) {event : SendEvent} (hne : ∀ x, event ≠ .packet x true) :
    Orderly c (s.emit event) := by
  have hlog : ∀ {t x}, (t, SendEvent.packet x true) ∈ (s.emit event).log →
      (t, SendEvent.packet x true) ∈ s.log := by
    intro t x hmem
    rcases List.mem_append.1 hmem with hmem | hmem
    · exact hmem
    · exact absurd (Prod.mk.inj (List.mem_singleton.1 hmem)).2.symm (hne x)
  exact ⟨h.valid, h.cooldown_eq, h.waiting_nodup, h.waiting_remembered,
    fun t x hmem => h.recent t x (hlog hmem), fun x hx t hmem => h.waiting_cool x hx t (hlog hmem),
    repairsSpaced_concat h.spaced fun x hx => absurd hx (hne x)⟩

theorem Orderly.enter (h : Orderly c s) {phase : SendPhase} (hphase : phase.waiting = []) :
    Orderly c (s.enter phase) := by
  refine ⟨h.valid, h.cooldown_eq, ?_, ?_, h.recent, ?_, h.spaced⟩
  · exact hphase ▸ .nil
  · intro x hx
    rw [Sending.enter, hphase] at hx
    exact absurd hx List.not_mem_nil
  · intro x hx
    rw [Sending.enter, hphase] at hx
    exact absurd hx List.not_mem_nil

theorem Orderly.heartbeat (h : Orderly c s) : Orderly c (s.heartbeat c) := by
  unfold Sending.heartbeat
  split
  · have hemit := @Orderly.emit _ _ h (.control (ascii "PING")) fun _ => SendEvent.noConfusion
    exact ⟨hemit.valid, hemit.cooldown_eq, hemit.waiting_nodup, hemit.waiting_remembered, hemit.recent,
      hemit.waiting_cool, hemit.spaced⟩
  · exact h

theorem Orderly.cancel (h : Orderly c s) : Orderly c s.cancel :=
  (h.emit fun _ => SendEvent.noConfusion).enter rfl

/-- The first chunk that waits is sent again. -/
theorem Orderly.repair (h : Orderly c s) {waiting : List Nat} {phase : SendPhase}
    (hs : s.phase.waiting = x :: waiting) (hphase : phase.waiting = waiting) :
    Orderly c ((s.emit (.packet x true)).enter phase) := by
  have hx : x ∈ s.phase.waiting := hs ▸ List.mem_cons_self
  have hrest : ∀ {y}, y ∈ phase.waiting → y ∈ s.phase.waiting := fun hy =>
    hs ▸ List.mem_cons_of_mem _ (hphase ▸ hy)
  obtain ⟨hnew, hnodup⟩ := List.nodup_cons.1 (hs ▸ h.waiting_nodup)
  refine ⟨h.valid, h.cooldown_eq, hphase ▸ hnodup, fun y hy => h.waiting_remembered y (hrest hy), ?_,
    ?_, ?_⟩
  · intro t y hmem
    rcases List.mem_append.1 hmem with hmem | hmem
    · exact h.recent t y hmem
    · cases List.mem_singleton.1 hmem
      exact .inl (h.waiting_remembered x hx)
  · intro y hy t hmem
    rcases List.mem_append.1 hmem with hmem | hmem
    · exact h.waiting_cool y (hrest hy) t hmem
    · cases List.mem_singleton.1 hmem
      exact absurd (hphase ▸ hy) hnew
  · refine repairsSpaced_concat h.spaced fun y hy t hmem => ?_
    cases hy
    exact h.waiting_cool x hx t hmem

/-! ## Taking -/

/-- What holds while chunks are taken. -/
structure Taking (c : UdpSender) (s : Sending) (q : RepairQueue) (now : ℚ)
    (entries : List (Nat × ℚ)) : Prop where
  valid : q.Valid now
  cooldown_eq : q.cooldown = c.repairCooldown
  now_le : s.now ≤ now
  queue_subset : q.queue ⊆ s.repairs.queue
  nodup : (entries.map Prod.fst).Nodup
  remembered : ∀ x ∈ entries.map Prod.fst, x ∈ q.remembered
  fresh : ∀ x ∈ entries.map Prod.fst, x ∈ s.repairs.queue
  forgotten : ∀ x ∈ s.repairs.remembered, x ∈ q.remembered ∨ s.Cool c x

theorem Taking.pop {entries : List (Nat × ℚ)} {sequence : Nat} {queue : List Nat} {order : FirstKey}
    {later : ℚ} (h : Taking c s q now entries) (hq : q.queue = sequence :: queue) (hle : now ≤ later)
    (hcool : ∀ forgotten, q.victim order = some forgotten →
      forgotten ∉ entries.map Prod.fst ∧ s.Cool c forgotten) :
    Taking c s (q.pop sequence order later) later (entries ++ [(sequence, later)]) := by
  have hmem : sequence ∈ q.queue := hq ▸ List.mem_cons_self
  have hnew := h.valid.disjoint sequence hmem
  have hqueue : (q.pop sequence order later).queue = queue := by
    show q.queue.tail = queue
    rw [hq, List.tail_cons]
  have hmap : (entries ++ [(sequence, later)]).map Prod.fst = entries.map Prod.fst ++ [sequence] := by
    rw [List.map_append, List.map_singleton]
  refine ⟨h.valid.pop hq hle, h.cooldown_eq, h.now_le.trans hle, ?_, ?_, ?_, ?_, ?_⟩
  · rw [hqueue]
    exact fun x hx => h.queue_subset (hq ▸ List.mem_cons_of_mem _ hx)
  · rw [hmap]
    refine h.nodup.append (List.nodup_singleton _) ?_
    simpa using fun t ht => hnew (h.remembered sequence (List.mem_map.2 ⟨_, ht, rfl⟩))
  · rw [hmap]
    intro x hx
    rw [mem_remembered_pop hnew]
    rcases List.mem_append.1 hx with hx | hx
    · exact .inr ⟨h.remembered x hx, fun hvictim => (hcool x hvictim).1 hx⟩
    · exact .inl (List.mem_singleton.1 hx)
  · rw [hmap]
    intro x hx
    rcases List.mem_append.1 hx with hx | hx
    · exact h.fresh x hx
    · exact List.mem_singleton.1 hx ▸ h.queue_subset hmem
  · intro x hx
    rw [mem_remembered_pop hnew]
    rcases h.forgotten x hx with hx | hx
    · by_cases hvictim : q.victim order = some x
      · exact .inr (hcool x hvictim).2
      · exact .inl (.inr ⟨hx, hvictim⟩)
    · exact .inr hx

theorem Orderly.take (h : Orderly c s) {orders : Nat → FirstKey} {delays : Nat → ℚ≥0}
    (hcool : EachForgotten (fun taken _ forgotten => forgotten ∉ taken ∧ s.Cool c forgotten) orders
      delays s.now s.repairs [] s.takeLimit) {phase : SendPhase}
    (hphase : phase.waiting =
      (takeRepairs orders delays s.now s.repairs s.takeLimit).entries.map Prod.fst) :
    Orderly c { s with
      repairs := (takeRepairs orders delays s.now s.repairs s.takeLimit).repairs
      now := (takeRepairs orders delays s.now s.repairs s.takeLimit).now
      phase } := by
  have hbegin : Taking c s s.repairs s.now [] := ⟨h.valid, h.cooldown_eq, le_rfl, fun _ => id, .nil,
    fun x hx => absurd hx List.not_mem_nil, fun x hx => absurd hx List.not_mem_nil,
    fun x hx => .inl hx⟩
  have hend := takeRepairs_keeps (P := Taking c s)
    (fun _ _ _ _ _ _ delay h hq hF => h.pop hq (le_add_of_nonneg_right delay.2) hF) [] hbegin hcool
  rw [List.nil_append] at hend
  refine ⟨hend.valid, hend.cooldown_eq, hphase ▸ hend.nodup, fun x hx => hend.remembered x (hphase ▸ hx),
    fun t x hmem => ?_, fun x hx t hmem => ?_, h.spaced⟩
  · rcases h.recent t x hmem with hx | hold
    · rcases hend.forgotten x hx with hx | hx
      · exact .inl hx
      · exact .inr ((hx.2 t hmem).trans hend.now_le)
    · exact .inr (hold.trans hend.now_le)
  · -- What has been taken was queued, so it was not remembered.
    have hnew := h.valid.disjoint x (hend.fresh x (hphase ▸ hx))
    rcases h.recent t x hmem with hin | hold
    · exact absurd hin hnew
    · exact hold.trans hend.now_le

/-! ## Steps -/

theorem Orderly.expire (h : Orderly c s)
    (hcool : ∀ e ∈ s.repairs.lastSent, c.repairCooldown ≤ max 0 (s.now - e.2) → s.Cool c e.1) :
    Orderly c { s with repairs := s.repairs.expire s.now } := by
  have hkept : ∀ x ∈ s.repairs.remembered, x ∈ (s.repairs.expire s.now).remembered ∨ s.Cool c x := by
    intro x hx
    obtain ⟨e, he, rfl⟩ := List.mem_map.1 hx
    by_cases hwarm : max 0 (s.now - e.2) < s.repairs.cooldown
    · exact .inl (List.mem_map_of_mem (List.mem_filter.2 ⟨he, decide_eq_true hwarm⟩))
    · exact .inr (hcool e he (h.cooldown_eq ▸ not_lt.1 hwarm))
  refine ⟨h.valid.expire, h.cooldown_eq, h.waiting_nodup, fun x hx => ?_, fun t x hmem => ?_,
    h.waiting_cool, h.spaced⟩
  · exact (hkept x (h.waiting_remembered x hx)).resolve_right fun hc => hc.1 hx
  · rcases h.recent t x hmem with hx | hold
    · exact (hkept x hx).imp id fun hc => hc.2 t hmem
    · exact .inr hold

theorem Orderly.enqueue (h : Orderly c s) (ranges : Str) (chunks : Nat) :
    Orderly c { s with repairs := (enqueueRepairs s.repairs ranges chunks).1 } := by
  obtain ⟨hlast, hcooldown⟩ := lastSent_enqueueRepairs s.repairs ranges chunks
  have hmem : (enqueueRepairs s.repairs ranges chunks).1.remembered = s.repairs.remembered :=
    congrArg (List.map Prod.fst) hlast
  refine ⟨h.valid.enqueueRepairs ranges chunks, hcooldown.trans h.cooldown_eq, h.waiting_nodup,
    fun x hx => ?_, fun t x hin => ?_, h.waiting_cool, h.spaced⟩
  · exact hmem ▸ h.waiting_remembered x hx
  · exact (h.recent t x hin).imp (fun hx => hmem ▸ hx) id

theorem Orderly.hear (h : Orderly c s) {line : Str} (hcool : s.ForgetsCool c (.hear line)) :
    Orderly c (s.hear c line) := by
  unfold Sending.hear
  split
  · exact h
  next hlistening =>
    rw [Bool.not_eq_false] at hlistening
    split
    · exact ⟨h.valid, h.cooldown_eq, h.waiting_nodup, h.waiting_remembered, h.recent, h.waiting_cool,
        h.spaced⟩
    next snapshot ranges hline =>
      have hexpired := h.expire (hcool hlistening snapshot ranges hline)
      have hqueued := hexpired.enqueue ranges c.chunks
      exact ⟨hqueued.valid, hqueued.cooldown_eq, hqueued.waiting_nodup, hqueued.waiting_remembered,
        hqueued.recent, hqueued.waiting_cool, hqueued.spaced⟩
    · exact ⟨h.valid, h.cooldown_eq, h.waiting_nodup, h.waiting_remembered, h.recent, h.waiting_cool,
        h.spaced⟩
    · exact h

theorem Orderly.disconnect (h : Orderly c s) (error : String) : Orderly c (s.disconnect error) := by
  unfold Sending.disconnect
  split
  · exact h
  · exact ⟨h.valid, h.cooldown_eq, h.waiting_nodup, h.waiting_remembered, h.recent, h.waiting_cool,
      h.spaced⟩

theorem Orderly.wait (h : Orderly c s) (time : ℚ≥0) : Orderly c { s with now := s.now + time } := by
  have hle : s.now ≤ s.now + time := le_add_of_nonneg_right time.2
  exact ⟨h.valid.wait hle, h.cooldown_eq, h.waiting_nodup, h.waiting_remembered,
    fun t x hmem => (h.recent t x hmem).imp id hle.trans',
    fun x hx t hmem => (h.waiting_cool x hx t hmem).trans hle, h.spaced⟩

theorem Orderly.act (h : Orderly c s) {orders : Nat → FirstKey} {delays : Nat → ℚ≥0}
    (hcool : s.ForgetsCool c (.act orders delays)) : Orderly c (s.act c orders delays) := by
  rcases hphase : s.phase with sequence | sequence | sequence | ⟨sequence, waiting⟩ | _ | _ | waiting |
    _ | _
  all_goals simp only [Sending.act, hphase]
  case pass =>
    split
    · exact (h.emit fun _ => SendEvent.noConfusion).enter rfl
    · split
      · exact h.cancel
      · refine h.heartbeat.enter ?_
        split
        · rfl
        · rfl
  case original =>
    refine (h.emit fun x hx => ?_).enter rfl
    cases hx
  case between =>
    split
    · exact h.take hcool rfl
    · exact h.enter rfl
  case interleaved =>
    rcases waiting with _ | ⟨x, waiting⟩
    · exact h.enter rfl
    · exact h.repair (by rw [hphase]; rfl) rfl
  case tail =>
    split
    · exact (h.emit fun _ => SendEvent.noConfusion).enter rfl
    · split
      · exact h.cancel
      · exact h.heartbeat.enter rfl
  case taking =>
    refine h.take hcool ?_
    split
    next hnil => exact hnil.symm
    · rfl
  case repairing =>
    rcases waiting with _ | ⟨x, waiting⟩
    · exact h.enter rfl
    · exact h.repair (by rw [hphase]; rfl) rfl
  case acknowledged => exact h
  case failed => exact h

theorem Orderly.step (h : Orderly c s) {input : SendInput} (hcool : s.ForgetsCool c input) :
    Orderly c (s.step c input) := by
  cases input with
  | hear line => exact h.hear hcool
  | disconnect error => exact h.disconnect error
  | act orders delays => exact h.act hcool
  | fail =>
    show Orderly c (if s.ended then s else s.cancel)
    split
    · exact h
    · exact h.cancel
  | wait time => exact h.wait time

theorem Orderly.run (h : Orderly c s) {inputs : List SendInput}
    (hcool : s.Along c (ForgetsCool c) inputs) : Orderly c (s.run c inputs) := by
  induction inputs generalizing s with
  | nil => exact h
  | cons input inputs ih => exact ih (h.step hcool.1) hcool.2

instance decidableAlong (c : UdpSender) (P : Sending → SendInput → Prop)
    [∀ s input, Decidable (P s input)] :
    (s : Sending) → (inputs : List SendInput) → Decidable (s.Along c P inputs)
  | _, [] => .isTrue trivial
  | s, input :: inputs =>
    haveI := decidableAlong c P (s.step c input) inputs
    inferInstanceAs (Decidable (_ ∧ _))

theorem Along.mono {P Q : Sending → SendInput → Prop} (hPQ : ∀ s input, P s input → Q s input)
    {inputs : List SendInput} (h : s.Along c P inputs) : s.Along c Q inputs := by
  induction inputs generalizing s with
  | nil => trivial
  | cons input inputs ih => exact ⟨hPQ s input h.1, ih h.2⟩

/-- An object of three chunks. -/
def smallSender : UdpSender := ⟨4272, 3, 1424, [0], 15 / 2, 30⟩

/-- So many actions of the sending thread, without a pause. -/
def acts (n : Nat) : List SendInput := List.replicate n (.act (fun _ => default) fun _ => 0)

end Sending

end PacketTide
