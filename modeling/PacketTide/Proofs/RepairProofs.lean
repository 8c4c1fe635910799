import PacketTide.Repairs
import PacketTide.Text.Proofs.SplitProofs
import Mathlib.Tactic.Linarith
import Mathlib.Tactic.Ring

/-!
# The repair queue

The queue and its set agree, a chunk is never queued while its repair is remembered, and the map stays
within its bound.
-/

namespace PacketTide

open Text

variable {q : RepairQueue} {now later : ℚ} {sequence : Nat} {order : FirstKey}
  {orders : Nat → FirstKey} {delays : Nat → ℚ≥0} {r : Repairing}

/-- What holds of a queue at a time. -/
structure RepairQueue.Valid (q : RepairQueue) (now : ℚ) : Prop where
  queue_nodup : q.queue.Nodup
  mem_queued : ∀ s, s ∈ q.queued ↔ s ∈ q.queue
  queued_nodup : q.queued.Nodup
  remembered_nodup : q.remembered.Nodup
  disjoint : ∀ s ∈ q.queue, s ∉ q.remembered
  length_le : q.lastSent.length ≤ maxQueuedRepairs
  times_le : ∀ e ∈ q.lastSent, e.2 ≤ now

theorem valid_new (cooldown : ℚ) : ({ cooldown } : RepairQueue).Valid now where
  queue_nodup := .nil
  mem_queued _ := Iff.rfl
  queued_nodup := .nil
  remembered_nodup := .nil
  disjoint _ h := absurd h List.not_mem_nil
  length_le := Nat.zero_le _
  times_le _ h := absurd h List.not_mem_nil

theorem RepairQueue.Valid.wait (h : q.Valid now) (hle : now ≤ later) : q.Valid later :=
  { h with times_le := fun e he => (h.times_le e he).trans hle }

/-! ## Ranges -/

theorem parseChunkNumber_decimal {n : Nat} (h : n < 2 ^ 64) :
    parseChunkNumber (decimal n) = .ok n := by
  unfold parseChunkNumber
  rw [parseUnsigned_decimal h]

/-- A range is read back as it was written. -/
theorem parseRange_formatRange {range : Nat × Nat} (hle : range.1 ≤ range.2)
    (hlt : range.2 < 2 ^ 64) : parseRange (formatRange range) = .ok range := by
  obtain ⟨start, stop⟩ := range
  have hplain : ∀ n, hyphen ∉ decimal n := fun n => not_mem_decimal (by decide)
  have hstart : start < 2 ^ 64 := lt_of_le_of_lt hle hlt
  unfold parseRange
  by_cases heq : start = stop
  · subst heq
    rw [formatRange, if_pos rfl, splitOnce_eq_none (hplain start)]
    simp only [parseChunkNumber_decimal hstart]
    rfl
  · rw [formatRange, if_neg heq, splitOnce_append (hplain start)]
    simp only [parseChunkNumber_decimal hstart, parseChunkNumber_decimal hlt]
    show (refuseIf (stop < start) _ >>= fun _ => Except.ok (start, stop)) = _
    rw [refuseIf, if_neg (not_lt.2 hle)]
    rfl

theorem comma_not_mem_formatRange (range : Nat × Nat) : comma ∉ formatRange range := by
  have hplain : ∀ n, comma ∉ decimal n := fun n => not_mem_decimal (by decide)
  unfold formatRange
  split
  · exact hplain _
  · rw [List.mem_append, List.mem_cons, not_or, not_or]
    exact ⟨hplain _, by decide, hplain _⟩

theorem formatRange_ne_nil (range : Nat × Nat) : formatRange range ≠ [] := by
  unfold formatRange
  split
  · exact decimal_ne_nil _
  · simp

/-- The ranges of a report are told apart again. -/
theorem splitOn_formatRanges {ranges : List (Nat × Nat)} (h : ranges ≠ []) :
    ((formatRanges ranges).splitOn comma).filter (· ≠ []) = ranges.map formatRange := by
  rw [formatRanges, if_neg h, List.splitOn_intercalate comma ?_ (by simpa using h)]
  · refine List.filter_eq_self.2 fun text htext => ?_
    obtain ⟨range, -, rfl⟩ := List.mem_map.1 htext
    exact decide_eq_true (formatRange_ne_nil range)
  · intro text htext
    obtain ⟨range, -, rfl⟩ := List.mem_map.1 htext
    exact comma_not_mem_formatRange range

/-! ## Queueing -/

theorem RepairQueue.Valid.enqueue (h : q.Valid now) : (q.enqueue sequence).Valid now := by
  unfold RepairQueue.enqueue
  split
  next hnew =>
    obtain ⟨hforgotten, hqueued⟩ := hnew
    have hqueue := fun hmem => hqueued ((h.mem_queued sequence).2 hmem)
    refine { h with queue_nodup := ?_, mem_queued := ?_, queued_nodup := ?_, disjoint := ?_ }
    · exact h.queue_nodup.append (List.nodup_singleton _) (by simpa using hqueue)
    · intro s
      rw [List.mem_cons, List.mem_append, List.mem_singleton, h.mem_queued s, or_comm]
    · exact List.nodup_cons.2 ⟨hqueued, h.queued_nodup⟩
    · intro s hs
      rcases List.mem_append.1 hs with hs | hs
      · exact h.disjoint s hs
      · exact List.mem_singleton.1 hs ▸ hforgotten
  · exact h

/-- A property that queueing a chunk keeps while there is room is kept by queueing a number of them. -/
theorem enqueueRun_keeps {P : RepairQueue → Prop} {n : Nat}
    (hP : ∀ q s, sequence ≤ s → s < sequence + n → q.queued.length < maxQueuedRepairs → P q → P (q.enqueue s))
    (h : P q) : P (q.enqueueRun n sequence).1 := by
  induction n generalizing q sequence with
  | zero => exact h
  | succ n ih =>
    unfold RepairQueue.enqueueRun
    split
    · exact h
    next hroom =>
      exact ih (fun q s hle hlt => hP q s (by omega) (by omega))
        (hP q sequence (Nat.le_refl _) (by omega) (Nat.lt_of_not_le hroom) h)

/-- Some of the texts is the text of a range with a chunk. -/
def NamedIn (ranges : List Str) (sequence : Nat) : Prop :=
  ∃ text ∈ ranges, ∃ range, parseRange text = .ok range ∧ range.1 ≤ sequence ∧ sequence ≤ range.2

theorem enqueueRanges_keeps {P : RepairQueue → Prop} {chunks : Nat} {ranges : List Str}
    (hP : ∀ q s, NamedIn ranges s → s < chunks → q.queued.length < maxQueuedRepairs → P q → P (q.enqueue s))
    (h : P q) : P (enqueueRanges chunks ranges q).1 := by
  induction ranges generalizing q with
  | nil => exact h
  | cons range ranges ih =>
    unfold enqueueRanges
    split
    · exact h
    next start stop hrange =>
      split
      · exact h
      next hstop =>
        have hrun := @enqueueRun_keeps _ start _ (stop + 1 - start) (fun q s hle hlt =>
          hP q s ⟨range, List.mem_cons_self, _, hrange, hle, by dsimp only; omega⟩ (by omega)) h
        have hrest : ∀ q s, NamedIn ranges s → s < chunks → q.queued.length < maxQueuedRepairs → P q →
            P (q.enqueue s) := fun q s ⟨text, htext, hnamed⟩ => hP q s ⟨text, List.mem_cons_of_mem _ htext, hnamed⟩
        rcases hcase : q.enqueueRun (stop + 1 - start) start with ⟨q', _ | _⟩
        · rw [hcase] at hrun
          exact ih hrest hrun
        · rw [hcase] at hrun
          exact hrun

/-- The ranges of a text. -/
def rangesOf (text : Str) : List Str := (text.splitOn comma).filter (· ≠ [])

/-- Only what the ranges name is queued. -/
theorem mem_queue_enqueueRepairs {text : Str} {chunks s : Nat}
    (h : s ∈ (enqueueRepairs q text chunks).1.queue) : s ∈ q.queue ∨ NamedIn (rangesOf text) s := by
  revert s
  refine enqueueRanges_keeps
    (P := fun q' => ∀ {s}, s ∈ q'.queue → s ∈ q.queue ∨ NamedIn (rangesOf text) s)
    (fun q' x hx _ _ hq' s hs => ?_) fun hs => .inl hs
  unfold RepairQueue.enqueue at hs
  split at hs
  · rcases List.mem_append.1 hs with hs | hs
    · exact hq' hs
    · exact .inr (List.mem_singleton.1 hs ▸ hx)
  · exact hq' hs

/-- Queueing changes neither the map nor the cooldown. -/
theorem lastSent_enqueueRepairs (q : RepairQueue) (ranges : Str) (chunks : Nat) :
    (enqueueRepairs q ranges chunks).1.lastSent = q.lastSent ∧
      (enqueueRepairs q ranges chunks).1.cooldown = q.cooldown := by
  refine enqueueRanges_keeps (P := fun q' => q'.lastSent = q.lastSent ∧ q'.cooldown = q.cooldown)
    (fun q' s _ _ _ h => ?_) ⟨rfl, rfl⟩
  unfold RepairQueue.enqueue
  split
  · exact h
  · exact h

theorem RepairQueue.Valid.enqueueRepairs (h : q.Valid now) (ranges : Str) (chunks : Nat) :
    (enqueueRepairs q ranges chunks).1.Valid now :=
  enqueueRanges_keeps (P := fun q' => q'.Valid now) (fun _ _ _ _ _ h => h.enqueue) h

theorem RepairQueue.Valid.expire (h : q.Valid now) : (q.expire later).Valid now := by
  have hsub := List.filter_sublist
    (p := fun entry : Nat × ℚ => decide (max 0 (later - entry.2) < q.cooldown)) (l := q.lastSent)
  refine { h with remembered_nodup := ?_, disjoint := ?_, length_le := ?_, times_le := ?_ }
  · exact h.remembered_nodup.sublist (hsub.map _)
  · exact fun s hs hmem => h.disjoint s hs ((hsub.map _).subset hmem)
  · exact hsub.length_le.trans h.length_le
  · exact fun e he => h.times_le e (hsub.subset he)

/-! ## Taking -/

theorem victim_eq_some {forgotten : Nat} (h : q.victim order = some forgotten) :
    maxQueuedRepairs ≤ q.lastSent.length ∧ forgotten ∈ q.remembered := by
  unfold RepairQueue.victim at h
  split at h
  next hfull =>
    cases h
    refine ⟨hfull, order.mem _ fun hnil => ?_⟩
    rw [hnil] at hfull
    exact absurd hfull (by decide)
  · cases h

/-- The entries that are left when room has been made. -/
def RepairQueue.kept (q : RepairQueue) (order : FirstKey) : List (Nat × ℚ) :=
  q.lastSent.filter fun entry => q.victim order ≠ some entry.1

theorem mem_kept {e : Nat × ℚ} : e ∈ q.kept order ↔ e ∈ q.lastSent ∧ q.victim order ≠ some e.1 := by
  simp [RepairQueue.kept]

/-- A chunk that is not remembered is added to the map after room has been made. -/
theorem lastSent_pop (h : sequence ∉ q.remembered) :
    (q.pop sequence order now).lastSent = (sequence, now) :: q.kept order := by
  refine congrArg (List.cons _) (List.filter_eq_self.2 fun e he => ?_)
  have hmem : e ∈ q.lastSent := (List.mem_filter.1 he).1
  exact decide_eq_true fun heq => h (heq ▸ List.mem_map_of_mem hmem)

theorem kept_eq_self (h : q.victim order = none) : q.kept order = q.lastSent :=
  List.filter_eq_self.2 fun e _ => by simp [h]

/-- Making room forgets one chunk. -/
theorem length_kept {forgotten : Nat} (hnodup : q.remembered.Nodup)
    (h : q.victim order = some forgotten) : (q.kept order).length + 1 = q.lastSent.length := by
  have hmem := (victim_eq_some h).2
  have hmap : (q.kept order).map Prod.fst = q.remembered.erase forgotten := by
    rw [hnodup.erase_eq_filter, RepairQueue.remembered, List.filter_map]
    congr 1
    refine List.filter_congr fun e _ => ?_
    by_cases he : e.1 = forgotten
    · simp [h, he]
    · simp [h, he, Ne.symm he]
  have hlen := congrArg List.length hmap
  rw [List.length_map, List.length_erase_of_mem hmem, RepairQueue.remembered, List.length_map] at hlen
  have hpos : 0 < q.lastSent.length := by
    have := List.length_pos_of_mem hmem
    rwa [RepairQueue.remembered, List.length_map] at this
  omega

theorem length_kept_lt (h : q.Valid now) : (q.kept order).length < maxQueuedRepairs := by
  have hle := h.length_le
  rcases hvictim : q.victim order with _ | forgotten
  · rw [kept_eq_self hvictim]
    unfold RepairQueue.victim at hvictim
    split at hvictim
    · cases hvictim
    · omega
  · have hlen := length_kept h.remembered_nodup hvictim
    omega

theorem RepairQueue.Valid.pop {queue : List Nat} (h : q.Valid now) (hq : q.queue = sequence :: queue)
    (hle : now ≤ later) : (q.pop sequence order later).Valid later := by
  have hnodup : (sequence :: queue).Nodup := hq ▸ h.queue_nodup
  obtain ⟨hnew, hrest⟩ := List.nodup_cons.1 hnodup
  have hforgotten : sequence ∉ q.remembered := h.disjoint sequence (hq ▸ List.mem_cons_self)
  have hqueue : (q.pop sequence order later).queue = queue := by
    show q.queue.tail = queue
    rw [hq, List.tail_cons]
  have hlast := @lastSent_pop _ later _ order hforgotten
  have hsub : (q.kept order).Sublist q.lastSent := List.filter_sublist
  refine ⟨hqueue ▸ hrest, fun s => ?_, h.queued_nodup.erase _, ?_, fun s hs => ?_, ?_, ?_⟩
  · show s ∈ q.queued.erase sequence ↔ _
    rw [hqueue, h.queued_nodup.mem_erase_iff, h.mem_queued, hq, List.mem_cons]
    constructor
    · rintro ⟨hne, rfl | hs⟩
      · exact absurd rfl hne
      · exact hs
    · exact fun hs => ⟨fun heq => hnew (heq ▸ hs), .inr hs⟩
  · rw [RepairQueue.remembered, hlast, List.map_cons]
    exact List.nodup_cons.2 ⟨fun hmem => hforgotten ((hsub.map _).subset hmem),
      h.remembered_nodup.sublist (hsub.map _)⟩
  · rw [hqueue] at hs
    rw [RepairQueue.remembered, hlast, List.map_cons, List.mem_cons]
    rintro (rfl | hmem)
    · exact hnew hs
    · exact h.disjoint s (hq ▸ List.mem_cons_of_mem _ hs) ((hsub.map _).subset hmem)
  · rw [hlast, List.length_cons]
    exact length_kept_lt h
  · intro e he
    rw [hlast] at he
    rcases List.mem_cons.1 he with rfl | he
    · exact le_rfl
    · exact (h.times_le e (hsub.subset he)).trans hle

/-- A property that taking a chunk keeps is kept by taking a number of them, where what is forgotten may
be known to have a property. -/
theorem takeRepairs_keeps {P : RepairQueue → ℚ → List (Nat × ℚ) → Prop}
    {F : List Nat → RepairQueue → Nat → Prop}
    (hP : ∀ q now entries sequence queue order (delay : ℚ≥0), P q now entries →
      q.queue = sequence :: queue →
      (∀ forgotten, q.victim order = some forgotten → F (entries.map Prod.fst) q forgotten) →
      P (q.pop sequence order (now + delay)) (now + delay) (entries ++ [(sequence, now + delay)]))
    (entries : List (Nat × ℚ)) {limit : Nat} (h : P q now entries)
    (hF : EachForgotten F orders delays now q (entries.map Prod.fst) limit) :
    P (takeRepairs orders delays now q limit).repairs (takeRepairs orders delays now q limit).now
      (entries ++ (takeRepairs orders delays now q limit).entries) := by
  induction limit generalizing q now entries orders delays with
  | zero =>
    rw [takeRepairs, List.append_nil]
    exact h
  | succ limit ih =>
    rcases hq : q.queue with _ | ⟨sequence, queue⟩
    · rw [takeRepairs, hq, List.append_nil]
      exact h
    · rw [EachForgotten, hq] at hF
      have hpop := hP q now entries sequence queue (orders 0) (delays 0) h hq hF.1
      have hrest := ih _ hpop (by rw [List.map_append]; exact hF.2)
      rw [List.append_assoc] at hrest
      rw [takeRepairs, hq]
      exact hrest

/-- What is taken is the beginning of the queue, and what is left is the rest. -/
theorem takeRepairs_queue {limit : Nat} :
    (takeRepairs orders delays now q limit).entries.map Prod.fst = q.queue.take limit ∧
      (takeRepairs orders delays now q limit).repairs.queue = q.queue.drop limit := by
  induction limit generalizing now q orders delays with
  | zero => exact ⟨rfl, rfl⟩
  | succ limit ih =>
    rcases hq : q.queue with _ | ⟨sequence, queue⟩
    · rw [takeRepairs, hq]
      exact ⟨rfl, hq⟩
    · rw [takeRepairs, hq]
      have hqueue : (q.pop sequence (orders 0) (now + delays 0)).queue = queue := by
        show q.queue.tail = queue
        rw [hq, List.tail_cons]
      obtain ⟨htaken, hleft⟩ := @ih (q.pop sequence (orders 0) (now + delays 0)) (now + delays 0)
        (fun k => orders (k + 1)) (fun k => delays (k + 1))
      rw [hqueue] at htaken hleft
      refine ⟨?_, hleft⟩
      show sequence :: List.map Prod.fst _ = _
      rw [htaken, List.take_succ_cons]

theorem eachForgotten_true {taken : List Nat} {limit : Nat} :
    EachForgotten (fun _ _ _ => True) orders delays now q taken limit := by
  induction limit generalizing q now taken orders delays with
  | zero => trivial
  | succ limit ih =>
    rw [EachForgotten]
    split
    · trivial
    · exact ⟨fun _ _ => trivial, ih⟩

theorem RepairQueue.Valid.take {limit : Nat} (h : q.Valid now) :
    (takeRepairs orders delays now q limit).repairs.Valid
      (takeRepairs orders delays now q limit).now :=
  takeRepairs_keeps (P := fun q now _ => q.Valid now)
    (fun _ _ _ _ _ _ delay h hq _ => h.pop hq (le_add_of_nonneg_right delay.2)) [] h
    eachForgotten_true

/-- A queue keeps valid in every run. -/
theorem RepairQueue.Valid.step (h : r.repairs.Valid r.now) (op : RepairOp) :
    (r.step op).repairs.Valid (r.step op).now := by
  cases op with
  | enqueue ranges chunks => exact h.enqueueRepairs ranges chunks
  | expire => exact h.expire
  | take orders delays limit => exact h.take
  | wait time => exact h.wait (le_add_of_nonneg_right time.2)

theorem RepairQueue.Valid.run (h : r.repairs.Valid r.now) (ops : List RepairOp) :
    (r.run ops).repairs.Valid (r.run ops).now := by
  induction ops generalizing r with
  | nil => exact h
  | cons op ops ih => exact ih (h.step op)

/-! ## Queues as records -/

/-- What holds of a queue whose reports are about an object of some chunks. -/
structure RepairQueue.Bounded (chunks : Nat) (q : RepairQueue) : Prop where
  queued_le : q.queued.length ≤ maxQueuedRepairs
  lt_chunks : ∀ s ∈ q.queue, s < chunks

theorem RepairQueue.Bounded.enqueue {chunks : Nat} (h : q.Bounded chunks) (hlt : sequence < chunks)
    (hroom : q.queued.length < maxQueuedRepairs) : (q.enqueue sequence).Bounded chunks := by
  unfold RepairQueue.enqueue
  by_cases hnew : sequence ∉ q.remembered ∧ sequence ∉ q.queued
  · rw [if_pos hnew]
    refine ⟨hroom, fun s hs => ?_⟩
    rcases List.mem_append.1 hs with hs | hs
    · exact h.lt_chunks s hs
    · exact List.mem_singleton.1 hs ▸ hlt
  · rw [if_neg hnew]
    exact h

theorem RepairQueue.Bounded.enqueueRepairs {chunks : Nat} (h : q.Bounded chunks) (ranges : Str) :
    (enqueueRepairs q ranges chunks).1.Bounded chunks :=
  enqueueRanges_keeps (P := fun q' => q'.Bounded chunks) (fun _ _ _ hlt hroom h => h.enqueue hlt hroom) h

theorem RepairQueue.Bounded.take {chunks limit : Nat} (h : q.Bounded chunks) :
    (takeRepairs orders delays now q limit).repairs.Bounded chunks := by
  refine takeRepairs_keeps (P := fun q _ _ => q.Bounded chunks) (fun q now _ sequence queue order delay h hq _ => ?_)
    [] h eachForgotten_true
  refine ⟨?_, fun s hs => h.lt_chunks s (List.mem_of_mem_tail hs)⟩
  show (q.queued.erase sequence).length ≤ _
  exact (List.length_erase_le).trans h.queued_le

/-- What is queued is put behind what is there. -/
theorem prefix_enqueueRepairs (q : RepairQueue) (ranges : Str) (chunks : Nat) :
    q.queue <+: (enqueueRepairs q ranges chunks).1.queue := by
  refine enqueueRanges_keeps (P := fun q' => q.queue <+: q'.queue) (fun q' s _ _ _ h => ?_) List.prefix_rfl
  unfold RepairQueue.enqueue
  by_cases hnew : s ∉ q'.remembered ∧ s ∉ q'.queued
  · rw [if_pos hnew]
    exact h.trans (List.prefix_append _ _)
  · rw [if_neg hnew]
    exact h

theorem Repairing.step_bounded {chunks : Nat} (h : r.repairs.Bounded chunks) {op : RepairOp} (hop : op.About chunks) :
    (r.step op).repairs.Bounded chunks := by
  cases op with
  | enqueue ranges n =>
    cases hop
    exact h.enqueueRepairs ranges
  | expire => exact ⟨h.queued_le, h.lt_chunks⟩
  | take orders delays limit => exact h.take
  | wait time => exact h

/-- What leaves the queue in a step was at its head, and what enters it comes to its end. -/
theorem Repairing.step_queue (r : Repairing) (op : RepairOp) :
    ∃ taken, (r.step op).log = r.log ++ taken ∧
      r.repairs.queue ++ r.entering op = taken.map Prod.fst ++ (r.step op).repairs.queue := by
  cases op with
  | enqueue ranges chunks =>
    obtain ⟨rest, hrest⟩ := prefix_enqueueRepairs r.repairs ranges chunks
    refine ⟨[], (List.append_nil _).symm, ?_⟩
    show r.repairs.queue ++ (enqueueRepairs r.repairs ranges chunks).1.queue.drop r.repairs.queue.length =
      (enqueueRepairs r.repairs ranges chunks).1.queue
    rw [← hrest, List.drop_left]
  | expire => exact ⟨[], (List.append_nil _).symm, List.append_nil _⟩
  | take orders delays limit =>
    obtain ⟨htaken, hleft⟩ := @takeRepairs_queue r.repairs r.now orders delays limit
    refine ⟨_, rfl, ?_⟩
    show r.repairs.queue ++ [] = List.map Prod.fst (takeRepairs orders delays r.now r.repairs limit).entries ++
      (takeRepairs orders delays r.now r.repairs limit).repairs.queue
    rw [htaken, hleft, List.take_append_drop, List.append_nil]
  | wait time => exact ⟨[], (List.append_nil _).symm, List.append_nil _⟩

/-- The queue of a run is first in, first out. -/
theorem Repairing.run_queue (r : Repairing) (ops : List RepairOp) :
    ∃ taken, (r.run ops).log = r.log ++ taken ∧
      r.repairs.queue ++ r.entered ops = taken.map Prod.fst ++ (r.run ops).repairs.queue := by
  induction ops generalizing r with
  | nil => exact ⟨[], (List.append_nil _).symm, List.append_nil _⟩
  | cons op ops ih =>
    obtain ⟨first, hfirst, hstep⟩ := r.step_queue op
    obtain ⟨taken, htaken, hrun⟩ := ih (r.step op)
    refine ⟨first ++ taken, ?_, ?_⟩
    · rw [← List.append_assoc, ← hfirst]
      exact htaken
    · calc r.repairs.queue ++ (r.entering op ++ (r.step op).entered ops)
          = first.map Prod.fst ++ ((r.step op).repairs.queue ++ (r.step op).entered ops) := by
            rw [← List.append_assoc, hstep, List.append_assoc]
        _ = (first ++ taken).map Prod.fst ++ ((r.step op).run ops).repairs.queue := by
            rw [hrun, List.map_append, List.append_assoc]

theorem Repairing.run_bounded {chunks : Nat} {ops : List RepairOp} (h : r.repairs.Bounded chunks)
    (hops : ∀ op ∈ ops, op.About chunks) : (r.run ops).repairs.Bounded chunks := by
  induction ops generalizing r with
  | nil => exact h
  | cons op ops ih =>
    obtain ⟨hop, hrest⟩ := List.forall_mem_cons.1 hops
    exact ih (Repairing.step_bounded h hop) hrest

/-- A chunk that is in the queue, and is not put into it again, is taken once or is still there. -/
theorem Repairing.count_queue {taken : List (Nat × ℚ)} {ops : List RepairOp} (hvalid : r.repairs.Valid r.now)
    (h : r.repairs.queue ++ r.entered ops = taken.map Prod.fst ++ (r.run ops).repairs.queue)
    (hmem : sequence ∈ r.repairs.queue) (hnew : sequence ∉ r.entered ops) :
    (taken.map Prod.fst).count sequence + (r.run ops).repairs.queue.count sequence = 1 := by
  have hcount := congrArg (List.count sequence) h
  rw [List.count_append, List.count_append, List.count_eq_zero_of_not_mem hnew,
    List.count_eq_one_of_mem hvalid.queue_nodup hmem] at hcount
  exact hcount.symm

/-- In every run the queue, its set and the map belong together. Between any two moments of it what is put into
the queue leaves it in this order or is still there, and so each chunk is taken once for each time it is put in. -/
theorem repair_queue_consistent {cooldown now : ℚ} {chunks : Nat} {ops : List RepairOp}
    (hops : ∀ op ∈ ops, op.About chunks) :
    ((Repairing.new cooldown now).run ops).repairs.Consistent chunks ∧
      ∀ before after, ops = before ++ after → ∃ taken,
        ((Repairing.new cooldown now).run ops).log = ((Repairing.new cooldown now).run before).log ++ taken ∧
        ((Repairing.new cooldown now).run before).repairs.queue ++
            ((Repairing.new cooldown now).run before).entered after =
          taken.map Prod.fst ++ ((Repairing.new cooldown now).run ops).repairs.queue ∧
        ∀ s ∈ ((Repairing.new cooldown now).run before).repairs.queue,
          s ∉ ((Repairing.new cooldown now).run before).entered after →
            (taken.map Prod.fst).count s + ((Repairing.new cooldown now).run ops).repairs.queue.count s = 1 := by
  have hvalid : ∀ ops, ((Repairing.new cooldown now).run ops).repairs.Valid
      ((Repairing.new cooldown now).run ops).now := RepairQueue.Valid.run (valid_new cooldown)
  have hbounded : ((Repairing.new cooldown now).run ops).repairs.Bounded chunks :=
    Repairing.run_bounded ⟨Nat.zero_le _, fun s hs => (nomatch hs)⟩ hops
  constructor
  · have h := hvalid ops
    refine ⟨h.queue_nodup, h.queued_nodup, h.remembered_nodup, h.mem_queued, fun s hs => ?_, hbounded.queued_le,
      ?_, hbounded.lt_chunks⟩
    · exact h.disjoint s ((h.mem_queued s).1 hs)
    · rw [RepairQueue.remembered, List.length_map]
      exact h.length_le
  · rintro before after rfl
    have hrun : (Repairing.new cooldown now).run (before ++ after) =
        ((Repairing.new cooldown now).run before).run after := List.foldl_append
    rw [hrun]
    obtain ⟨taken, hlog, hqueue⟩ := Repairing.run_queue ((Repairing.new cooldown now).run before) after
    exact ⟨taken, hlog, hqueue, fun s => Repairing.count_queue (hvalid before) hqueue⟩

/-- The rule, for a run in which a report names two chunks and one of them is taken. -/
theorem repair_queue_consistent_two :
    ((Repairing.new 1 0).run [.enqueue (ascii "1-2") 3, .take (fun _ => default) (fun _ => 0) 1]).repairs.Consistent 3 :=
  (repair_queue_consistent fun op hop => by
    rcases List.mem_cons.1 hop with rfl | hop
    · rfl
    · rw [List.mem_singleton.1 hop]
      trivial).1

end PacketTide
