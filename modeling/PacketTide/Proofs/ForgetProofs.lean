import PacketTide.Proofs.RepairProofs

/-!
# What the repair queue forgets

A full map makes room by forgetting the chunk that its iteration yields first. That is the chunk that
was sent again first only if the order does not matter; and then a chunk comes back before its cooldown
is over only after more others than the map holds.
-/

namespace PacketTide

variable {q : RepairQueue} {now : ℚ} {sequence limit : Nat} {order : FirstKey}
  {orders : Nat → FirstKey} {delays : Nat → ℚ≥0} {r : Repairing} {log : List (Nat × ℚ)}
  {taken : List Nat}

/-! ## Orders -/

/-- The order in which a given key comes first. -/
def FirstKey.choosing (entries : List (Nat × ℚ)) (key : Nat) (h : key ∈ entries.map Prod.fst) :
    FirstKey where
  first l := if l = entries then key else (default : FirstKey).first l
  mem l hl := by
    split
    next heq => exact heq ▸ h
    · exact (default : FirstKey).mem l hl

theorem first_choosing {entries : List (Nat × ℚ)} {key : Nat} (h : key ∈ entries.map Prod.fst) :
    (FirstKey.choosing entries key h).first entries = key := if_pos rfl

/-- All orders of some takes are an order of the first and all orders of the others. -/
theorem forall_orders {A : FirstKey → (Nat → FirstKey) → Prop} :
    (∀ orders : Nat → FirstKey, A (orders 0) fun k => orders (k + 1)) ↔ ∀ order rest, A order rest := by
  constructor
  · intro h order rest
    exact h fun k => k.casesOn order rest
  · intro h orders
    exact h _ _

/-- Whatever the order, an oldest chunk is forgotten: so all of them are as old. -/
theorem times_eq_of_oldest {taken : List Nat} (hfull : maxQueuedRepairs ≤ q.lastSent.length)
    (h : ∀ order, ∀ forgotten, q.victim order = some forgotten → Oldest taken q forgotten)
    {e e' : Nat × ℚ} (he : e ∈ q.lastSent) (he' : e' ∈ q.lastSent) : e.2 ≤ e'.2 := by
  have hkey : e.1 ∈ q.lastSent.map Prod.fst := List.mem_map_of_mem he
  refine h (.choosing q.lastSent e.1 hkey) e.1 ?_ e he rfl e' he'
  rw [RepairQueue.victim, if_pos hfull, first_choosing]

theorem victim_of_full (hfull : maxQueuedRepairs ≤ q.lastSent.length) :
    q.victim order = some (order.first q.lastSent) := if_pos hfull

theorem victim_of_not_full (hfull : ¬maxQueuedRepairs ≤ q.lastSent.length) :
    q.victim order = none := if_neg hfull

/-! ## When the order does not matter -/

theorem sum_shift (delays : Nat → ℚ≥0) (now : ℚ) (k : Nat) :
    now + ∑ i ∈ Finset.range (k + 2), (delays i : ℚ) =
      now + delays 0 + ∑ i ∈ Finset.range (k + 1), (delays (i + 1) : ℚ) := by
  rw [Finset.sum_range_succ' _ (k + 1)]
  ring

/-- Taking one chunk and then some others forgets alike if the others do, while there is room. -/
theorem forgetsAlike_succ_of_room {queue : List Nat} (hv : q.Valid now)
    (hq : q.queue = sequence :: queue) (hfull : ¬maxQueuedRepairs ≤ q.lastSent.length) :
    ForgetsAlike delays now q (limit + 1) ↔
      ForgetsAlike (fun k => delays (k + 1)) (now + delays 0)
        (q.pop sequence order (now + delays 0)) limit := by
  have hnew : sequence ∉ q.remembered := hv.disjoint sequence (hq ▸ List.mem_cons_self)
  have hlast : (q.pop sequence order (now + delays 0)).lastSent =
      (sequence, now + delays 0) :: q.lastSent := by
    rw [lastSent_pop hnew, kept_eq_self (victim_of_not_full hfull)]
  have hqueue : (q.pop sequence order (now + delays 0)).queue = queue := by
    show q.queue.tail = queue
    rw [hq, List.tail_cons]
  have hmin : min (limit + 1) q.queue.length = min limit queue.length + 1 := by
    rw [hq, List.length_cons, Nat.add_min_add_right]
  unfold ForgetsAlike
  rw [hlast, hqueue, hmin, List.length_cons]
  constructor
  · rintro (hroom | ⟨t, hall, htimes⟩)
    · exact .inl (by omega)
    · rcases Nat.eq_zero_or_pos (min limit queue.length) with hzero | hpos
      · exact .inl (by omega)
      · refine .inr ⟨t, fun e he => ?_, fun k hk => ?_⟩
        · rcases List.mem_cons.1 he with rfl | he
          · simpa using htimes 0 (by omega)
          · exact hall e he
        · rw [← sum_shift]
          exact htimes (k + 1) (by omega)
  · rintro (hroom | ⟨t, hall, htimes⟩)
    · exact .inl (by omega)
    · refine .inr ⟨t, fun e he => hall e (List.mem_cons_of_mem _ he), fun k hk => ?_⟩
      cases k with
      | zero => simpa using hall _ List.mem_cons_self
      | succ k =>
        rw [sum_shift]
        exact htimes k (by omega)

/-- While there is no room, all that is remembered has to have the time of the chunk that is taken. -/
theorem forgetsAlike_succ_of_full {queue : List Nat} (hv : q.Valid now)
    (hq : q.queue = sequence :: queue) (hfull : maxQueuedRepairs ≤ q.lastSent.length) :
    ForgetsAlike delays now q (limit + 1) ↔
      (∀ e ∈ q.lastSent, ∀ e' ∈ q.lastSent, e.2 ≤ e'.2) ∧
        ∀ order, ForgetsAlike (fun k => delays (k + 1)) (now + delays 0)
          (q.pop sequence order (now + delays 0)) limit := by
  have hnew : sequence ∉ q.remembered := hv.disjoint sequence (hq ▸ List.mem_cons_self)
  have hlast : ∀ order, (q.pop sequence order (now + delays 0)).lastSent =
      (sequence, now + delays 0) :: q.kept order := fun order => lastSent_pop hnew
  have hlen : ∀ order : FirstKey, (q.kept order).length + 1 = maxQueuedRepairs := by
    intro order
    have hkept := length_kept hv.remembered_nodup (@victim_of_full _ order hfull)
    have hle := hv.length_le
    omega
  have hqueue : ∀ order, (q.pop sequence order (now + delays 0)).queue = queue := by
    intro order
    show q.queue.tail = queue
    rw [hq, List.tail_cons]
  have hmin : min (limit + 1) q.queue.length = min limit queue.length + 1 := by
    rw [hq, List.length_cons, Nat.add_min_add_right]
  unfold ForgetsAlike
  constructor
  · rintro (hroom | ⟨t, hall, htimes⟩)
    · rw [hmin] at hroom
      omega
    · refine ⟨fun e he e' he' => (hall e he).trans_le (hall e' he').ge, fun order => ?_⟩
      rw [hlast, hqueue, List.length_cons, hlen]
      rcases Nat.eq_zero_or_pos (min limit queue.length) with hzero | hpos
      · exact .inl (by omega)
      · refine .inr ⟨t, fun e he => ?_, fun k hk => ?_⟩
        · rcases List.mem_cons.1 he with rfl | he
          · simpa using htimes 0 (by omega)
          · exact hall e (mem_kept.1 he).1
        · rw [← sum_shift]
          exact htimes (k + 1) (by omega)
  · rintro ⟨hall, hrest⟩
    have hrest' := hrest default
    rw [hlast, hqueue, List.length_cons, hlen] at hrest'
    obtain ⟨e, he⟩ : ∃ e, e ∈ q.kept default := by
      refine List.exists_mem_of_length_pos ?_
      have hlen' := hlen default
      unfold maxQueuedRepairs at hlen'
      omega
    have hmem := (mem_kept.1 he).1
    refine .inr ⟨e.2, fun e' he' => le_antisymm (hall e' he' e hmem) (hall e hmem e' he'), ?_⟩
    rw [hmin]
    intro k hk
    rcases hrest' with hroom | ⟨t, hall', htimes⟩
    · omega
    · have het : e.2 = t := hall' e (List.mem_cons_of_mem _ he)
      cases k with
      | zero =>
        rw [het]
        simpa using hall' _ List.mem_cons_self
      | succ k =>
        rw [sum_shift, het]
        exact htimes k (by omega)

/-- In every order of the map an oldest chunk is forgotten, if and only if no chunk has to be forgotten
or all are as old. -/
theorem forgets_oldest_iff (hv : q.Valid now) :
    (∀ orders, EachForgotten Oldest orders delays now q taken limit) ↔
      ForgetsAlike delays now q limit := by
  induction limit generalizing q now delays taken with
  | zero =>
    have hle := hv.length_le
    exact ⟨fun _ => .inl (by omega), fun _ _ => trivial⟩
  | succ limit ih =>
    rcases hq : q.queue with _ | ⟨sequence, queue⟩
    · have hle := hv.length_le
      simp only [EachForgotten, ForgetsAlike, hq, List.length_nil]
      exact ⟨fun _ => .inl (by omega), fun _ _ => trivial⟩
    · have hsplit : (∀ orders, EachForgotten Oldest orders delays now q taken (limit + 1)) ↔
          ∀ order, (∀ forgotten, q.victim order = some forgotten → Oldest taken q forgotten) ∧
            ForgetsAlike (fun k => delays (k + 1)) (now + delays 0)
              (q.pop sequence order (now + delays 0)) limit := by
        simp only [EachForgotten, hq]
        rw [forall_orders (A := fun order rest =>
          (∀ forgotten, q.victim order = some forgotten → Oldest taken q forgotten) ∧
            EachForgotten Oldest rest (fun k => delays (k + 1)) (now + delays 0)
              (q.pop sequence order (now + delays 0)) (taken ++ [sequence]) limit)]
        refine forall_congr' fun order => ?_
        have hpop : (q.pop sequence order (now + delays 0)).Valid (now + delays 0) :=
          hv.pop hq (le_add_of_nonneg_right (delays 0).2)
        have hrest : (∀ rest, EachForgotten Oldest rest (fun k => delays (k + 1)) (now + delays 0)
            (q.pop sequence order (now + delays 0)) (taken ++ [sequence]) limit) ↔ _ := ih hpop
        rw [← hrest, forall_and]
        simp only [forall_const]
      rw [hsplit]
      by_cases hfull : maxQueuedRepairs ≤ q.lastSent.length
      · rw [forgetsAlike_succ_of_full hv hq hfull]
        constructor
        · intro h
          exact ⟨fun e he e' he' => times_eq_of_oldest hfull (fun order => (h order).1) he he',
            fun order => (h order).2⟩
        · rintro ⟨hall, hrest⟩ order
          exact ⟨fun forgotten _ e he _ e' he' => hall e he e' he', hrest order⟩
      · constructor
        · intro h
          exact (forgetsAlike_succ_of_room hv hq hfull).2 (h default).2
        · intro h order
          refine ⟨fun forgotten hvictim => ?_, (forgetsAlike_succ_of_room hv hq hfull).1 h⟩
          rw [victim_of_not_full hfull] at hvictim
          cases hvictim

/-! ## Sent again too soon -/

theorem othersSince_mono {log' : List (Nat × ℚ)} (h : log ⊆ log') (sequence : Nat) (since : ℚ) :
    othersSince log sequence since ⊆ othersSince log' sequence since := by
  refine Finset.erase_subset_erase _ fun c hc => ?_
  rw [List.mem_toFinset] at hc ⊢
  obtain ⟨e, he, rfl⟩ := List.mem_map.1 hc
  obtain ⟨hmem, htime⟩ := List.mem_filter.1 he
  exact List.mem_map_of_mem (List.mem_filter.2 ⟨h hmem, htime⟩)

theorem mem_othersSince {e : Nat × ℚ} {since : ℚ} (he : e ∈ log) (ht : since ≤ e.2)
    (hne : e.1 ≠ sequence) : e.1 ∈ othersSince log sequence since := by
  refine Finset.mem_erase.2 ⟨hne, List.mem_toFinset.2 (List.mem_map_of_mem ?_)⟩
  exact List.mem_filter.2 ⟨he, decide_eq_true ht⟩

/-- What the queue knows about the chunks in the log: each is remembered, or its cooldown is over, or too
many others have been sent again since. -/
structure Tracked (cooldown : ℚ) (q : RepairQueue) (now : ℚ) (log : List (Nat × ℚ)) : Prop where
  valid : q.Valid now
  cooldown_eq : q.cooldown = cooldown
  logged : q.lastSent ⊆ log
  accounted : ∀ e ∈ log, (∃ t, e.2 ≤ t ∧ (e.1, t) ∈ q.lastSent) ∨ e.2 + cooldown ≤ now ∨
    maxQueuedRepairs ≤ (othersSince log e.1 e.2).card
  spaced : SpacedUnlessForgotten cooldown log

variable {cooldown : ℚ}

theorem tracked_new : Tracked cooldown { cooldown } now [] where
  valid := valid_new cooldown
  cooldown_eq := rfl
  logged := List.nil_subset _
  accounted e he := absurd he List.not_mem_nil
  spaced before c t₁ between t₂ after h := by
    have hlen := congrArg List.length h
    simp at hlen

/-- A log is spaced if it was before its last entry and that entry comes late enough. -/
theorem spaced_concat {sent : Nat × ℚ} (h : SpacedUnlessForgotten cooldown log)
    (hlast : ∀ e ∈ log, e.1 = sent.1 → e.2 + cooldown ≤ sent.2 ∨
      maxQueuedRepairs ≤ (othersSince log e.1 e.2).card) :
    SpacedUnlessForgotten cooldown (log ++ [sent]) := by
  intro before c t₁ between t₂ after heq
  rcases List.eq_nil_or_concat' after with rfl | ⟨init, last, rfl⟩
  · obtain ⟨hlog, hsent⟩ := List.append_inj' heq rfl
    obtain rfl : sent = (c, t₂) := List.singleton_inj.1 hsent
    subst hlog
    exact hlast (c, t₁) (by simp) rfl
  · have hsplit : log = before ++ (c, t₁) :: between ++ (c, t₂) :: init := by
      rw [← List.cons_append, ← List.append_assoc] at heq
      exact (List.append_inj' heq rfl).1
    exact h before c t₁ between t₂ init hsplit

/-- All others that the map held are others that have been sent again since. -/
theorem Tracked.forgotten (h : Tracked cooldown q now log) {queue : List Nat} {e : Nat × ℚ}
    {t later : ℚ} (hq : q.queue = sequence :: queue) (hle : now ≤ later) (het : e.2 ≤ t)
    (hmem : (e.1, t) ∈ q.lastSent) (hvictim : q.victim order = some e.1)
    (holdest : Oldest taken q e.1) :
    maxQueuedRepairs ≤ (othersSince (log ++ [(sequence, later)]) e.1 e.2).card := by
  have hnew : sequence ∉ q.remembered := h.valid.disjoint sequence (hq ▸ List.mem_cons_self)
  have hin : e.1 ∈ q.remembered := List.mem_map.2 ⟨_, hmem, rfl⟩
  have hother : sequence ≠ e.1 := fun heq => hnew (heq ▸ hin)
  have hlen := length_kept h.valid.remembered_nodup hvictim
  have hfull := (victim_eq_some hvictim).1
  have hnodup : (sequence :: (q.kept order).map Prod.fst).Nodup := by
    have hsub : ((q.kept order).map Prod.fst).Sublist q.remembered := List.filter_sublist.map _
    exact List.nodup_cons.2 ⟨fun hin => hnew (hsub.subset hin),
      h.valid.remembered_nodup.sublist hsub⟩
  have hsubset : (sequence :: (q.kept order).map Prod.fst).toFinset ⊆
      othersSince (log ++ [(sequence, later)]) e.1 e.2 := by
    intro c hc
    rcases List.mem_cons.1 (List.mem_toFinset.1 hc) with rfl | hc
    · have hold := h.valid.times_le _ hmem
      exact mem_othersSince (e := (c, later)) (by simp) ((het.trans hold).trans hle) hother
    · obtain ⟨e', he', rfl⟩ := List.mem_map.1 hc
      obtain ⟨hin, hne⟩ := mem_kept.1 he'
      refine mem_othersSince (List.mem_append_left _ (h.logged hin))
        (het.trans (holdest _ hmem rfl e' hin)) fun heq => hne ?_
      rw [heq, hvictim]
  calc maxQueuedRepairs ≤ (sequence :: (q.kept order).map Prod.fst).length := by
        rw [List.length_cons, List.length_map, hlen]
        exact hfull
    _ = (sequence :: (q.kept order).map Prod.fst).toFinset.card := (List.toFinset_card_of_nodup hnodup).symm
    _ ≤ _ := Finset.card_le_card hsubset

/-- Taking a chunk keeps track of all of them, if only an oldest one is forgotten. -/
theorem Tracked.pop (h : Tracked cooldown q now log) {queue : List Nat} {later : ℚ}
    (hq : q.queue = sequence :: queue) (hle : now ≤ later)
    (holdest : ∀ forgotten, q.victim order = some forgotten → Oldest taken q forgotten) :
    Tracked cooldown (q.pop sequence order later) later (log ++ [(sequence, later)]) := by
  have hnew : sequence ∉ q.remembered := h.valid.disjoint sequence (hq ▸ List.mem_cons_self)
  have hlast := @lastSent_pop _ later _ order hnew
  refine ⟨h.valid.pop hq hle, h.cooldown_eq, ?_, ?_, ?_⟩
  · rw [hlast]
    refine List.cons_subset.2 ⟨by simp, fun e he => ?_⟩
    exact List.mem_append_left _ (h.logged (mem_kept.1 he).1)
  · intro e he
    rw [hlast]
    rcases List.mem_append.1 he with he | he
    · rcases h.accounted e he with ⟨t, het, hmem⟩ | hcool | hmany
      · by_cases hvictim : q.victim order = some e.1
        · exact .inr (.inr (h.forgotten hq hle het hmem hvictim (holdest _ hvictim)))
        · exact .inl ⟨t, het, List.mem_cons_of_mem _ (mem_kept.2 ⟨hmem, hvictim⟩)⟩
      · exact .inr (.inl (hcool.trans hle))
      · exact .inr (.inr (hmany.trans (Finset.card_le_card
          (othersSince_mono (List.subset_append_left _ _) _ _))))
    · obtain rfl := List.mem_singleton.1 he
      exact .inl ⟨later, le_rfl, List.mem_cons_self⟩
  · refine spaced_concat h.spaced fun e he heq => ?_
    rcases h.accounted e he with ⟨t, -, hmem⟩ | hcool | hmany
    · exact absurd (List.mem_map.2 ⟨_, hmem, heq⟩) hnew
    · exact .inl (hcool.trans hle)
    · exact .inr hmany

theorem Tracked.expire (h : Tracked cooldown q now log) : Tracked cooldown (q.expire now) now log := by
  have hsub := List.filter_sublist
    (p := fun entry : Nat × ℚ => decide (max 0 (now - entry.2) < q.cooldown)) (l := q.lastSent)
  refine ⟨h.valid.expire, h.cooldown_eq, fun e he => h.logged (hsub.subset he), ?_, h.spaced⟩
  intro e he
  rcases h.accounted e he with ⟨t, het, hmem⟩ | hrest
  · by_cases hwarm : max 0 (now - t) < q.cooldown
    · exact .inl ⟨t, het, List.mem_filter.2 ⟨hmem, decide_eq_true hwarm⟩⟩
    · have hold := h.valid.times_le _ hmem
      rw [max_eq_right (sub_nonneg.2 hold), h.cooldown_eq] at hwarm
      exact .inr (.inl (by linarith))
  · exact .inr hrest

theorem Tracked.step (h : Tracked cooldown r.repairs r.now r.log) {op : RepairOp}
    (halike : r.TakesAlike op) :
    Tracked cooldown (r.step op).repairs (r.step op).now (r.step op).log := by
  cases op with
  | enqueue ranges chunks =>
    obtain ⟨hlast, hcooldown⟩ := lastSent_enqueueRepairs r.repairs ranges chunks
    refine ⟨h.valid.enqueueRepairs ranges chunks, hcooldown.trans h.cooldown_eq, ?_, ?_, h.spaced⟩
    · exact fun e he => h.logged (hlast ▸ he)
    · intro e he
      show (∃ t, _ ∧ _ ∈ (enqueueRepairs r.repairs ranges chunks).1.lastSent) ∨ _
      rw [hlast]
      exact h.accounted e he
  | expire => exact h.expire
  | take orders delays limit =>
    have holdest : EachForgotten Oldest orders delays r.now r.repairs [] limit :=
      (forgets_oldest_iff h.valid).2 halike orders
    refine takeRepairs_keeps (P := fun q now entries => Tracked cooldown q now (r.log ++ entries))
      (fun _ _ entries sequence _ _ delay h hq hF => ?_) [] ?_ holdest
    · rw [← List.append_assoc]
      exact h.pop hq (le_add_of_nonneg_right delay.2) hF
    · rw [List.append_nil]
      exact h
  | wait time =>
    have hle : r.now ≤ r.now + time := le_add_of_nonneg_right time.2
    refine ⟨h.valid.wait hle, h.cooldown_eq, h.logged, fun e he => ?_, h.spaced⟩
    rcases h.accounted e he with hmem | hcool | hmany
    · exact .inl hmem
    · exact .inr (.inl (hcool.trans hle))
    · exact .inr (.inr hmany)

theorem Tracked.run (h : Tracked cooldown r.repairs r.now r.log) {ops : List RepairOp}
    (halike : r.Along Repairing.TakesAlike ops) :
    Tracked cooldown (r.run ops).repairs (r.run ops).now (r.run ops).log := by
  induction ops generalizing r with
  | nil => exact h
  | cons op ops ih => exact ih (h.step halike.1) halike.2

/-- From every queue that a run leads to, takes forget an oldest chunk whatever the order of the map if
and only if they forget alike; and in a run whose takes all forget alike, no chunk comes back before its
cooldown is over, unless too many others have been sent again since. -/
theorem forgets_oldest_exactly (cooldown now : ℚ) (ops : List RepairOp) :
    (∀ delays limit,
      (∀ orders, EachForgotten Oldest orders delays ((Repairing.new cooldown now).run ops).now
        ((Repairing.new cooldown now).run ops).repairs [] limit) ↔
      ForgetsAlike delays ((Repairing.new cooldown now).run ops).now
        ((Repairing.new cooldown now).run ops).repairs limit) ∧
    ((Repairing.new cooldown now).Along Repairing.TakesAlike ops →
      SpacedUnlessForgotten cooldown ((Repairing.new cooldown now).run ops).log) := by
  have hnew : (Repairing.new cooldown now).repairs.Valid (Repairing.new cooldown now).now :=
    valid_new cooldown
  refine ⟨fun delays limit => forgets_oldest_iff (hnew.run ops), fun halike => ?_⟩
  have htracked : Tracked cooldown (Repairing.new cooldown now).repairs
      (Repairing.new cooldown now).now (Repairing.new cooldown now).log := tracked_new
  exact (htracked.run halike).spaced

/-! ## A full map -/

/-- A report names one chunk, it is sent again, and a second passes. -/
def repairRound (n : Nat) : List RepairOp :=
  [.enqueue (formatRanges [(n, n)]) 65537, .take (fun _ => default) (fun _ => 0) 1, .wait 1]

def repairRounds (n : Nat) : List RepairOp := (List.range n).flatMap repairRound

theorem run_append (ops ops' : List RepairOp) : r.run (ops ++ ops') = (r.run ops).run ops' :=
  List.foldl_append

theorem enqueueRepairs_single {n chunks : Nat} (hn : n < chunks) (hchunks : chunks ≤ 2 ^ 64)
    (hqueued : q.queued = []) (hnew : n ∉ q.remembered) :
    (enqueueRepairs q (formatRanges [(n, n)]) chunks).1 =
      { q with queue := q.queue ++ [n], queued := [n] } := by
  have hrange : parseRange (formatRange (n, n)) = .ok (n, n) :=
    parseRange_formatRange le_rfl (show n < 2 ^ 64 by omega)
  have hrun : q.enqueueRun (n + 1 - n) n = ({ q with queue := q.queue ++ [n], queued := [n] }, false) := by
    have hone : n + 1 - n = 1 := by omega
    rw [hone, RepairQueue.enqueueRun, hqueued, if_neg (by decide), RepairQueue.enqueue, hqueued,
      if_pos ⟨hnew, List.not_mem_nil⟩]
    rfl
  rw [enqueueRepairs, splitOn_formatRanges (List.cons_ne_nil _ _), List.map_singleton, enqueueRanges,
    hrange]
  simp only
  rw [if_neg (by omega), hrun]
  rfl

/-- The chunks that have been sent again in some rounds, the last one first. -/
def roundEntries : Nat → List (Nat × ℚ)
  | 0 => []
  | n + 1 => (n, n) :: roundEntries n

theorem length_roundEntries (n : Nat) : (roundEntries n).length = n := by
  induction n with
  | zero => rfl
  | succ n ih => rw [roundEntries, List.length_cons, ih]

theorem mem_roundEntries {n k : Nat} (h : k < n) : (k, (k : ℚ)) ∈ roundEntries n := by
  induction n with
  | zero => omega
  | succ n ih =>
    rcases Nat.lt_succ_iff_lt_or_eq.1 h with hlt | rfl
    · exact List.mem_cons_of_mem _ (ih hlt)
    · exact List.mem_cons_self

theorem lt_of_mem_roundEntries {n : Nat} {e : Nat × ℚ} (h : e ∈ roundEntries n) : e.1 < n := by
  induction n with
  | zero => cases h
  | succ n ih =>
    rcases List.mem_cons.1 h with rfl | h
    · exact Nat.lt_succ_self n
    · exact Nat.lt_succ_of_lt (ih h)

/-- A round adds its chunk, as long as there is room. -/
theorem run_repairRound {n : Nat} {log : List (Nat × ℚ)} (hn : n < maxQueuedRepairs) :
    ∃ log', (Repairing.mk { lastSent := roundEntries n, cooldown := 100000 } n log).run
      (repairRound n) = ⟨{ lastSent := roundEntries (n + 1), cooldown := 100000 }, n + 1, log'⟩ := by
  have hchunk : n < 65537 := hn.trans (by decide)
  have hnew : n ∉ (RepairQueue.mk [] [] (roundEntries n) 100000).remembered := by
    intro hmem
    obtain ⟨e, he, hen⟩ := List.mem_map.1 hmem
    exact absurd (lt_of_mem_roundEntries he) (by omega)
  refine ⟨log ++ [(n, (n : ℚ))], ?_⟩
  simp only [repairRound, Repairing.run, List.foldl_cons, List.foldl_nil, Repairing.step]
  rw [enqueueRepairs_single hchunk (by decide) rfl hnew]
  have hroom : RepairQueue.victim ⟨[n], [n], roundEntries n, 100000⟩ default = none := by
    rw [RepairQueue.victim, length_roundEntries, if_neg (by omega)]
  have hpop : RepairQueue.pop ⟨[n], [n], roundEntries n, 100000⟩ n default n =
      ⟨[], [], roundEntries (n + 1), 100000⟩ := by
    have hlast := @lastSent_pop ⟨[n], [n], roundEntries n, 100000⟩ n _ default hnew
    rw [kept_eq_self hroom] at hlast
    simp only [RepairQueue.pop, RepairQueue.remember] at hlast ⊢
    rw [hlast]
    simp [roundEntries]
  simp only [List.nil_append, takeRepairs, NNRat.coe_zero, add_zero, hpop, NNRat.coe_one]

/-- The rounds fill the map. -/
theorem run_repairRounds {n : Nat} (hn : n ≤ maxQueuedRepairs) :
    ∃ log, (Repairing.new 100000 0).run (repairRounds n) =
      ⟨{ lastSent := roundEntries n, cooldown := 100000 }, n, log⟩ := by
  induction n with
  | zero => exact ⟨[], rfl⟩
  | succ n ih =>
    obtain ⟨log, hrun⟩ := ih (by omega)
    have hrounds : repairRounds (n + 1) = repairRounds n ++ repairRound n := by
      rw [repairRounds, List.range_succ, List.flatMap_append, List.flatMap_singleton]
      rfl
    obtain ⟨log', hround⟩ := @run_repairRound n log (by omega)
    refine ⟨log', ?_⟩
    rw [hrounds, run_append, hrun, hround]
    push_cast
    rfl

/-- After some rounds a report names one more chunk. -/
def oneMore (n : Nat) : List RepairOp :=
  repairRounds n ++ [.enqueue (formatRanges [(n, n)]) 65537]

theorem run_oneMore {n : Nat} (hn : n ≤ maxQueuedRepairs) :
    ((Repairing.new 100000 0).run (oneMore n)).repairs = ⟨[n], [n], roundEntries n, 100000⟩ := by
  obtain ⟨log, hrun⟩ := run_repairRounds hn
  have hchunk : n < 65537 := Nat.lt_succ_of_le hn
  have hnew : n ∉ (RepairQueue.mk [] [] (roundEntries n) 100000).remembered := by
    intro hmem
    obtain ⟨e, he, hen⟩ := List.mem_map.1 hmem
    exact absurd (lt_of_mem_roundEntries he) (by omega)
  rw [oneMore, run_append, hrun]
  exact enqueueRepairs_single hchunk (by decide) rfl hnew

theorem not_forgetsAlike {n : Nat} (hn : maxQueuedRepairs ≤ n) :
    ¬ForgetsAlike delays now ⟨[n], [n], roundEntries n, 100000⟩ 1 := by
  unfold maxQueuedRepairs at hn
  rintro (hroom | ⟨t, hall, -⟩)
  · rw [length_roundEntries] at hroom
    unfold maxQueuedRepairs at hroom
    simp only [List.length_singleton] at hroom
    omega
  · have hzero : ((0 : Nat) : ℚ) = t := hall _ (mem_roundEntries (by omega))
    have hone : ((1 : Nat) : ℚ) = t := hall _ (mem_roundEntries (by omega))
    exact absurd (hzero.trans hone.symm) (by norm_num)

/-- Once the map is full, in some order it is not the oldest chunk that is forgotten. -/
theorem not_forgets_oldest : ¬∀ (cooldown now : ℚ) (ops : List RepairOp) (orders : Nat → FirstKey)
    (delays : Nat → ℚ≥0) (limit : Nat), EachForgotten Oldest orders delays
      ((Repairing.new cooldown now).run ops).now ((Repairing.new cooldown now).run ops).repairs []
      limit := by
  intro hclaim
  -- The length of the map is not computed.
  obtain ⟨n, hn⟩ : ∃ n, n = maxQueuedRepairs := ⟨_, rfl⟩
  have hvalid : ((Repairing.new 100000 0).run (oneMore n)).repairs.Valid
      ((Repairing.new 100000 0).run (oneMore n)).now :=
    RepairQueue.Valid.run (r := Repairing.new 100000 0) (valid_new _) _
  have halike := (forgets_oldest_iff hvalid).1 fun orders =>
    hclaim 100000 0 (oneMore n) orders (fun _ => 0) 1
  rw [run_oneMore hn.le] at halike
  exact not_forgetsAlike hn.ge halike

end PacketTide
