import PacketTide.Pacer
import Mathlib.Tactic.Linarith
import Mathlib.Tactic.FieldSimp
import Mathlib.Tactic.Ring
import Mathlib.Tactic.Positivity

/-!
# How far the pacer bounds bursts

What has been sent up to the last look at the clock is always on schedule, and after it less than a
batch is sent. So a burst is a batch and what the pacer was behind its schedule when the burst began.
-/

namespace PacketTide

variable {rate started now t₁ t₂ : ℚ} {p : Pacer} {c : PacedCall} {calls later : List PacedCall}
  {datagram : Nat}

/-! ## Lists of calls -/

@[simp] theorem totalBytes_nil : totalBytes [] = 0 := rfl

@[simp] theorem totalBytes_cons : totalBytes (c :: calls) = c.bytes + totalBytes calls := by
  simp [totalBytes]

@[simp] theorem totalBytes_append :
    totalBytes (calls ++ later) = totalBytes calls + totalBytes later := by
  simp [totalBytes]

@[simp] theorem windowBytes_nil : windowBytes [] t₁ t₂ = 0 := rfl

theorem windowBytes_cons : windowBytes (c :: calls) t₁ t₂ =
    (if t₁ < c.returned ∧ c.returned ≤ t₂ then c.bytes else 0) + windowBytes calls t₁ t₂ := by
  unfold windowBytes
  by_cases h : t₁ < c.returned ∧ c.returned ≤ t₂
  · simp [h]
  · rw [List.filter_cons_of_neg (by simpa using h), if_neg h, Nat.zero_add]

@[simp] theorem windowBytes_append :
    windowBytes (calls ++ later) t₁ t₂ = windowBytes calls t₁ t₂ + windowBytes later t₁ t₂ := by
  simp [windowBytes]

theorem windowBytes_eq_zero (h : ∀ c ∈ calls, ¬(t₁ < c.returned ∧ c.returned ≤ t₂)) :
    windowBytes calls t₁ t₂ = 0 := by
  unfold windowBytes
  rw [List.filter_eq_nil_iff.2 fun c hc => by simpa using h c hc, totalBytes_nil]

theorem windowBytes_eq_total (h : ∀ c ∈ calls, t₁ < c.returned ∧ c.returned ≤ t₂) :
    windowBytes calls t₁ t₂ = totalBytes calls := by
  unfold windowBytes
  rw [List.filter_eq_self.2 fun c hc => by simpa using h c hc]

/-! ## The state of the pacer -/

/-- The state of a pacer of a rate that has counted some bytes up to a time. -/
structure Paced (rate started : ℚ) (p : Pacer) (now : ℚ) : Prop where
  rate_eq : p.bytesPerSecond = rate
  started_eq : p.started = started
  batch_eq : p.batchBytes = Pacer.batchFor rate
  since_le : p.bytesSinceWait ≤ p.bytesSent
  since_lt : p.bytesSinceWait < p.batchBytes
  /-- What had been sent at the last look at the clock is on schedule. -/
  schedule : p.bytesSent - p.bytesSinceWait ≤ rate * (now - started)

theorem batchFor_pos (rate : ℚ) : 0 < Pacer.batchFor rate := by
  unfold Pacer.batchFor
  rw [Nat.floor_pos]
  exact le_min ((by norm_num : (1 : ℚ) ≤ 1200).trans (le_max_right _ _)) (by norm_num)

theorem batchFor_le (rate : ℚ) : Pacer.batchFor rate ≤ 65536 := by
  unfold Pacer.batchFor
  exact Nat.floor_le_of_le (min_le_right _ _)

theorem paced_new : Paced rate started (.new rate started) started where
  rate_eq := rfl
  started_eq := rfl
  batch_eq := rfl
  since_le := le_rfl
  since_lt := batchFor_pos rate
  schedule := by simp [Pacer.new]

/-- What a call does: it counts its bytes, and either it is not yet time to look at the clock, or it
sleeps up to the schedule. -/
theorem accountAndWait_cases {bytes : Nat} (hsum : p.bytesSent + bytes < 2 ^ 64)
    (hle : p.bytesSinceWait ≤ p.bytesSent) :
    (p.bytesSinceWait + bytes < p.batchBytes ∧ p.accountAndWait bytes now =
      ({ p with bytesSent := p.bytesSent + bytes, bytesSinceWait := p.bytesSinceWait + bytes }, 0)) ∨
    (p.batchBytes ≤ p.bytesSinceWait + bytes ∧ ∃ sleep, p.accountAndWait bytes now =
      ({ p with bytesSent := p.bytesSent + bytes, bytesSinceWait := 0 }, sleep) ∧
      sleep = max 0 (((p.bytesSent + bytes : Nat) : ℚ) / p.bytesPerSecond - (now - p.started))) := by
  unfold Pacer.accountAndWait
  rw [Nat.mod_eq_of_lt hsum, Nat.mod_eq_of_lt (by omega)]
  by_cases h : p.bytesSinceWait + bytes < p.batchBytes
  · exact .inl ⟨h, if_pos h⟩
  · refine .inr ⟨not_lt.1 h, _, if_neg h, ?_⟩
    split
    next hlt => rw [max_eq_right (by linarith)]
    next hlt => rw [max_eq_left (by linarith)]

/-- A call keeps the state of the pacer. -/
theorem Paced.account (h : Paced rate started p now) (hr : 0 < rate) (hnow : now ≤ c.entered)
    (hret : c.entered + (p.accountAndWait c.bytes c.entered).2 ≤ c.returned)
    (hsum : p.bytesSent + c.bytes < 2 ^ 64) :
    Paced rate started (p.accountAndWait c.bytes c.entered).1 c.returned ∧
      (p.accountAndWait c.bytes c.entered).1.bytesSent = p.bytesSent + c.bytes ∧
      now ≤ c.returned := by
  rcases @accountAndWait_cases c.entered _ _ hsum h.since_le with
    ⟨hlt, heq⟩ | ⟨hle, sleep, heq, hsleep⟩
  · rw [heq] at hret ⊢
    have hlater : now ≤ c.returned := by
      simp only at hret
      linarith
    refine ⟨⟨h.rate_eq, h.started_eq, h.batch_eq, ?_, hlt, ?_⟩, rfl, hlater⟩
    · exact Nat.add_le_add_right h.since_le _
    · have hgrow := mul_le_mul_of_nonneg_left (sub_le_sub_right hlater started) hr.le
      have hkept := h.schedule
      push_cast
      linarith
  · rw [heq] at hret ⊢
    have hwait : sleep ≤ c.returned - c.entered := by
      simp only at hret
      linarith
    have hzero : 0 ≤ sleep := hsleep ▸ le_max_left _ _
    have htarget : ((p.bytesSent + c.bytes : Nat) : ℚ) / rate ≤ c.returned - started := by
      have hmax := le_max_right 0
        (((p.bytesSent + c.bytes : Nat) : ℚ) / p.bytesPerSecond - (c.entered - p.started))
      rw [← hsleep, h.rate_eq, h.started_eq] at hmax
      linarith
    have hlater : now ≤ c.returned := by linarith
    refine ⟨⟨h.rate_eq, h.started_eq, h.batch_eq, Nat.zero_le _, ?_, ?_⟩, rfl, hlater⟩
    · exact lt_of_le_of_lt (Nat.zero_le _) h.since_lt
    · rw [div_le_iff₀ hr] at htarget
      simp only [Nat.cast_zero, sub_zero]
      linarith

/-! ## Windows -/

theorem timely_append : Timely p now (calls ++ later) ↔
    Timely p now calls ∧ Timely (p.after calls) (returnOf now calls) later := by
  induction calls generalizing p now with
  | nil => exact (true_and _).symm.to_iff
  | cons c calls ih =>
    rw [List.cons_append, Timely, Timely, ih, and_assoc, and_assoc]
    rfl

/-- Calls keep the state of the pacer, and all of them return between the first and the last moment. -/
theorem Paced.run (h : Paced rate started p now) (hr : 0 < rate) (htimely : Timely p now calls)
    (hsum : p.bytesSent + totalBytes calls < 2 ^ 64) :
    Paced rate started (p.after calls) (returnOf now calls) ∧
      (p.after calls).bytesSent = p.bytesSent + totalBytes calls ∧
      now ≤ returnOf now calls ∧ ∀ c ∈ calls, now ≤ c.returned ∧ c.returned ≤ returnOf now calls := by
  induction calls generalizing p now with
  | nil => exact ⟨h, rfl, le_rfl, by simp⟩
  | cons c calls ih =>
    obtain ⟨hentered, hreturned, hrest⟩ := htimely
    rw [totalBytes_cons] at hsum
    obtain ⟨hc, hsent, hlater⟩ := h.account hr hentered hreturned (by omega)
    obtain ⟨hpaced, hbytes, hend, hall⟩ := ih hc hrest (by omega)
    refine ⟨hpaced, ?_, hlater.trans hend, ?_⟩
    · rw [totalBytes_cons]
      exact hbytes.trans (by omega)
    · intro d hd
      rcases List.mem_cons.1 hd with rfl | hd
      · exact ⟨hlater, hend⟩
      · exact ⟨hlater.trans (hall d hd).1, (hall d hd).2⟩

theorem Paced.sent_le (h : Paced rate started p now) (hr : 0 < rate) (hnow : now ≤ t₂) :
    (p.bytesSent : ℚ) + 1 ≤ rate * (t₂ - started) + Pacer.batchFor rate := by
  have hlt : (p.bytesSinceWait : ℚ) + 1 ≤ Pacer.batchFor rate := by
    exact_mod_cast h.batch_eq ▸ h.since_lt
  have hgrow := mul_le_mul_of_nonneg_left (sub_le_sub_right hnow started) hr.le
  have hkept := h.schedule
  linarith

/-- Up to any time, less than a batch more than what the rate allows is sent. -/
theorem Paced.window_le (h : Paced rate started p now) (hr : 0 < rate) (htimely : Timely p now calls)
    (hsum : p.bytesSent + totalBytes calls < 2 ^ 64) (hnow : now ≤ t₂) :
    ((p.bytesSent + windowBytes calls t₁ t₂ : Nat) : ℚ) + 1 ≤
      rate * (t₂ - started) + Pacer.batchFor rate := by
  induction calls generalizing p now with
  | nil => exact h.sent_le hr hnow
  | cons c calls ih =>
    obtain ⟨hentered, hreturned, hrest⟩ := htimely
    rw [totalBytes_cons] at hsum
    obtain ⟨hc, hbytes, hlater⟩ := h.account hr hentered hreturned (by omega)
    by_cases hin : c.returned ≤ t₂
    · have hih := ih hc hrest (by omega) hin
      have hle : p.bytesSent + windowBytes (c :: calls) t₁ t₂ ≤
          (p.accountAndWait c.bytes c.entered).1.bytesSent + windowBytes calls t₁ t₂ := by
        rw [windowBytes_cons]
        split <;> omega
      have hcast : ((p.bytesSent + windowBytes (c :: calls) t₁ t₂ : Nat) : ℚ) ≤
          (((p.accountAndWait c.bytes c.entered).1.bytesSent + windowBytes calls t₁ t₂ : Nat) : ℚ) := by
        exact_mod_cast hle
      linarith
    · -- From here on every call returns after the window has closed.
      obtain ⟨-, -, -, hall⟩ := hc.run hr hrest (by omega)
      have hzero : windowBytes (c :: calls) t₁ t₂ = 0 := by
        refine windowBytes_eq_zero fun d hd hwindow => ?_
        rcases List.mem_cons.1 hd with rfl | hd
        · exact hin hwindow.2
        · exact hin ((hall d hd).1.trans hwindow.2)
      rw [hzero]
      exact h.sent_le hr hnow

/-- If the pacer was on schedule whenever a call returned, it bounds every burst. -/
theorem burstsBounded_of_onSchedule (hr : 0 < rate)
    (htimely : Timely (.new rate started) started calls) (hsum : totalBytes calls < 2 ^ 64)
    (hschedule : ∀ before c after, calls = before ++ c :: after →
      OnSchedule rate started datagram (before ++ [c]) c.returned) :
    BurstsBounded rate started datagram calls := by
  intro c₁ hc₁ c₂ _ hle
  obtain ⟨before, after, rfl⟩ := List.append_of_mem hc₁
  have hopen := hschedule before c₁ after rfl
  rw [← List.singleton_append, ← List.append_assoc] at htimely hsum ⊢
  obtain ⟨hbefore, hafter⟩ := timely_append.1 htimely
  have hfresh : (Pacer.new rate started).bytesSent = 0 := rfl
  rw [totalBytes_append] at hsum
  obtain ⟨hpaced, hsent, -, hall⟩ := paced_new.run hr hbefore (by omega)
  have hreturn : returnOf started (before ++ [c₁]) = c₁.returned := by simp [returnOf]
  rw [hreturn] at hafter hpaced hall
  have hclosed : windowBytes (before ++ [c₁]) c₁.returned c₂.returned = 0 :=
    windowBytes_eq_zero fun c hc hwindow => not_lt.2 (hall c hc).2 hwindow.1
  have hwindow := @hpaced.window_le _ _ _ c₁.returned _ _ _ hr hafter (by omega) hle
  rw [windowBytes_append, hclosed, Nat.zero_add]
  rw [hsent, hfresh, Nat.zero_add] at hwindow
  unfold OnSchedule at hopen
  push_cast at hwindow
  show _ ≤ rate * (c₂.returned - c₁.returned) + (Pacer.batchFor rate : ℚ) + datagram
  linarith

/-! ## Bursts after a gap -/

theorem after_concat :
    p.after (calls ++ [c]) = ((p.after calls).accountAndWait c.bytes c.entered).1 :=
  List.foldl_concat _ _ _ _

theorem returnOf_concat : returnOf now (calls ++ [c]) = c.returned := List.foldl_concat _ _ _ _

theorem exists_returnOf (h : calls ≠ []) : ∃ c ∈ calls, c.returned = returnOf now calls := by
  obtain ⟨before, c, rfl⟩ := (List.eq_nil_or_concat' calls).resolve_left h
  exact ⟨c, by simp, returnOf_concat.symm⟩

theorem totalBytes_ones (h : ∀ c ∈ calls, c.bytes = 1) : totalBytes calls = calls.length := by
  induction calls with
  | nil => rfl
  | cons c calls ih =>
    rw [totalBytes_cons, h c List.mem_cons_self, ih fun d hd => h d (List.mem_cons_of_mem _ hd),
      List.length_cons, Nat.add_comm]

/-- Calls of one byte, made without a pause, end at once or at the last look at the clock. -/
theorem Paced.exists_ones (h : Paced rate started p now) (hr : 0 < rate) (k : Nat)
    (hsum : p.bytesSent + k < 2 ^ 64) : ∃ calls, Timely p now calls ∧
      (∀ c ∈ calls, c.bytes = 1) ∧ calls.length = k ∧
      (p.after calls).bytesSinceWait = (p.bytesSinceWait + k) % Pacer.batchFor rate ∧
      rate * (returnOf now calls - started) ≤
        max (rate * (now - started)) (p.bytesSent + k - (p.after calls).bytesSinceWait) := by
  induction k with
  | zero =>
    refine ⟨[], trivial, by simp, rfl, ?_, le_max_left _ _⟩
    rw [Nat.add_zero, Nat.mod_eq_of_lt (h.batch_eq ▸ h.since_lt)]
    rfl
  | succ k ih =>
    obtain ⟨calls, htimely, hones, hlen, hsince, htime⟩ := ih (by omega)
    have htotal := totalBytes_ones hones
    obtain ⟨hpaced, hsent, -, -⟩ := h.run hr htimely (by omega)
    have hbatch := hpaced.batch_eq
    have hlt := hpaced.since_lt
    -- The next call is entered as soon as the last one has returned.
    refine ⟨calls ++ [⟨returnOf now calls, 1, returnOf now calls +
      ((p.after calls).accountAndWait 1 (returnOf now calls)).2⟩], ?_, ?_, ?_, ?_⟩
    · exact timely_append.2 ⟨htimely, le_rfl, le_rfl, trivial⟩
    · intro c hc
      rcases List.mem_append.1 hc with hc | hc
      · exact hones c hc
      · rw [List.mem_singleton.1 hc]
    · rw [List.length_append, hlen, List.length_singleton]
    · rw [after_concat, returnOf_concat]
      have hmod : (p.bytesSinceWait + (k + 1)) % Pacer.batchFor rate =
          ((p.after calls).bytesSinceWait + 1) % Pacer.batchFor rate := by
        rw [hsince, Nat.mod_add_mod, Nat.add_assoc]
      rw [hmod]
      rcases @accountAndWait_cases (returnOf now calls) _ 1 (by omega) hpaced.since_le with ⟨hquiet, heq⟩ | ⟨hlook, sleep, heq, hsleep⟩
      · rw [heq]
        refine ⟨(Nat.mod_eq_of_lt (hbatch ▸ hquiet)).symm, ?_⟩
        push_cast
        rw [add_zero]
        refine htime.trans (max_le_max_left _ (le_of_eq ?_))
        ring
      · rw [heq]
        have hfull : (p.after calls).bytesSinceWait + 1 = Pacer.batchFor rate := by omega
        refine ⟨by rw [hfull, Nat.mod_self], ?_⟩
        have hbound : rate * (returnOf now calls - started) ≤
            max (rate * (now - started)) (p.bytesSent + (k + 1 : Nat)) := by
          refine htime.trans (max_le_max_left _ ?_)
          push_cast
          linarith [Nat.cast_nonneg (α := ℚ) (p.after calls).bytesSinceWait]
        rw [hsent, htotal, hlen, hpaced.rate_eq, hpaced.started_eq] at hsleep
        rw [hsleep, Nat.cast_zero, sub_zero]
        rcases max_cases 0 (((p.bytesSent + k + 1 : Nat) : ℚ) / rate - (returnOf now calls - started))
          with ⟨hmax, -⟩ | ⟨hmax, -⟩
        · rw [hmax, add_zero]
          exact hbound
        · rw [hmax]
          refine le_max_of_le_right (le_of_eq ?_)
          field_simp
          push_cast
          ring

/-- Time may pass. -/
theorem Paced.wait (h : Paced rate started p now) (hr : 0 < rate) (hlater : now ≤ t₂) :
    Paced rate started p t₂ :=
  { h with
    schedule := h.schedule.trans (mul_le_mul_of_nonneg_left (sub_le_sub_right hlater started) hr.le) }

theorem Timely.wait (h : Timely p t₂ calls) (hlater : now ≤ t₂) : Timely p now calls := by
  cases calls with
  | nil => trivial
  | cons c calls => exact ⟨hlater.trans h.1, h.2⟩

/-- What the pacer is behind its schedule can be sent in one burst: a pacer that is behind by more than
a datagram and a byte lets calls of one byte go over the bound. -/
theorem Paced.exists_burst (h : Paced rate started p now) (hr : 0 < rate)
    (hbehind : p.bytesSent + datagram + 1 < rate * (now - started))
    (hroom : p.bytesSent + (datagram + 4) * 65536 < 2 ^ 64) : ∃ calls, Timely p now calls ∧
      (∀ c ∈ calls, c.bytes = 1) ∧ p.bytesSent + totalBytes calls < 2 ^ 64 ∧
      ∃ c ∈ calls, now ≤ c.returned ∧
        rate * (c.returned - now) + Pacer.batchFor rate + datagram <
          windowBytes calls now c.returned := by
  have hb := batchFor_pos rate
  have hb' := batchFor_le rate
  have hlt := h.since_lt
  rw [h.batch_eq] at hlt
  -- The calls begin soon after, and the last of them is just before a look at the clock.
  have hsoon : now < now + 1 / rate := lt_add_of_pos_right _ (one_div_pos.2 hr)
  obtain ⟨k, hk⟩ : ∃ k, k = Pacer.batchFor rate - 1 - p.bytesSinceWait +
      Pacer.batchFor rate * (datagram + 3) := ⟨_, rfl⟩
  have hmul : Pacer.batchFor rate * (datagram + 3) ≤ 65536 * (datagram + 3) :=
    Nat.mul_le_mul_right _ hb'
  obtain ⟨calls, htimely, hones, hlen, hsince, htime⟩ :=
    (h.wait hr hsoon.le).exists_ones hr k (by omega)
  have htotal := totalBytes_ones hones
  obtain ⟨-, -, -, hall⟩ := (h.wait hr hsoon.le).run hr htimely (by omega)
  have hlast : (p.after calls).bytesSinceWait = Pacer.batchFor rate - 1 := by
    have hsum : p.bytesSinceWait + k =
        Pacer.batchFor rate - 1 + Pacer.batchFor rate * (datagram + 3) := by omega
    rw [hsince, hsum, Nat.add_mul_mod_self_left, Nat.mod_eq_of_lt (by omega)]
  have hmany : Pacer.batchFor rate + datagram + 1 < k := by
    have hle : datagram ≤ Pacer.batchFor rate * datagram := Nat.le_mul_of_pos_left _ hb
    rw [Nat.mul_add] at hk
    omega
  obtain ⟨c, hc, hreturn⟩ := @exists_returnOf (now + 1 / rate) calls (by
    rintro rfl
    rw [List.length_nil] at hlen
    omega)
  refine ⟨calls, htimely.wait hsoon.le, hones, by omega, c, hc, hsoon.le.trans (hall c hc).1, ?_⟩
  have hwindow : windowBytes calls now c.returned = k := by
    rw [windowBytes_eq_total, htotal, hlen]
    intro d hd
    exact ⟨hsoon.trans_le (hall d hd).1, hreturn ▸ (hall d hd).2⟩
  rw [hwindow]
  rw [hlast, Nat.cast_sub (by omega), ← hreturn] at htime
  have hmany' : (Pacer.batchFor rate : ℚ) + datagram + 1 < k := by exact_mod_cast hmany
  rcases le_max_iff.1 htime with htime | htime
  · -- The pacer never slept, so all of it went out within the time of one byte.
    have hunit : rate * (now + 1 / rate - started) = rate * (now - started) + 1 := by
      field_simp
      ring
    linarith
  · -- The pacer slept up to its schedule, and then sent what it had been behind and a batch.
    push_cast at htime
    linarith

/-- In every run whose returns find the pacer on schedule the bursts are bounded; and whenever a return
finds it more behind, some calls of one byte after it break the bound. -/
theorem bursts_bounded_iff (hr : 0 < rate) (htimely : Timely (.new rate started) started calls)
    (hsum : totalBytes calls < 2 ^ 64) :
    ((∀ before c after, calls = before ++ c :: after →
        OnSchedule rate started datagram (before ++ [c]) c.returned) →
      BurstsBounded rate started datagram calls) ∧
    (¬OnSchedule rate started datagram calls (returnOf started calls) →
      totalBytes calls + (datagram + 4) * 65536 < 2 ^ 64 →
      ∃ later, Timely (.new rate started) started (calls ++ later) ∧
        (∀ c ∈ later, c.bytes = 1) ∧ totalBytes (calls ++ later) < 2 ^ 64 ∧
        ¬BurstsBounded rate started datagram (calls ++ later)) := by
  refine ⟨burstsBounded_of_onSchedule hr htimely hsum, fun hbehind hroom => ?_⟩
  have hfresh : (Pacer.new rate started).bytesSent = 0 := rfl
  obtain ⟨hpaced, hsent, -, hall⟩ := paced_new.run hr htimely (by omega)
  rw [hfresh, Nat.zero_add] at hsent
  unfold OnSchedule at hbehind
  obtain ⟨later, hlater, hones, hroom', c, hc, hnow, hburst⟩ :=
    hpaced.exists_burst hr (hsent ▸ not_le.1 hbehind) (hsent ▸ hroom)
  refine ⟨later, timely_append.2 ⟨htimely, hlater⟩, hones, ?_, fun hbounded => ?_⟩
  · rw [totalBytes_append]
    omega
  · obtain ⟨c₁, hc₁, hreturn⟩ := @exists_returnOf started calls (by
      rintro rfl
      refine hbehind ?_
      show rate * (started - started) ≤ _
      rw [sub_self, mul_zero]
      positivity)
    have hclosed : windowBytes calls c₁.returned c.returned = 0 :=
      windowBytes_eq_zero fun d hd hwindow =>
        not_lt.2 (hreturn ▸ (hall d hd).2) hwindow.1
    have hle := hbounded c₁ (List.mem_append_left _ hc₁) c (List.mem_append_right _ hc)
      (hreturn ▸ hnow)
    rw [windowBytes_append, hclosed, Nat.zero_add, hreturn] at hle
    exact absurd hburst (not_lt.2 hle)

/-- Two datagrams without a pause, at a million bytes a second: the second call sleeps. -/
def steadyCalls : List PacedCall := [⟨0, 1200, 0⟩, ⟨0, 1200, 3 / 1250⟩]

theorem timely_steadyCalls : Timely (.new 1000000 0) 0 steadyCalls := by
  simp only [steadyCalls, Timely]
  decide +kernel

theorem bursts_bounded_steady : BurstsBounded 1000000 0 1200 steadyCalls := by
  refine (bursts_bounded_iff (by norm_num) timely_steadyCalls (by decide)).1 ?_
  intro before c after h
  rcases before with _ | ⟨d, _ | ⟨e, before⟩⟩
  · cases h
    simp only [OnSchedule]
    decide +kernel
  · cases h
    simp only [OnSchedule]
    decide +kernel
  · have hlen := congrArg List.length h
    simp [steadyCalls] at hlen

/-- A datagram after a second of silence, and then four without a pause. -/
def silentCalls : List PacedCall :=
  ⟨1, 1200, 1⟩ :: List.replicate 4 ⟨1001 / 1000, 1200, 1001 / 1000⟩

/-- The second of silence is made up for in one burst. -/
theorem not_bursts_bounded : ¬∀ (rate started : ℚ) (datagram : Nat) (calls : List PacedCall),
    0 < rate → Timely (.new rate started) started calls → (∀ c ∈ calls, c.bytes ≤ datagram) →
    totalBytes calls < 2 ^ 64 → BurstsBounded rate started datagram calls := by
  intro hclaim
  have htimely : Timely (.new 1000000 0) 0 silentCalls := by
    simp only [silentCalls, List.replicate, Timely]
    decide +kernel
  have hbounded := hclaim 1000000 0 1200 silentCalls (by norm_num) htimely (by decide) (by decide)
  have hburst := hbounded ⟨1, 1200, 1⟩ (by decide) ⟨1001 / 1000, 1200, 1001 / 1000⟩
    (by decide +kernel) (by decide +kernel)
  exact absurd hburst (by decide +kernel)

end PacketTide
