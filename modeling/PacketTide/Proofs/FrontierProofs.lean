import Mathlib.Data.Int.Order.Basic
import PacketTide.ReceiveRuns
import PacketTide.Timelines.Basic

/-!
# The mature frontier

The history of the frontier leaves out what is current already and drops what was succeeded long ago.
No answer changes by that.
-/

namespace PacketTide

open Timelines

variable {history full : List (Instant × Nat)} {now : Instant} {current grace retention : Nat}

/-! ## The history -/

theorem abridges_dropSucceeded {cutoff : Instant} (h : Abridges cutoff now history full) :
    Abridges cutoff now (dropSucceeded cutoff history) full := by
  fun_induction dropSucceeded cutoff history with
  | case1 first second history hle ih => exact ih (h.drop hle)
  | case2 => exact h
  | case3 => exact h

theorem mem_dropSucceeded {cutoff : Instant} {history : List (Instant × Nat)} {e : Instant × Nat}
    (h : e ∈ dropSucceeded cutoff history) : e ∈ history := by
  fun_induction dropSucceeded cutoff history with
  | case1 first second history _ ih => exact List.mem_cons_of_mem _ (ih h)
  | case2 => exact h
  | case3 => exact h

/-- The frontiers that a report may speak about. -/
theorem matureFrontier_spec {history : List (Instant × Nat)} {now : Instant}
    {current grace retention : Nat} :
    (∀ e ∈ (matureFrontier history now current grace retention).1, e ∈ history ∨ e.2 = current) ∧
      ((matureFrontier history now current grace retention).2 = 0 ∨
        ∃ e ∈ (matureFrontier history now current grace retention).1,
          e.2 = (matureFrontier history now current grace retention).2) := by
  unfold matureFrontier
  refine ⟨fun e he => ?_, ?_⟩
  · have hmem := mem_dropSucceeded he
    split at hmem
    · rcases List.mem_append.1 hmem with hmem | hmem
      · exact .inl hmem
      · exact .inr (by rw [List.mem_singleton.1 hmem])
    · exact .inl hmem
  · dsimp only
    rcases hfind : List.find? _ (List.reverse _) with _ | e
    · exact .inl rfl
    · exact .inr ⟨e, List.mem_reverse.1 (List.mem_of_find?_eq_some hfind), rfl⟩

/-- Within the grace a report speaks about nothing. -/
theorem matureFrontier_graced {history : List (Instant × Nat)} {now : Instant}
    {current grace retention : Nat} (hgrace : 0 < grace)
    (h : ∀ e ∈ history, now - (grace : Int) < e.1) :
    (matureFrontier history now current grace retention).2 = 0 := by
  have hnone : ∀ e ∈ (matureFrontier history now current grace retention).1,
      now - (grace : Int) < e.1 := by
    intro e he
    have hmem := mem_dropSucceeded he
    split at hmem
    · rcases List.mem_append.1 hmem with hmem | hmem
      · exact h e hmem
      · rw [List.mem_singleton.1 hmem]
        exact Int.sub_lt_self now (Int.natCast_pos.2 hgrace)
    · exact h e hmem
  unfold matureFrontier at hnone ⊢
  dsimp only at hnone ⊢
  rw [List.find?_eq_none.2 fun e he => ?_]
  · rfl
  · have hlt := hnone e (List.mem_reverse.1 he)
    simp only [decide_eq_true_eq]
    exact not_le.2 hlt

/-! ## The answers -/

/-- A call keeps the history an abridged one, and its answer is that of the full history. -/
theorem matureFrontier_abridges {since : Instant} (h : Abridges (since - (retention : Int)) since history full)
    (hnow : since ≤ now) (hgrace : grace ≤ retention) :
    Abridges (now - (retention : Int)) now (matureFrontier history now current grace retention).1
        (full ++ [(now, current)]) ∧
      (matureFrontier history now current grace retention).2 =
        (latest (full ++ [(now, current)]) (now - (grace : Int))).getD 0 := by
  have hlater : Abridges (now - (retention : Int)) now history full := 
    h.later (Int.sub_le_sub_right hnow _) hnow
  have hrecorded : Abridges (now - (retention : Int)) now
      (if history.getLast?.all fun entry => entry.2 ≠ current then history ++ [(now, current)] else history)
      (full ++ [(now, current)]) := by
    split
    · exact hlater.record
    next hsame =>
      rcases hlast : history.getLast? with _ | e
      · rw [hlast] at hsame
        exact absurd rfl hsame
      · have hvalue : e.2 = current := by simpa [hlast] using hsame
        obtain ⟨before, rfl⟩ := List.getLast?_eq_some_iff.1 hlast
        rw [← hvalue]
        exact hlater.skip
  have hdropped := abridges_dropSucceeded hrecorded
  refine ⟨hdropped, ?_⟩
  rw [← hdropped.agree _ (Int.sub_le_sub_left (Int.ofNat_le.2 hgrace) _)]
  show Option.elim _ 0 _ = _
  rw [latest]
  rcases List.find? _ (List.reverse _) with _ | e
  · rfl
  · rfl

/-- What the full history answers. -/
theorem frontierAt_latest (observed : List (Instant × Nat)) (time : Instant) :
    FrontierAt observed time ((latest observed time).getD 0) := by
  rcases hlatest : latest observed time with _ | answer
  · exact .inr ⟨latest_eq_none.1 hlatest, rfl⟩
  · exact .inl (latest_eq_some hlatest)

theorem matureFrontiers_abridges {since : Instant} {calls : List FrontierCall}
    (h : Abridges (since - (retention : Int)) since history full)
    (hsorted : (since :: calls.map (·.now)).Pairwise (· ≤ ·)) (hgrace : ∀ c ∈ calls, c.grace ≤ retention) :
    (matureFrontiers retention history calls).length = calls.length ∧
      ∀ (i : Nat) (call : FrontierCall), calls[i]? = some call →
        (matureFrontiers retention history calls)[i]? =
          some ((latest (full ++ (calls.take (i + 1)).map FrontierCall.observation)
            (call.now - (call.grace : Int))).getD 0) := by
  induction calls generalizing history full since with
  | nil => exact ⟨rfl, fun i call hcall => nomatch hcall⟩
  | cons first calls ih =>
    obtain ⟨hfirst, hrest⟩ := List.forall_mem_cons.1 hgrace
    obtain ⟨hsince, hsorted⟩ := List.pairwise_cons.1 hsorted
    obtain ⟨hnext, hanswer⟩ := @matureFrontier_abridges _ _ _ first.current _ _ _ h
        (hsince first.now List.mem_cons_self) hfirst
    obtain ⟨hlen, hcalls⟩ := ih hnext hsorted hrest
    refine ⟨congrArg (· + 1) hlen, fun i call hcall => ?_⟩
    rcases i with _ | i
    · cases hcall
      exact congrArg some hanswer
    · have hget := hcalls i call hcall
      rw [List.append_assoc] at hget
      exact hget

/-- Neither leaving out what is current already nor dropping what was succeeded changes an answer. -/
theorem mature_frontier_exact {t0 : Instant} {v0 : Nat} {calls : List FrontierCall}
    (hsorted : (t0 :: calls.map (·.now)).Pairwise (· ≤ ·)) (hgrace : ∀ c ∈ calls, c.grace ≤ retention) :
    (matureFrontiers retention [(t0, v0)] calls).length = calls.length ∧
      ∀ (i : Nat) (call : FrontierCall), calls[i]? = some call →
        ∃ answer, (matureFrontiers retention [(t0, v0)] calls)[i]? = some answer ∧
          FrontierAt ((t0, v0) :: (calls.take (i + 1)).map FrontierCall.observation)
            (call.now - (call.grace : Int)) answer := by
  have hstart : Abridges (t0 - (retention : Int)) t0 [(t0, v0)] [(t0, v0)] :=
    .refl fun e he => by rw [List.mem_singleton.1 he]
  obtain ⟨hlen, hcalls⟩ := matureFrontiers_abridges hstart hsorted hgrace
  exact ⟨hlen, fun i call hcall => ⟨_, hcalls i call hcall, frontierAt_latest _ _⟩⟩

/-- Three calls, the second one with a shorter grace than the others. -/
theorem mature_frontier_exact_three :
    (matureFrontiers 125 [(0, 0)] [⟨50, 100, 125⟩, ⟨100, 200, 50⟩, ⟨180, 200, 125⟩]).length = 3 ∧
      ∀ (i : Nat) (call : FrontierCall),
        [FrontierCall.mk 50 100 125, ⟨100, 200, 50⟩, ⟨180, 200, 125⟩][i]? = some call →
          ∃ answer, (matureFrontiers 125 [(0, 0)]
            [⟨50, 100, 125⟩, ⟨100, 200, 50⟩, ⟨180, 200, 125⟩])[i]? = some answer ∧
          FrontierAt ((0, 0) :: ([FrontierCall.mk 50 100 125, ⟨100, 200, 50⟩, ⟨180, 200, 125⟩].take
            (i + 1)).map FrontierCall.observation) (call.now - (call.grace : Int)) answer :=
  mature_frontier_exact (by decide) (by decide)

end PacketTide
