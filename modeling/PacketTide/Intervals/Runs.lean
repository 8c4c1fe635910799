import Mathlib.Data.List.Pairwise

/-!
# Runs of numbers

The longest runs of numbers with a property below an end, and a list of the first of them.
-/

namespace Intervals

variable {p : Nat → Prop} {stop limit start : Nat} {run run' : Nat × Nat} {runs : List (Nat × Nat)}

/-- A run of numbers with a property, from its first to its last number, that cannot be extended. -/
structure IsRun (p : Nat → Prop) (stop : Nat) (run : Nat × Nat) : Prop where
  le : run.1 ≤ run.2
  lt : run.2 < stop
  holds : ∀ x, run.1 ≤ x → x ≤ run.2 → p x
  before : ∀ x, x + 1 = run.1 → ¬p x
  behind : run.2 + 1 < stop → ¬p (run.2 + 1)

/-- Two runs that share a number are one. -/
theorem IsRun.eq_of_mem (h : IsRun p stop run) (h' : IsRun p stop run') {x : Nat}
    (hx : run.1 ≤ x ∧ x ≤ run.2) (hx' : run'.1 ≤ x ∧ x ≤ run'.2) : run = run' := by
  have hle : ∀ {r r' : Nat × Nat}, IsRun p stop r → IsRun p stop r' → r.1 ≤ x ∧ x ≤ r.2 →
      r'.1 ≤ x ∧ x ≤ r'.2 → r.1 ≤ r'.1 ∧ r'.2 ≤ r.2 := by
    intro r r' hr hr' hxr hxr'
    refine ⟨?_, ?_⟩
    · by_contra hlt
      exact hr.before (r.1 - 1) (by omega) (hr'.holds _ (by omega) (by omega))
    · by_contra hlt
      have hlast := hr'.lt
      exact hr.behind (by omega) (hr'.holds _ (by omega) (by omega))
  obtain ⟨hfirst, hlast⟩ := hle h h' hx hx'
  obtain ⟨hfirst', hlast'⟩ := hle h' h hx' hx
  exact Prod.ext (Nat.le_antisymm hfirst hfirst') (Nat.le_antisymm hlast' hlast)

/-- A list holds the first runs that begin at a number or behind it, in their order: all of them, or as
many as it may hold. -/
structure FirstRuns (p : Nat → Prop) (stop limit start : Nat) (runs : List (Nat × Nat)) : Prop where
  isRun : ∀ run ∈ runs, IsRun p stop run
  start_le : ∀ run ∈ runs, start ≤ run.1
  ascending : runs.Pairwise fun a b => a.2 + 1 < b.1
  length_le : runs.length ≤ limit
  complete : ∀ run, IsRun p stop run → start ≤ run.1 →
    run ∈ runs ∨ (runs.length = limit ∧ ∀ r ∈ runs, r.2 < run.1)

theorem firstRuns_none : FirstRuns p stop 0 start [] :=
  ⟨fun _ h => (nomatch h), fun _ h => (nomatch h), .nil, Nat.le_refl 0, fun _ _ _ =>
    .inr ⟨rfl, fun _ h => (nomatch h)⟩⟩

/-- There are no runs behind the end. -/
theorem firstRuns_end (h : stop ≤ start) : FirstRuns p stop limit start [] :=
  ⟨fun _ h => (nomatch h), fun _ h => (nomatch h), .nil, Nat.zero_le _, fun run hrun hle => by
    have hlast := hrun.lt
    have hproper := hrun.le
    omega⟩

/-- No run begins at a number without the property. -/
theorem FirstRuns.skip (h : FirstRuns p stop limit (start + 1) runs) (hp : ¬p start) :
    FirstRuns p stop limit start runs :=
  { h with
    start_le := fun run hrun => Nat.le_of_succ_le (h.start_le run hrun)
    complete := fun run hrun hle => by
      have hne : start ≠ run.1 := fun heq => hp (hrun.holds start (heq ▸ Nat.le_refl _) (heq ▸ hrun.le))
      exact h.complete run hrun (by omega) }

/-- The run at the front comes before those that begin behind it. -/
theorem FirstRuns.cons (h : FirstRuns p stop limit (run.2 + 1) runs) (hrun : IsRun p stop run) :
    FirstRuns p stop (limit + 1) run.1 (run :: runs) where
  isRun r hr := by
    rcases List.mem_cons.1 hr with rfl | hr
    · exact hrun
    · exact h.isRun r hr
  start_le r hr := by
    rcases List.mem_cons.1 hr with rfl | hr
    · exact Nat.le_refl _
    · exact Nat.le_trans hrun.le (Nat.le_of_succ_le (h.start_le r hr))
  ascending := by
    refine List.pairwise_cons.2 ⟨fun r hr => ?_, h.ascending⟩
    have hr' := h.isRun r hr
    refine Nat.lt_of_le_of_ne (h.start_le r hr) fun heq => ?_
    -- the number behind the run does not have the property
    have hlt : run.2 + 1 < stop := heq ▸ Nat.lt_of_le_of_lt hr'.le hr'.lt
    exact hrun.behind hlt (hr'.holds _ (heq ▸ Nat.le_refl _) (heq ▸ hr'.le))
  length_le := Nat.succ_le_succ h.length_le
  complete r hr hle := by
    by_cases hmeet : r.1 ≤ run.2
    · have heq := hrun.eq_of_mem hr ⟨hle, hmeet⟩ ⟨Nat.le_refl _, hr.le⟩
      exact .inl (heq ▸ List.mem_cons_self)
    · rcases h.complete r hr (by omega) with hmem | ⟨hlength, hbefore⟩
      · exact .inl (List.mem_cons_of_mem _ hmem)
      · refine .inr ⟨congrArg (· + 1) hlength, fun r' hr' => ?_⟩
        rcases List.mem_cons.1 hr' with rfl | hr'
        · omega
        · exact hbefore r' hr'

end Intervals
