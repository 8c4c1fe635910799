import Mathlib.Algebra.Order.Archimedean.Basic
import Mathlib.Order.Interval.Set.Defs
import Mathlib.Tactic.Linarith

/-!
# Sequences that settle

A sequence moves towards an interval by at least a fixed step while it is outside, does not jump over it,
and does not leave it. So it comes into it and stays.
-/

namespace Settling

variable {α : Type*} [Field α] [LinearOrder α] [IsStrictOrderedRing α] {r : ℕ → α} {a b step : α}

/-- A sequence moves up to a value by steps. -/
def ClimbsTo (r : ℕ → α) (a step : α) : Prop := ∀ n, r n < a → r n + step ≤ r (n + 1) ∨ a ≤ r (n + 1)

/-- A sequence moves down to a value by steps. -/
def FallsTo (r : ℕ → α) (b step : α) : Prop := ∀ n, b < r n → r (n + 1) ≤ r n - step ∨ r (n + 1) ≤ b

/-- What climbs reaches its aim. -/
theorem ClimbsTo.reaches [Archimedean α] (h : ClimbsTo r a step) (hstep : 0 < step) : ∃ n, a ≤ r n := by
  by_contra hnever
  push Not at hnever
  have hgrows : ∀ n : ℕ, r 0 + n * step ≤ r n := by
    intro n
    induction n with
    | zero => simp
    | succ n ih =>
      rcases h n (hnever n) with hup | hdone
      · have hcast : ((n + 1 : ℕ) : α) * step = n * step + step := by
          push_cast
          ring
        rw [hcast]
        linarith
      · exact absurd hdone (not_le.2 (hnever (n + 1)))
  obtain ⟨n, hn⟩ := Archimedean.arch (a - r 0) hstep
  rw [nsmul_eq_mul] at hn
  have hbelow := hnever n
  have habove := hgrows n
  linarith

theorem FallsTo.reaches [Archimedean α] (h : FallsTo r b step) (hstep : 0 < step) : ∃ n, r n ≤ b := by
  have hclimbs : ClimbsTo (fun n => -r n) (-b) step := by
    intro n hn
    rcases h n (by linarith) with hdown | hdone
    · exact .inl (by linarith)
    · exact .inr (by linarith)
  obtain ⟨n, hn⟩ := hclimbs.reaches hstep
  exact ⟨n, by linarith⟩

/-- A sequence that moves towards an interval from both sides, does not jump over it and does not leave it
settles in it. -/
theorem settles [Archimedean α] (hstep : 0 < step) (hup : ClimbsTo r a step) (hdown : FallsTo r b step)
    (hover : ∀ n, r n < a → r (n + 1) ≤ b) (hunder : ∀ n, b < r n → a ≤ r (n + 1))
    (hstay : ∀ n, r n ∈ Set.Icc a b → r (n + 1) ∈ Set.Icc a b) : ∃ N, ∀ n, N ≤ n → r n ∈ Set.Icc a b := by
  have henter : ∃ N, r N ∈ Set.Icc a b := by
    by_contra hnever
    push Not at hnever
    -- it stays on the side on which it starts
    by_cases hstart : r 0 < a
    · have hbelow : ∀ n, r n < a := by
        intro n
        induction n with
        | zero => exact hstart
        | succ n ih =>
          by_contra hge
          exact hnever (n + 1) ⟨not_lt.1 hge, hover n ih⟩
      obtain ⟨n, hn⟩ := hup.reaches hstep
      exact absurd hn (not_le.2 (hbelow n))
    · have habove : ∀ n, b < r n := by
        intro n
        induction n with
        | zero =>
          by_contra hle
          exact hnever 0 ⟨not_lt.1 hstart, not_lt.1 hle⟩
        | succ n ih =>
          by_contra hle
          exact hnever (n + 1) ⟨hunder n ih, not_lt.1 hle⟩
      obtain ⟨n, hn⟩ := hdown.reaches hstep
      exact absurd hn (not_le.2 (habove n))
  obtain ⟨N, hN⟩ := henter
  refine ⟨N, fun n hn => ?_⟩
  induction n, hn using Nat.le_induction with
  | base => exact hN
  | succ n _ ih => exact hstay n ih

end Settling
