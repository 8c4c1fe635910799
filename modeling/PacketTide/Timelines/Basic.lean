import Mathlib.Data.List.Induction
import Mathlib.Order.Lattice

/-!
# Abridged histories

A history is a list of values with the times from which they were current. An abridged history leaves
out entries, but from a horizon on it gives the same answer to the question what was current at a time.
-/

namespace Timelines

variable {τ : Type*} {α : Type*} [LinearOrder τ]

/-- The value of the last entry that was made no later than a time. -/
def latest (history : List (τ × α)) (t : τ) : Option α :=
  (history.reverse.find? fun e => e.1 ≤ t).map (·.2)

variable {history full : List (τ × α)} {s t now horizon : τ} {value : α}

@[simp] theorem latest_nil : latest ([] : List (τ × α)) t = none := rfl

theorem latest_snoc : latest (history ++ [(s, value)]) t = if s ≤ t then some value else latest history t := by
  rw [latest, List.reverse_append, List.reverse_singleton, List.singleton_append, List.find?_cons]
  by_cases h : s ≤ t
  · simp [h]
  · simp [h, latest]

theorem latest_append {first second : List (τ × α)} :
    latest (first ++ second) t = (latest second t).or (latest first t) := by
  rw [latest, List.reverse_append, List.find?_append, Option.map_or]
  rfl

/-- An entry is of no interest when another one follows it in time. -/
theorem latest_cons_cons {first second : τ × α} (h : second.1 ≤ t) :
    latest (first :: second :: history) t = latest (second :: history) t := by
  have hsome : (latest [second] t).isSome := by simp [latest, h]
  have hone : latest [first, second] t = latest [second] t := by
    obtain ⟨value, hvalue⟩ := Option.isSome_iff_exists.1 hsome
    have happend := @latest_append _ _ _ t [first] [second]
    rw [hvalue] at happend ⊢
    exact happend
  have hfirst : first :: second :: history = [first, second] ++ history := rfl
  have hsecond : second :: history = [second] ++ history := rfl
  rw [hfirst, hsecond, latest_append, latest_append, hone]

/-- What the last entry at a time is. -/
theorem latest_eq_some {result : α} (h : latest history t = some result) :
    ∃ (j : Nat) (e : τ × α), history[j]? = some e ∧ e.1 ≤ t ∧ e.2 = result ∧
      ∀ k > j, ∀ later : τ × α, history[k]? = some later → t < later.1 := by
  induction history using List.reverseRecOn with
  | nil => cases h
  | append_singleton history entry ih =>
    obtain ⟨time, value⟩ := entry
    rw [latest_snoc] at h
    split at h
    next hle =>
      refine ⟨history.length, (time, value), List.getElem?_concat_length, hle, Option.some.inj h, ?_⟩
      intro k hk later hlater
      rw [List.getElem?_eq_none (by rw [List.length_append, List.length_singleton]; exact hk)] at hlater
      cases hlater
    next hlt =>
      obtain ⟨j, e, hj, hle, hvalue, hafter⟩ := ih h
      have hin := (List.getElem?_eq_some_iff.1 hj).1
      refine ⟨j, e, by rw [List.getElem?_append_left hin]; exact hj, hle, hvalue, fun k hk later hlater => ?_⟩
      rcases Nat.lt_or_ge k history.length with hbefore | hlast
      · rw [List.getElem?_append_left hbefore] at hlater
        exact hafter k hk later hlater
      · rw [List.getElem?_append_right hlast] at hlater
        obtain rfl := List.mem_singleton.1 (List.mem_of_getElem? hlater)
        exact lt_of_not_ge hlt

theorem latest_eq_none : latest history t = none ↔ ∀ e ∈ history, t < e.1 := by
  rw [latest, Option.map_eq_none_iff, List.find?_eq_none]
  simp only [List.mem_reverse, decide_eq_true_eq, not_le]

/-- From a horizon on a history answers as the full one does, and it knows nothing of the future. -/
structure Abridges (horizon now : τ) (history full : List (τ × α)) : Prop where
  agree : ∀ t, horizon ≤ t → latest history t = latest full t
  past : ∀ e ∈ history, e.1 ≤ now

namespace Abridges

theorem refl (h : ∀ e ∈ full, e.1 ≤ now) : Abridges horizon now full full := ⟨fun _ _ => rfl, h⟩

/-- Time passes. -/
theorem later {horizon' now' : τ} (h : Abridges horizon now history full) (hhorizon : horizon ≤ horizon')
    (hnow : now ≤ now') : Abridges horizon' now' history full :=
  ⟨fun t ht => h.agree t (le_trans hhorizon ht), fun e he => le_trans (h.past e he) hnow⟩

/-- An entry is made in both. -/
theorem record (h : Abridges horizon now history full) :
    Abridges horizon now (history ++ [(now, value)]) (full ++ [(now, value)]) := by
  refine ⟨fun t ht => ?_, fun e he => ?_⟩
  · rw [latest_snoc, latest_snoc, h.agree t ht]
  · rcases List.mem_append.1 he with he | he
    · exact h.past e he
    · rw [List.mem_singleton.1 he]

/-- An entry is left out because its value is current already. -/
theorem skip {e : τ × α} (h : Abridges horizon now (history ++ [e]) full) :
    Abridges horizon now (history ++ [e]) (full ++ [(now, e.2)]) := by
  refine ⟨fun t ht => ?_, h.past⟩
  rw [h.agree t ht, latest_snoc]
  split
  next hle =>
    have hpast := h.past e (List.mem_append_right _ List.mem_cons_self)
    have hlast : latest (history ++ [(e.1, e.2)]) t = some e.2 := by
      rw [latest_snoc, if_pos (le_trans hpast hle)]
    exact (h.agree t ht).symm.trans hlast
  next => rfl

/-- An entry is dropped because the next one lies before the horizon. -/
theorem drop {first second : τ × α} (h : Abridges horizon now (first :: second :: history) full)
    (hsecond : second.1 ≤ horizon) : Abridges horizon now (second :: history) full := by
  refine ⟨fun t ht => ?_, fun e he => h.past e (List.mem_cons_of_mem _ he)⟩
  rw [← h.agree t ht, latest_cons_cons (le_trans hsecond ht)]

end Abridges

end Timelines
