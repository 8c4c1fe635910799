import Mathlib.Data.List.Pairwise
import Mathlib.Order.Lattice

/-!
# Lists of intervals

Half-open intervals in a linear order, kept in ascending order with gaps between them. Then an interval
is covered by the whole list just if it lies in one of its members.
-/

namespace Intervals

variable {α : Type*} [LinearOrder α] {ranges : List (α × α)} {start stop x : α}

/-- Some interval of a list holds a point. -/
def Covers (ranges : List (α × α)) (x : α) : Prop := ∃ r ∈ ranges, r.1 ≤ x ∧ x < r.2

/-- Some interval of a list holds a whole interval. -/
def Holds (ranges : List (α × α)) (start stop : α) : Prop := ∃ r ∈ ranges, r.1 ≤ start ∧ stop ≤ r.2

instance (x : α) : Decidable (Covers ranges x) := inferInstanceAs (Decidable (∃ r ∈ ranges, _))

instance (start stop : α) : Decidable (Holds ranges start stop) :=
  inferInstanceAs (Decidable (∃ r ∈ ranges, _))

/-- The intervals are not empty, ascend, and do not touch. -/
structure Separated (ranges : List (α × α)) : Prop where
  proper : ∀ r ∈ ranges, r.1 < r.2
  apart : ranges.Pairwise fun a b => a.2 < b.1

theorem covers_cons {r : α × α} : Covers (r :: ranges) x ↔ (r.1 ≤ x ∧ x < r.2) ∨ Covers ranges x := by
  simp only [Covers, List.mem_cons, or_and_right, exists_or, exists_eq_left]

theorem not_covers_nil : ¬Covers ([] : List (α × α)) x := fun ⟨_, hr, _⟩ => nomatch hr

theorem covers_reverse : Covers ranges.reverse x ↔ Covers ranges x := by
  simp only [Covers, List.mem_reverse]

theorem holds_cons {r : α × α} :
    Holds (r :: ranges) start stop ↔ (r.1 ≤ start ∧ stop ≤ r.2) ∨ Holds ranges start stop := by
  simp only [Holds, List.mem_cons, or_and_right, exists_or, exists_eq_left]

theorem Separated.sublist {others : List (α × α)} (h : Separated ranges) (hs : others.Sublist ranges) :
    Separated others :=
  ⟨fun r hr => h.proper r (hs.subset hr), h.apart.sublist hs⟩

theorem separated_nil : Separated ([] : List (α × α)) :=
  ⟨fun _ hr => (nomatch hr), List.Pairwise.nil⟩

theorem separated_snoc {r : α × α} :
    Separated (ranges ++ [r]) ↔ Separated ranges ∧ r.1 < r.2 ∧ ∀ a ∈ ranges, a.2 < r.1 := by
  constructor
  · rintro ⟨hproper, hapart⟩
    obtain ⟨hranges, -, hlast⟩ := List.pairwise_append.1 hapart
    exact ⟨⟨fun a ha => hproper a (List.mem_append_left _ ha), hranges⟩,
      hproper r (List.mem_append_right _ List.mem_cons_self),
      fun a ha => hlast a ha r List.mem_cons_self⟩
  · rintro ⟨⟨hproper, hapart⟩, hr, hlast⟩
    refine ⟨fun a ha => ?_, List.pairwise_append.2 ⟨hapart, List.pairwise_singleton _ _, ?_⟩⟩
    · rcases List.mem_append.1 ha with ha | ha
      · exact hproper a ha
      · rw [List.mem_singleton.1 ha]
        exact hr
    · intro a ha b hb
      rw [List.mem_singleton.1 hb]
      exact hlast a ha

/-- Members that end before an interval do not matter. -/
theorem holds_dropWhile {bound : α} (hbound : bound ≤ start) (hlt : start < stop) :
    Holds (ranges.dropWhile fun r => r.2 ≤ bound) start stop ↔ Holds ranges start stop := by
  induction ranges with
  | nil => exact Iff.rfl
  | cons r ranges ih =>
    rw [List.dropWhile_cons]
    split
    next hpassed =>
      have hnot : ¬(r.1 ≤ start ∧ stop ≤ r.2) := fun hr =>
        absurd (hr.2.trans ((of_decide_eq_true hpassed).trans hbound)) (not_le.2 hlt)
      rw [ih, holds_cons, or_iff_right hnot]
    · exact Iff.rfl

/-- Where the first member ends behind the start, only it can hold the interval. -/
theorem Separated.holds_head (h : Separated ranges) (hhead : ∀ r ∈ ranges.head?, start < r.2) :
    Holds ranges start stop ↔ ∃ r ∈ ranges.head?, r.1 ≤ start ∧ stop ≤ r.2 := by
  rcases ranges with _ | ⟨first, ranges⟩
  · exact ⟨fun ⟨_, hr, _⟩ => (nomatch hr), fun ⟨_, hr, _⟩ => (nomatch hr)⟩
  · rw [holds_cons, List.head?_cons]
    constructor
    · rintro (hfirst | ⟨r, hr, hstart, -⟩)
      · exact ⟨first, rfl, hfirst⟩
      · have hafter := List.rel_of_pairwise_cons h.apart hr
        exact absurd (hstart.trans_lt (hhead first rfl)) (not_lt.2 hafter.le)
    · rintro ⟨r, hr, hfirst⟩
      cases hr
      exact .inl hfirst

end Intervals
