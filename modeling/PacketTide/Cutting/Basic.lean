import Mathlib.Tactic.TypeStar

/-!
# Cutting a sequence at places that its content determines

A cutter reads the elements one after the other with a state. It ends a piece as soon as the state says
so, and then it begins again in its first state. Behind the end of a piece it no longer knows what it has
read before.
-/

namespace Cutting

variable {α : Type*} {σ : Type*}

/-- A cutter. -/
structure Cutter (α : Type*) (σ : Type*) where
  start : σ
  step : σ → α → σ
  ends : σ → Bool

namespace Cutter

variable (c : Cutter α σ)

/-- The pieces from a state on, with what has been read of the first one. -/
def piecesFrom : σ → List α → List α → List (List α)
  | _, piece, [] => if piece.isEmpty then [] else [piece]
  | s, piece, a :: input =>
    if c.ends (c.step s a) then (piece ++ [a]) :: piecesFrom c.start [] input
    else piecesFrom (c.step s a) (piece ++ [a]) input

def pieces (input : List α) : List (List α) := c.piecesFrom c.start [] input

variable {c} {s : σ} {piece input : List α}

/-- Nothing is lost. -/
theorem flatten_piecesFrom : (c.piecesFrom s piece input).flatten = piece ++ input := by
  induction input generalizing s piece with
  | nil =>
    rw [piecesFrom]
    split
    next h => rw [List.isEmpty_iff.1 h, List.flatten_nil, List.append_nil]
    next => rw [List.flatten_singleton, List.append_nil]
  | cons a input ih =>
    rw [piecesFrom]
    split
    · rw [List.flatten_cons, ih, List.nil_append, List.append_assoc, List.singleton_append]
    · rw [ih, List.append_assoc, List.singleton_append]

theorem flatten_pieces : (c.pieces input).flatten = input := flatten_piecesFrom

/-- After a piece that is not the last one the cutter begins again. -/
theorem tail_piecesFrom {first : List α} {rest : List (List α)} (hrest : rest ≠ [])
    (h : c.piecesFrom s piece input = first :: rest) :
    ∃ tail, piece ++ input = first ++ tail ∧ rest = c.pieces tail := by
  induction input generalizing s piece with
  | nil =>
    rw [piecesFrom] at h
    split at h
    · cases h
    · exact absurd (List.cons.inj h).2.symm hrest
  | cons a input ih =>
    rw [piecesFrom] at h
    split at h
    · obtain ⟨hfirst, htail⟩ := List.cons.inj h
      refine ⟨input, ?_, htail.symm⟩
      rw [← hfirst, List.append_assoc, List.singleton_append]
    · obtain ⟨tail, hsplit, htail⟩ := ih h
      refine ⟨tail, ?_, htail⟩
      rw [← hsplit, List.append_assoc, List.singleton_append]

/-- The pieces behind a boundary are those of what follows it. -/
theorem pieces_behind {done rest : List (List α)} {before behind : List α} (hrest : done = [] ∨ rest ≠ [])
    (h : c.pieces (before ++ behind) = done ++ rest) (hbefore : done.flatten = before) :
    rest = c.pieces behind := by
  induction done generalizing before with
  | nil =>
    rw [List.flatten_nil] at hbefore
    rw [← hbefore, List.nil_append, List.nil_append] at h
    exact h.symm
  | cons first done ih =>
    have hne := hrest.resolve_left (List.cons_ne_nil first done)
    have hmore : done ++ rest ≠ [] := fun hnil => hne (List.append_eq_nil_iff.1 hnil).2
    obtain ⟨tail, hsplit, htail⟩ := tail_piecesFrom hmore h
    rw [List.nil_append, ← hbefore, List.flatten_cons, List.append_assoc] at hsplit
    refine ih (.inr hne) ?_ rfl
    rw [List.append_cancel_left hsplit, htail]

end Cutter

end Cutting
