import PacketTide.FileSystem.Calls

/-!
# Writing into the bytes of a file

A write inside a file keeps its length and every range of it that it does not touch.
-/

namespace FileSystem.FS

variable {offset start count : Nat} {new old : List UInt8}

@[simp] theorem splice_nil (offset : Nat) (old : List UInt8) : splice offset [] old = old := rfl

theorem splice_inside (h : offset + new.length ≤ old.length) :
    splice offset new old = old.take offset ++ (new ++ old.drop (offset + new.length)) := by
  unfold splice
  split_ifs with hn
  · subst hn
    simp
  · have hgap : offset - old.length = 0 := by omega
    rw [hgap, List.replicate_zero, List.append_nil, List.append_assoc]

theorem length_splice (h : offset + new.length ≤ old.length) :
    (splice offset new old).length = old.length := by
  rw [splice_inside h, List.length_append, List.length_append, List.length_take, List.length_drop]
  omega

/-- Each byte is the one that was written there, or the old one. -/
theorem getElem?_splice (h : offset + new.length ≤ old.length) (x : Nat) :
    (splice offset new old)[x]? =
      if offset ≤ x ∧ x < offset + new.length then new[x - offset]? else old[x]? := by
  have hlen : (old.take offset).length = offset := by
    rw [List.length_take]
    omega
  rw [splice_inside h]
  by_cases hbefore : x < offset
  · rw [if_neg (by omega), List.getElem?_append_left (by omega), List.getElem?_take_of_lt hbefore]
  · rw [List.getElem?_append_right (by omega), hlen]
    by_cases hin : x < offset + new.length
    · rw [if_pos (by omega), List.getElem?_append_left (by omega)]
    · rw [if_neg (by omega), List.getElem?_append_right (by omega), List.getElem?_drop]
      congr 1
      omega

/-- What was written is read back. -/
theorem range_splice_self (h : offset + new.length ≤ old.length) :
    ((splice offset new old).drop offset).take new.length = new := by
  have hlen : (old.take offset).length = offset := by
    rw [List.length_take]
    omega
  rw [splice_inside h, List.drop_left' hlen, List.take_left' rfl]

/-- A range that ends before the write or starts after it is kept. -/
theorem range_splice_of_disjoint (h : offset + new.length ≤ old.length)
    (hd : start + count ≤ offset ∨ offset + new.length ≤ start) :
    ((splice offset new old).drop start).take count = (old.drop start).take count := by
  have hlen : (old.take offset).length = offset := by
    rw [List.length_take]
    omega
  rw [splice_inside h]
  rcases hd with hd | hd
  · have hdrop : start ≤ (old.take offset).length := by omega
    rw [List.drop_append_of_le_length hdrop, List.take_append_of_le_length, List.drop_take,
      List.take_take, Nat.min_eq_left (by omega)]
    rw [List.length_drop]
    omega
  · have hfront : (old.take offset ++ new).length = offset + new.length := by
      rw [List.length_append, hlen]
    have hskip : offset + new.length + (start - (offset + new.length)) = start := by omega
    rw [← List.append_assoc, List.drop_append, List.drop_eq_nil_of_le (by omega), List.nil_append,
      hfront, List.drop_drop, hskip]

@[simp] theorem length_resize (len : Nat) (old : List UInt8) : (resize len old).length = len := by
  rw [resize, List.length_append, List.length_take, List.length_replicate]
  omega

end FileSystem.FS
