import PacketTide.Bitmap

/-!
# Lemmas about receipt bitmaps
-/

namespace PacketTide

theorem and_bit_ne_zero (word : BitVec 64) {b : Nat} (hb : b < 64) :
    (word &&& (1#64 <<< b) != 0#64) = word.getLsbD b := by
  rw [Bool.eq_iff_iff, bne_iff_ne, ne_eq, BitVec.eq_of_getLsbD_eq_iff]
  constructor
  · intro h
    by_contra hw
    apply h
    intro i hi
    by_cases hib : i = b
    · subst hib; simp [hw]
    · simp; omega
  · intro hw h
    have := h b hb
    simp [hb] at this
    rw [BitVec.getLsbD_eq_getElem hb, this] at hw
    cases hw

theorem bitmapContains_eq (bitmap : Bitmap) (sequence : Nat) :
    bitmapContains bitmap sequence =
      ((bitmap[sequence / 64]?).map fun word => word.getLsbD (sequence % 64)).getD false := by
  unfold bitmapContains
  cases bitmap[sequence / 64]? with
  | none => rfl
  | some word => exact and_bit_ne_zero word (Nat.mod_lt _ (by omega))

@[simp] theorem length_bitmapInsert (bitmap : Bitmap) (sequence : Nat) :
    (bitmapInsert bitmap sequence).length = bitmap.length := by
  simp [bitmapInsert]

theorem lt_length_of_bitmapContains {bitmap : Bitmap} {i : Nat} (h : bitmapContains bitmap i) :
    i / 64 < bitmap.length := by
  by_contra hl
  rw [bitmapContains_eq, List.getElem?_eq_none (by omega)] at h
  cases h

/-- Recording a chunk sets its bit and no other. -/
theorem bitmapContains_bitmapInsert {bitmap : Bitmap} {sequence : Nat}
    (h : sequence / 64 < bitmap.length) (i : Nat) :
    bitmapContains (bitmapInsert bitmap sequence) i =
      (decide (i = sequence) || bitmapContains bitmap i) := by
  rw [bitmapContains_eq, bitmapContains_eq, bitmapInsert, List.getElem?_modify]
  by_cases hw : sequence / 64 = i / 64
  · have hlt : i / 64 < bitmap.length := hw ▸ h
    have hm : i % 64 < 64 := Nat.mod_lt _ (by omega)
    simp only [hw, if_true, List.getElem?_eq_getElem hlt, Option.map_eq_map, Option.map_some,
      Option.getD_some, BitVec.getLsbD_or]
    by_cases hi : i = sequence
    · subst hi; simp [hm]
    · simp [hi, hm]
      omega
  · have hi : i ≠ sequence := by rintro rfl; exact hw rfl
    simp [hw, hi]

/-- A chunk beyond the words is not recorded. -/
theorem bitmapInsert_of_le {bitmap : Bitmap} {sequence : Nat} (h : bitmap.length ≤ sequence / 64) :
    bitmapInsert bitmap sequence = bitmap := by
  unfold bitmapInsert
  exact List.modify_eq_self h

/-- Recording a chunk adds no other. -/
theorem bitmapContains_of_insert {bitmap : Bitmap} {sequence i : Nat}
    (h : bitmapContains (bitmapInsert bitmap sequence) i) (hi : i ≠ sequence) :
    bitmapContains bitmap i := by
  by_cases hw : sequence / 64 < bitmap.length
  · rw [bitmapContains_bitmapInsert hw, decide_eq_false hi, Bool.false_or] at h
    exact h
  · rwa [bitmapInsert_of_le (by omega)] at h

/-- Recording a chunk drops none. -/
theorem bitmapContains_insert_of {bitmap : Bitmap} {sequence i : Nat}
    (h : bitmapContains bitmap i) : bitmapContains (bitmapInsert bitmap sequence) i := by
  by_cases hw : sequence / 64 < bitmap.length
  · rw [bitmapContains_bitmapInsert hw, h, Bool.or_true]
  · rwa [bitmapInsert_of_le (by omega)]

theorem bitmapContains_replicate_zero (n i : Nat) :
    bitmapContains (List.replicate n 0#64) i = false := by
  rw [bitmapContains_eq, List.getElem?_replicate]
  split <;> simp

theorem lt_bitmapWords {i chunks : Nat} (h : i < chunks) : i / 64 < bitmapWords chunks := by
  unfold bitmapWords
  omega

/-! ## Counting -/

theorem bitmapContains_cons (word : BitVec 64) (bitmap : Bitmap) (i : Nat) :
    bitmapContains (word :: bitmap) i =
      if i < 64 then word.getLsbD i else bitmapContains bitmap (i - 64) := by
  rw [bitmapContains_eq, bitmapContains_eq]
  by_cases hi : i < 64
  · have hdiv : i / 64 = 0 := Nat.div_eq_of_lt hi
    rw [if_pos hi, hdiv, Nat.mod_eq_of_lt hi]
    rfl
  · obtain ⟨j, rfl⟩ : ∃ j, i = j + 64 := ⟨i - 64, by omega⟩
    rw [if_neg hi, Nat.add_div_right _ (by decide), Nat.add_mod_right, Nat.add_sub_cancel]
    rfl

theorem bitmapCount_eq (bitmap : Bitmap) :
    bitmapCount bitmap = (List.range (64 * bitmap.length)).countP (bitmapContains bitmap) := by
  induction bitmap with
  | nil => rfl
  | cons word bitmap ih =>
    have hlen : 64 * (word :: bitmap).length = 64 + 64 * bitmap.length := by
      rw [List.length_cons]
      omega
    have hword : (List.range 64).countP (bitmapContains (word :: bitmap)) = countOnes word := by
      refine List.countP_congr fun i hi => ?_
      rw [bitmapContains_cons, if_pos (List.mem_range.1 hi)]
    have hrest : bitmapContains (word :: bitmap) ∘ (64 + ·) = bitmapContains bitmap := by
      funext i
      rw [Function.comp, bitmapContains_cons, if_neg (by omega), Nat.add_sub_cancel_left]
    rw [hlen, List.range_add, List.countP_append, List.countP_map, hword, hrest, ← ih]
    rfl

theorem countP_or_eq {l : List Nat} {p : Nat → Bool} {s : Nat} (hl : l.Nodup) (hs : s ∈ l)
    (hp : p s = false) : l.countP (fun i => decide (i = s) || p i) = l.countP p + 1 := by
  induction l with
  | nil => cases hs
  | cons a l ih =>
    obtain ⟨ha, hl⟩ := List.nodup_cons.1 hl
    rw [List.countP_cons, List.countP_cons]
    rcases List.mem_cons.1 hs with rfl | hs
    · have hrest : l.countP (fun i => decide (i = s) || p i) = l.countP p := by
        refine List.countP_congr fun i hi => ?_
        have hne : i ≠ s := fun h => ha (h ▸ hi)
        simp [hne]
      simp [hrest, hp]
    · have hne : a ≠ s := fun h => ha (h ▸ hs)
      rw [ih hl hs]
      simp [hne]
      omega

/-- Recording a new chunk counts one more. -/
theorem bitmapCount_bitmapInsert {bitmap : Bitmap} {sequence : Nat}
    (h : sequence / 64 < bitmap.length) (hnew : bitmapContains bitmap sequence = false) :
    bitmapCount (bitmapInsert bitmap sequence) = bitmapCount bitmap + 1 := by
  have hmem : sequence ∈ List.range (64 * bitmap.length) := by
    rw [List.mem_range]
    omega
  have hfun : bitmapContains (bitmapInsert bitmap sequence) =
      fun i => decide (i = sequence) || bitmapContains bitmap i :=
    funext fun i => bitmapContains_bitmapInsert h i
  rw [bitmapCount_eq, bitmapCount_eq, length_bitmapInsert, hfun,
    countP_or_eq List.nodup_range hmem hnew]

namespace BitmapFor

variable {chunks : Nat} {bitmap : Bitmap}

theorem place_lt (h : BitmapFor chunks bitmap) {i : Nat} (hi : i < chunks) : i / 64 < bitmap.length :=
  h.length_eq ▸ lt_bitmapWords hi

theorem insert (h : BitmapFor chunks bitmap) {i : Nat} (hi : i < chunks) :
    BitmapFor chunks (bitmapInsert bitmap i) where
  length_eq := by rw [length_bitmapInsert, h.length_eq]
  lt_chunks j hj := by
    by_cases hji : j = i
    · rw [hji]
      exact hi
    · exact h.lt_chunks j (bitmapContains_of_insert hj hji)

theorem count_eq (h : BitmapFor chunks bitmap) :
    bitmapCount bitmap = (List.range chunks).countP (bitmapContains bitmap) := by
  obtain ⟨rest, hrest⟩ : ∃ rest, 64 * bitmap.length = chunks + rest := by
    have hlen := h.length_eq
    unfold bitmapWords at hlen
    exact ⟨64 * bitmap.length - chunks, by omega⟩
  have hbeyond : ((List.range rest).map (chunks + ·)).countP (bitmapContains bitmap) = 0 := by
    rw [List.countP_eq_zero]
    intro i hi hcontains
    obtain ⟨j, -, rfl⟩ := List.mem_map.1 hi
    have hlt := h.lt_chunks _ hcontains
    omega
  rw [bitmapCount_eq, hrest, List.range_add, List.countP_append, hbeyond, Nat.add_zero]

theorem count_le (h : BitmapFor chunks bitmap) : bitmapCount bitmap ≤ chunks := by
  have hle : (List.range chunks).countP (bitmapContains bitmap) ≤ (List.range chunks).length :=
    List.countP_le_length
  rw [h.count_eq]
  rwa [List.length_range] at hle

/-- All chunks are counted if all are recorded. -/
theorem count_eq_chunks_iff (h : BitmapFor chunks bitmap) :
    bitmapCount bitmap = chunks ↔ ∀ i < chunks, bitmapContains bitmap i = true := by
  have hlength := List.countP_eq_length (l := List.range chunks) (p := bitmapContains bitmap)
  rw [List.length_range] at hlength
  rw [h.count_eq, hlength]
  exact ⟨fun hall i hi => hall i (List.mem_range.2 hi), fun hall i hi => hall i (List.mem_range.1 hi)⟩

end BitmapFor

theorem bitmapFor_zero (chunks : Nat) : BitmapFor chunks (List.replicate (bitmapWords chunks) 0#64) where
  length_eq := List.length_replicate
  lt_chunks i hi := by
    rw [bitmapContains_replicate_zero] at hi
    cases hi

end PacketTide
