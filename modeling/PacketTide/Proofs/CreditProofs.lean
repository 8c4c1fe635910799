import PacketTide.Proofs.ReuseProofs
import PacketTide.Proofs.RoundTripProofs
import PacketTide.ReuseRuns

/-!
# Crediting copied ranges

The ranges that were copied are joined to intervals with gaps between them. A chunk is credited just if
it was missing and one of these intervals holds it.
-/

namespace PacketTide

open Intervals

/-! ## Joining -/

/-- Joining ranges that begin one after the other keeps what they cover, and leaves gaps. -/
theorem mergeRanges_spec {merged ranges : List (Nat × Nat)} (hm : Separated merged.reverse)
    (hproper : ∀ r ∈ ranges, r.1 < r.2) (hsorted : ranges.Pairwise fun a b => a.1 ≤ b.1)
    (hlast : ∀ last ∈ merged.head?, ∀ r ∈ ranges, last.1 ≤ r.1) :
    Separated (mergeRanges merged ranges) ∧
      ∀ x, Covers (mergeRanges merged ranges) x ↔ Covers merged x ∨ Covers ranges x := by
  induction ranges generalizing merged with
  | nil =>
    refine ⟨by rw [mergeRanges]; exact hm, fun x => ?_⟩
    rw [mergeRanges, covers_reverse, or_iff_left not_covers_nil]
  | cons range ranges ih =>
    obtain ⟨hrange, hproper⟩ := List.forall_mem_cons.1 hproper
    obtain ⟨hfirst, hsorted⟩ := List.pairwise_cons.1 hsorted
    rcases merged with _ | ⟨last, merged⟩
    · rw [mergeRanges]
      obtain ⟨hsep, hcovers⟩ := @ih [range]
        (separated_snoc.2 ⟨separated_nil, hrange, fun _ hr => (nomatch hr)⟩)
        hproper hsorted (fun last hl => by cases hl; exact hfirst)
      refine ⟨hsep, fun x => ?_⟩
      rw [hcovers x, covers_cons, covers_cons, or_iff_left not_covers_nil,
        or_iff_right not_covers_nil]
    · have hle := hlast last rfl range List.mem_cons_self
      rw [List.reverse_cons, separated_snoc] at hm
      obtain ⟨hmerged, hproperLast, hbefore⟩ := hm
      rw [mergeRanges]
      split
      next htouch =>
        obtain ⟨hsep, hcovers⟩ := @ih ((last.1, max last.2 range.2) :: merged)
          (by
            rw [List.reverse_cons, separated_snoc]
            exact ⟨hmerged, Nat.lt_of_lt_of_le hproperLast (Nat.le_max_left _ _), hbefore⟩)
          hproper hsorted
          (fun l hl => by
            cases hl
            exact fun r hr => hle.trans (hfirst r hr))
        refine ⟨hsep, fun x => ?_⟩
        rw [hcovers x, covers_cons, covers_cons, covers_cons]
        dsimp only
        have hjoined : (last.1 ≤ x ∧ x < max last.2 range.2) ↔
            (last.1 ≤ x ∧ x < last.2) ∨ range.1 ≤ x ∧ x < range.2 := by omega
        rw [hjoined]
        tauto
      next hgap =>
        obtain ⟨hsep, hcovers⟩ := @ih (range :: last :: merged)
          (by
            rw [List.reverse_cons, separated_snoc, List.reverse_cons, separated_snoc]
            refine ⟨⟨hmerged, hproperLast, hbefore⟩, hrange, fun a ha => ?_⟩
            rcases List.mem_append.1 ha with ha | ha
            · have hlt := hbefore a ha
              omega
            · rw [List.mem_singleton.1 ha]
              exact Nat.not_le.1 hgap)
          hproper hsorted (fun l hl => by cases hl; exact hfirst)
        refine ⟨hsep, fun x => ?_⟩
        rw [hcovers x, covers_cons, covers_cons, covers_cons]
        tauto

theorem mergeRanges_nil {ranges : List (Nat × Nat)} (hproper : ∀ r ∈ ranges, r.1 < r.2)
    (hsorted : ranges.Pairwise fun a b => a.1 ≤ b.1) :
    Separated (mergeRanges [] ranges) ∧
      ∀ x, Covers (mergeRanges [] ranges) x ↔ Covers ranges x := by
  obtain ⟨hsep, hcovers⟩ := @mergeRanges_spec [] _ separated_nil hproper hsorted nofun
  exact ⟨hsep, fun x => (hcovers x).trans (or_iff_right not_covers_nil)⟩

/-! ## Crediting -/

/-- Chunks are recorded and counted. -/
def Reused.credit (layout : ChunkLayout) (reused : Reused) (sequences : List Nat) : Reused where
  resume := { reused.resume with
    bitmap := sequences.foldl bitmapInsert reused.resume.bitmap
    receivedCount := reused.resume.receivedCount + sequences.length }
  bytes := reused.bytes + (sequences.map fun i => layout.stop i - layout.start i).sum
  chunks := reused.chunks + sequences.length

/-- The missing chunks that one of some ranges holds, from a number on. -/
def creditable (layout : ChunkLayout) (bitmap : Bitmap) (ranges : List (Nat × Nat))
    (sequence n : Nat) : List Nat :=
  (List.range' sequence n).filter fun i =>
    !bitmapContains bitmap i && decide (Holds ranges (layout.start i) (layout.stop i))

theorem creditable_succ (layout : ChunkLayout) (bitmap : Bitmap) (ranges : List (Nat × Nat))
    (sequence n : Nat) : creditable layout bitmap ranges sequence (n + 1) =
      if bitmapContains bitmap sequence = false ∧
          Holds ranges (layout.start sequence) (layout.stop sequence) then
        sequence :: creditable layout bitmap ranges (sequence + 1) n
      else creditable layout bitmap ranges (sequence + 1) n := by
  rw [creditable, List.range'_succ, List.filter_cons]
  simp only [Bool.and_eq_true, Bool.not_eq_true', decide_eq_true_eq]
  rfl

theorem creditable_congr {layout : ChunkLayout} {bitmap bitmap' : Bitmap}
    {ranges ranges' : List (Nat × Nat)} {sequence n : Nat}
    (h : ∀ i, sequence ≤ i → i < sequence + n → (bitmapContains bitmap i = bitmapContains bitmap' i ∧
      (Holds ranges (layout.start i) (layout.stop i) ↔
        Holds ranges' (layout.start i) (layout.stop i)))) :
    creditable layout bitmap ranges sequence n = creditable layout bitmap' ranges' sequence n := by
  refine List.filter_congr fun i hi => ?_
  obtain ⟨hlow, hhigh⟩ := List.mem_range'_1.1 hi
  obtain ⟨hbit, hholds⟩ := h i hlow hhigh
  rw [hbit, decide_eq_decide.2 hholds]

theorem creditChunks_eq {layout : ChunkLayout}
    (hbound : layout.chunks * layout.payloadBytes < 2 ^ 64)
    (hfull : ∀ i < layout.chunks, layout.start i < layout.stop i) {n sequence : Nat}
    (hn : sequence + n = layout.chunks) {ranges : List (Nat × Nat)} (hsep : Separated ranges)
    {reused : Reused} (hwords : layout.chunks ≤ 64 * reused.resume.bitmap.length)
    (hcount : reused.resume.receivedCount + n < 2 ^ 64) (hchunks : reused.chunks + n < 2 ^ 64)
    (hbytes : reused.bytes + n * layout.payloadBytes < 2 ^ 64) :
    creditChunks layout n sequence ranges reused =
      .ok (reused.credit layout (creditable layout reused.resume.bitmap ranges sequence n)) := by
  induction n generalizing sequence ranges reused with
  | zero => rfl
  | succ n ih =>
    rw [creditChunks, creditable_succ]
    have hmul : (n + 1) * layout.payloadBytes = n * layout.payloadBytes + layout.payloadBytes :=
      Nat.succ_mul _ _
    rcases hbit : bitmapContains reused.resume.bitmap sequence with _ | _
    swap
    · rw [if_pos rfl, if_neg (fun hholds => Bool.noConfusion hholds.1), ih (by omega) hsep hwords (by omega) (by omega) (by omega)]
    have hsequence : sequence < layout.chunks := by omega
    have hlt := hfull sequence hsequence
    have hrange : sequence * layout.payloadBytes + layout.payloadBytes < 2 ^ 64 := by
      have hle := Nat.mul_le_mul_right layout.payloadBytes (Nat.succ_le_of_lt hsequence)
      rw [Nat.succ_mul] at hle
      omega
    rw [if_neg (by decide)]
    dsimp only
    rw [refuseIf_of_not (by omega), check_bind, refuseIf_of_not (by omega), check_bind]
    have hdropped : Separated (ranges.dropWhile fun range => range.2 ≤ layout.start sequence) :=
      hsep.sublist (List.dropWhile_sublist _)
    have hholds : ∀ i, sequence ≤ i → i < layout.chunks →
        (Holds (ranges.dropWhile fun range => range.2 ≤ layout.start sequence) (layout.start i)
          (layout.stop i) ↔ Holds ranges (layout.start i) (layout.stop i)) := fun i hlow hhigh =>
      holds_dropWhile (Nat.mul_le_mul_right _ hlow) (hfull i hhigh)
    have hcovered : ((ranges.dropWhile fun range => range.2 ≤ layout.start sequence).head?.any
        fun range => range.1 ≤ layout.start sequence && layout.stop sequence ≤ range.2) = true ↔
          Holds ranges (layout.start sequence) (layout.stop sequence) := by
      rw [← hholds sequence (Nat.le_refl _) hsequence, hdropped.holds_head ?_, Option.any_eq_true]
      · simp only [Bool.and_eq_true, decide_eq_true_eq, Option.mem_def]
      · intro r hr
        have hnot := List.head?_dropWhile_not (fun range : Nat × Nat => decide (range.2 ≤ layout.start sequence)) ranges
        rw [hr] at hnot
        simpa using hnot
    have hrest : ∀ bitmap, (∀ i, sequence < i → bitmapContains bitmap i =
        bitmapContains reused.resume.bitmap i) →
        creditable layout bitmap (ranges.dropWhile fun range => range.2 ≤ layout.start sequence)
          (sequence + 1) n = creditable layout reused.resume.bitmap ranges (sequence + 1) n :=
      fun bitmap hbitmap => creditable_congr fun i hlow hhigh =>
        ⟨hbitmap i (by omega), hholds i (by omega) (by omega)⟩
    have hlen : layout.stop sequence - layout.start sequence ≤ layout.payloadBytes := by
      have hle : layout.stop sequence ≤ layout.start sequence + layout.payloadBytes :=
        Nat.min_le_left _ _
      omega
    split
    next hyes =>
      rw [if_pos ⟨rfl, hcovered.1 hyes⟩]
      have hreceived : saturatingAdd reused.resume.receivedCount 1 = reused.resume.receivedCount + 1 :=
        saturatingAdd_of_lt (by omega)
      have hcredited : saturatingAdd reused.chunks 1 = reused.chunks + 1 :=
        saturatingAdd_of_lt (by omega)
      have hadded : saturatingAdd reused.bytes (layout.stop sequence - layout.start sequence) =
          reused.bytes + (layout.stop sequence - layout.start sequence) :=
        saturatingAdd_of_lt (by omega)
      have hplace : sequence / 64 < reused.resume.bitmap.length := by omega
      refine (ih (by omega) hdropped ?_ ?_ ?_ ?_).trans (congrArg Except.ok ?_)
      · dsimp only
        rw [length_bitmapInsert]
        exact hwords
      · show saturatingAdd reused.resume.receivedCount 1 + n < _
        rw [hreceived]
        omega
      · show saturatingAdd reused.chunks 1 + n < _
        rw [hcredited]
        omega
      · show saturatingAdd reused.bytes (layout.stop sequence - layout.start sequence) + _ < _
        rw [hadded]
        omega
      · have hrest' := hrest (bitmapInsert reused.resume.bitmap sequence) fun i hi => by
          rw [bitmapContains_bitmapInsert hplace, decide_eq_false (Nat.ne_of_gt hi), Bool.false_or]
        change Reused.credit layout ⟨_, saturatingAdd reused.bytes
          (layout.stop sequence - layout.start sequence), _⟩ (creditable _ _ (ranges.dropWhile
            fun range => range.2 ≤ layout.start sequence) _ _) = _
        rw [hadded, hreceived, hcredited, hrest']
        simp only [Reused.credit, List.foldl_cons, List.length_cons, List.map_cons, List.sum_cons,
          Nat.add_assoc, Nat.add_comm 1]
    next hno =>
      rw [if_neg fun hboth => hno (hcovered.2 hboth.2),
        ← hrest reused.resume.bitmap fun _ _ => rfl]
      exact ih (by omega) hdropped hwords (by omega) (by omega) (by omega)

/-! ## What has been credited -/

end PacketTide
