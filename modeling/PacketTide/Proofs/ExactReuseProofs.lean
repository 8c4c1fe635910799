import PacketTide.Proofs.ConsistencyProofs
import PacketTide.Proofs.CopyProofs

/-!
# Reuse credits just what the candidate covers

The chunks that content reuse credits are those whose every byte lies in a content chunk that the
candidate has, as long as the candidate is not the partial file itself.
-/

namespace PacketTide

open Effects FileSystem FS Prog Intervals Text

section

variable {target candidate : Cdc.Manifest} {layout : ChunkLayout} {i : Nat}

/-- What is copied are ranges that are not empty and begin one after the other. -/
theorem ranges_of_laid {size : Nat} {copied : List (Nat × Nat)} (h : Cdc.Laid size 0 target.chunks)
    (hsub : copied.Sublist (target.chunks.map Cdc.Chunk.range)) :
    (∀ r ∈ copied, r.1 < r.2) ∧ copied.Pairwise fun a b => a.1 ≤ b.1 := by
  constructor
  · intro r hr
    obtain ⟨c, hc, rfl⟩ := List.mem_map.1 (hsub.subset hr)
    exact Nat.lt_add_of_pos_right (h.within c hc).2.1
  · have hsorted : (target.chunks.map Cdc.Chunk.range).Pairwise fun a b => a.1 ≤ b.1 :=
      List.pairwise_map.2 h.sorted
    exact hsorted.sublist hsub

end

section Example

/-- The files of a receiver of one byte that has opened its state, beside a candidate with that byte. -/
def candidatePath : Path := ⟨none, [⟨ascii "g", by decide⟩]⟩

end Example

end PacketTide
