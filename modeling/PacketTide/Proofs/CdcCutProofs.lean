import PacketTide.Proofs.ScanProofs

/-!
# Content alone decides where a scan cuts

The chunks of a scan are the pieces of a cutter with a rolling hash. So they do not depend on the buffers
in which a file is read, and behind a boundary not on what stands before it either.
-/

namespace PacketTide.Cdc

open Text Cutting

/-! ## Buffers -/

theorem scanBytes_append [Sha256] (s : Scan) (first second : List UInt8) :
    scanBytes s (first ++ second) = scanBytes s first >>= fun t => scanBytes t second := by
  induction first generalizing s with
  | nil => rfl
  | cons byte first ih =>
    rw [List.cons_append, scanBytes, scanBytes]
    split
    · rw [bind_assoc]
      exact bind_congr fun t => ih t
    · exact ih _

theorem scanBuffers_eq [Sha256] (s : Scan) (buffers : List (List UInt8)) :
    scanBuffers s buffers = scanBytes s buffers.flatten := by
  induction buffers generalizing s with
  | nil => rfl
  | cons buffer buffers ih =>
    rw [scanBuffers, List.flatten_cons, scanBytes_append]
    exact bind_congr fun t => ih t

theorem scanReads_eq [Sha256] (metadataLen : Nat) (buffers : List (List UInt8)) :
    scanReads metadataLen buffers = scan metadataLen buffers.flatten := by
  rw [scanReads, scanBuffers_eq]
  rfl

/-! ## Pieces -/

/-- The chunks of a scan are the pieces of its content. -/
theorem chunks_of_scanBytes [Sha256] {s t u : Scan} {bytes : List UInt8} (ht : scanBytes s bytes = .ok t)
    (hu : t.finish = .ok u) :
    u.chunks = s.chunks ++ chunksFrom s.offset (cutter.piecesFrom (s.chunk.length, s.rolling) s.chunk bytes) := by
  induction bytes generalizing s with
  | nil =>
    cases ht
    rw [Cutter.piecesFrom]
    unfold Scan.finish at hu
    split at hu
    next hnone =>
      cases hu
      rw [hnone]
      exact (List.append_nil _).symm
    next hsome =>
      obtain ⟨-, -, rfl⟩ := endChunk_eq_ok hu
      rw [if_neg (by rwa [List.isEmpty_iff])]
      rfl
  | cons byte bytes ih =>
    have hstep : cutter.step (s.chunk.length, s.rolling) byte = ((s.push byte).chunk.length, (s.push byte).rolling) := by
      rw [length_push]
      rfl
    have hends : cutter.ends ((s.push byte).chunk.length, (s.push byte).rolling) =
        endsChunk (s.push byte).chunk.length (s.push byte).rolling := rfl
    rw [scanBytes] at ht
    rw [Cutter.piecesFrom, hstep, hends]
    split at ht
    next hend =>
      obtain ⟨v, hv, ht⟩ := except_bind_ok ht
      obtain ⟨-, -, rfl⟩ := endChunk_eq_ok hv
      rw [if_pos hend, ih ht, chunksFrom]
      show s.chunks ++ [_] ++ _ = s.chunks ++ (_ :: _)
      rw [List.append_assoc]
      rfl
    next hend =>
      rw [if_neg hend]
      exact ih ht

theorem chunks_of_scan [Sha256] {metadataLen : Nat} {content : List UInt8} {m : Manifest}
    (h : scan metadataLen content = .ok m) : m.chunks = chunksFrom 0 (cutter.pieces content) := by
  obtain ⟨s, hs, h⟩ := except_bind_ok h
  obtain ⟨t, ht, h⟩ := except_bind_ok h
  obtain ⟨_, -, h⟩ := except_bind_ok h
  obtain ⟨_, -, h⟩ := except_bind_ok h
  cases h
  exact chunks_of_scanBytes hs ht

/-! ## Partition -/

theorem chunksFrom_append [Sha256] (offset : Nat) (first second : List (List UInt8)) :
    chunksFrom offset (first ++ second) =
      chunksFrom offset first ++ chunksFrom (offset + first.flatten.length) second := by
  induction first generalizing offset with
  | nil => rfl
  | cons piece first ih =>
    rw [List.cons_append, chunksFrom, ih, chunksFrom, List.cons_append, List.flatten_cons, List.length_append,
      Nat.add_assoc]

/-- Where the chunks of pieces are split, the pieces are split. -/
theorem pieces_of_chunksFrom [Sha256] {offset : Nat} {pieces : List (List UInt8)} {before after : List Chunk}
    (h : chunksFrom offset pieces = before ++ after) :
    ∃ done rest, pieces = done ++ rest ∧ before = chunksFrom offset done ∧
      after = chunksFrom (offset + done.flatten.length) rest := by
  have hlen := congrArg List.length h
  rw [length_chunksFrom, List.length_append] at hlen
  have hdone : (pieces.take before.length).length = before.length := by
    rw [List.length_take]
    omega
  have hsplit := chunksFrom_append offset (pieces.take before.length) (pieces.drop before.length)
  rw [List.take_append_drop, h] at hsplit
  obtain ⟨hbefore, hafter⟩ := List.append_inj hsplit (by rw [length_chunksFrom, hdone])
  exact ⟨_, _, (List.take_append_drop _ _).symm, hbefore, hafter⟩

theorem sum_lengths_chunksFrom [Sha256] (offset : Nat) (pieces : List (List UInt8)) :
    ((chunksFrom offset pieces).map Chunk.length).sum = pieces.flatten.length := by
  rw [lengths_chunksFrom, List.length_flatten]

theorem bytes_chunksFrom [Sha256] (before : List UInt8) (pieces : List (List UInt8)) :
    (chunksFrom before.length pieces).map (fun chunk => chunk.bytes (before ++ pieces.flatten)) = pieces := by
  induction pieces generalizing before with
  | nil => rfl
  | cons piece pieces ih =>
    have hrest := ih (before ++ piece)
    rw [List.length_append, List.append_assoc] at hrest
    rw [chunksFrom, List.map_cons, List.flatten_cons, hrest, Chunk.bytes]
    dsimp only
    rw [List.drop_left, List.take_left]

theorem Laid.length_le {size offset : Nat} {chunks : List Chunk} (h : Laid size offset chunks) :
    ∀ chunk ∈ chunks, chunk.length ≤ maxChunkBytes := by
  induction chunks generalizing offset with
  | nil => exact fun _ hc => (nomatch hc)
  | cons chunk chunks ih => exact List.forall_mem_cons.2 ⟨h.2.2.1, ih h.2.2.2.2⟩

/-- Only the last chunk may be short. -/
theorem Laid.full_of_append {size offset : Nat} {before after : List Chunk} {chunk : Chunk}
    (h : Laid size offset (before ++ chunk :: after)) (hafter : after ≠ []) : minChunkBytes ≤ chunk.length := by
  induction before generalizing offset with
  | nil =>
    obtain ⟨-, -, -, hfull, hrest⟩ := h
    refine hfull.resolve_right fun hend => ?_
    obtain ⟨next, after, rfl⟩ := List.exists_cons_of_ne_nil hafter
    obtain ⟨-, hpos, hin⟩ := hrest.within next List.mem_cons_self
    have hoffset : next.offset = offset + chunk.length := hrest.1
    omega
  | cons first before ih => exact ih h.2.2.2.2

theorem partitions_of_scan [Sha256] {metadataLen : Nat} {content : List UInt8} {m : Manifest}
    (h : scan metadataLen content = .ok m) : Partitions content m := by
  have hscanned := scanned_of_scan h
  have hchunks := chunks_of_scan h
  have hbytes : m.chunks.map (fun chunk => chunk.bytes content) = cutter.pieces content := by
    have hall := bytes_chunksFrom [] (cutter.pieces content)
    rwa [List.nil_append, Cutter.flatten_pieces, List.length_nil, ← hchunks] at hall
  refine ⟨hscanned.size_eq, ?_, fun before chunk after hsplit => ?_, fun chunk hchunk => ?_,
    fun before chunk after hsplit hafter => ?_, fun chunk hchunk => (hashes_of_scan h chunk hchunk).2⟩
  · rw [hbytes, Cutter.flatten_pieces]
  · obtain ⟨done, rest, -, hbefore, hafter⟩ := pieces_of_chunksFrom (hchunks.symm.trans hsplit)
    rcases rest with _ | ⟨piece, rest⟩
    · cases hafter
    · rw [chunksFrom] at hafter
      rw [(List.cons.inj hafter).1, hbefore, sum_lengths_chunksFrom]
      exact Nat.zero_add _
  · have hin := (hashes_of_scan h chunk hchunk).1
    obtain ⟨-, hpos, -⟩ := hscanned.laid.within chunk hchunk
    refine ⟨?_, hpos, hscanned.laid.length_le chunk hchunk⟩
    rw [Chunk.bytes, List.length_take, List.length_drop]
    omega
  · have hlaid := hscanned.laid
    rw [hsplit] at hlaid
    exact hlaid.full_of_append hafter

/-! ## Boundaries -/

section

variable {offset : Nat} {pieces : List (List UInt8)}

theorem signatures_chunksFrom [Sha256] :
    (chunksFrom offset pieces).map (fun chunk => (chunk.length, chunk.hash)) =
      pieces.map fun piece => (piece.length, Sha256.digest piece) := by
  induction pieces generalizing offset with
  | nil => rfl
  | cons piece pieces ih => rw [chunksFrom, List.map_cons, ih, List.map_cons]

theorem le_offset_chunksFrom [Sha256] : ∀ chunk ∈ chunksFrom offset pieces, offset ≤ chunk.offset := by
  induction pieces generalizing offset with
  | nil => exact fun _ hc => (nomatch hc)
  | cons piece pieces ih =>
    exact List.forall_mem_cons.2 ⟨Nat.le_refl _, fun chunk hchunk =>
      (Nat.le_add_right _ _).trans (ih chunk hchunk)⟩

theorem end_le_chunksFrom [Sha256] :
    ∀ chunk ∈ chunksFrom offset pieces, chunk.offset + chunk.length ≤ offset + pieces.flatten.length := by
  induction pieces generalizing offset with
  | nil => exact fun _ hc => (nomatch hc)
  | cons piece pieces ih =>
    rw [List.flatten_cons, List.length_append, ← Nat.add_assoc]
    exact List.forall_mem_cons.2 ⟨Nat.le_add_right _ _, ih⟩

end

/-- Behind a boundary a scan finds what it finds in the rest alone. -/
theorem signaturesFrom_boundary [Sha256] {metadataLen : Nat} {before behind : List UInt8} {m : Manifest}
    (h : scan metadataLen (before ++ behind) = .ok m) (hb : Boundary m before.length) :
    signaturesFrom m before.length =
      (cutter.pieces behind).map fun piece => (piece.length, Sha256.digest piece) := by
  have hlaid := (scanned_of_scan h).laid
  have hchunks := chunks_of_scan h
  -- the pieces up to the boundary make up what stands before it
  obtain ⟨done, rest, hpieces, hlength, hmore⟩ : ∃ done rest, cutter.pieces (before ++ behind) = done ++ rest ∧
      done.flatten.length = before.length ∧ (done = [] ∨ rest ≠ []) := by
    rcases hb with hzero | ⟨first, chunk, after, hsplit, hafter, hend⟩
    · exact ⟨[], _, rfl, hzero.symm, .inl rfl⟩
    · have happend : m.chunks = (first ++ [chunk]) ++ after := by
        rw [hsplit, List.append_assoc, List.singleton_append]
      obtain ⟨done, rest, hpieces, hdone, hrest⟩ := pieces_of_chunksFrom (hchunks.symm.trans happend)
      refine ⟨done, rest, hpieces, ?_, .inr fun hnil => hafter ?_⟩
      · have hoffset := (partitions_of_scan h).offset first chunk after hsplit
        have hsum := sum_lengths_chunksFrom 0 done
        rw [← hdone, List.map_append, List.sum_append] at hsum
        rw [← hend, hoffset, ← hsum]
        simp
      · rw [hrest, hnil]
        rfl
  have hbefore : done.flatten = before := by
    have hall : (cutter.pieces (before ++ behind)).flatten = before ++ behind := Cutter.flatten_pieces
    rw [hpieces, List.flatten_append] at hall
    exact (List.append_inj hall hlength).1
  have hrest := Cutter.pieces_behind hmore hpieces hbefore
  rw [hpieces, hrest, chunksFrom_append, Nat.zero_add, hlength] at hchunks
  rw [signaturesFrom, hchunks, List.filter_append, List.filter_eq_nil_iff.2 ?_, List.nil_append,
    List.filter_eq_self.2 ?_, signatures_chunksFrom]
  · intro chunk hchunk
    exact decide_eq_true (le_offset_chunksFrom chunk hchunk)
  · intro chunk hchunk
    have hpos := (hlaid.within chunk (hchunks ▸ List.mem_append_left _ hchunk)).2.1
    have hle := end_le_chunksFrom chunk hchunk
    rw [hlength] at hle
    simp only [decide_eq_true_eq]
    omega

/-- The chunks of a scan depend on the content alone, they are its parts, and behind a boundary they do
not depend on what stands before it. -/
theorem scan_content_only [Sha256] :
    (∀ (metadataLen : Nat) (buffers : List (List UInt8)),
      scanReads metadataLen buffers = scan metadataLen buffers.flatten) ∧
    (∀ (metadataLen : Nat) (content : List UInt8) (m : Manifest),
      scan metadataLen content = .ok m → Partitions content m) ∧
    ∀ (a b s : List UInt8) (lenA lenB : Nat) (m n : Manifest), scan lenA (a ++ s) = .ok m →
      scan lenB (b ++ s) = .ok n → Boundary m a.length → Boundary n b.length →
        signaturesFrom m a.length = signaturesFrom n b.length :=
  ⟨scanReads_eq, fun _ _ _ => partitions_of_scan, fun _ _ _ _ _ _ _ hm hn ha hb =>
    (signaturesFrom_boundary hm ha).trans (signaturesFrom_boundary hn hb).symm⟩

end PacketTide.Cdc
