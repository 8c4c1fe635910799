import PacketTide.Proofs.CdcLimitProofs
import PacketTide.Proofs.HelloProofs
import PacketTide.ReuseRuns

/-!
# What a scan accepts

A file is scanned just if its pieces are not too many and the text of their manifest is not too long. The
chunks of a scan carry the hashes of their bytes.
-/

namespace PacketTide.Cdc

open Text

/-! ## Layout -/

/-- The chunks of a layout begin one after the other. -/
theorem Laid.sorted {size offset : Nat} {chunks : List Chunk} (h : Laid size offset chunks) :
    chunks.Pairwise fun a b => a.offset ≤ b.offset := by
  induction chunks generalizing offset with
  | nil => exact List.Pairwise.nil
  | cons chunk chunks ih =>
    obtain ⟨hoffset, -, -, -, hrest⟩ := h
    refine List.pairwise_cons.2 ⟨fun c hc => ?_, ih hrest⟩
    rw [hoffset]
    exact (Nat.le_add_right _ _).trans (hrest.within c hc).1

/-- The chunks that are read off lines are laid out. -/
theorem laid_of_parseChunks {size n offset : Nat} {chunks : List Chunk} {lines rest : List Str}
    (h : parseChunks size n offset lines = .ok (chunks, size, rest)) : Laid size offset chunks := by
  induction n generalizing offset chunks lines with
  | zero =>
    cases h
    rfl
  | succ n ih =>
    rcases lines with _ | ⟨line, lines⟩
    · cases h
    rw [parseChunks] at h
    split at h
    next tag first length hash hfields =>
      obtain ⟨_, -, h⟩ := except_bind_ok h
      obtain ⟨first, -, h⟩ := except_bind_ok h
      obtain ⟨length, -, h⟩ := except_bind_ok h
      obtain ⟨_, -, h⟩ := except_bind_ok h
      obtain ⟨_, hlayout, h⟩ := except_bind_ok h
      obtain ⟨_, -, h⟩ := except_bind_ok h
      obtain ⟨hash, -, h⟩ := except_bind_ok h
      obtain ⟨⟨chunks', stop', rest'⟩, hchunks, h⟩ := except_bind_ok h
      cases h
      have hrefused := refuseIf_ok hlayout
      have hfirst : first = offset := by omega
      rw [hfirst] at hchunks hrefused
      refine ⟨hfirst, ?_, ?_, ?_, ih hchunks⟩
      · show 0 < length
        omega
      · show length ≤ maxChunkBytes
        omega
      · show minChunkBytes ≤ length ∨ offset + length = size
        omega
    next => cases h

theorem laid_of_readReuseManifest [Sha256] {size count : Nat} {hash : Hash} {payloads : List Str}
    {m : Manifest} (h : readReuseManifest size count hash payloads = .ok m) : Laid size 0 m.chunks := by
  obtain ⟨⟨encoded, payloads'⟩, -, h⟩ := except_bind_ok h
  obtain ⟨_, -, h⟩ := except_bind_ok h
  obtain ⟨manifest, hparse, h⟩ := except_bind_ok h
  obtain ⟨_, hfits, h⟩ := except_bind_ok h
  cases h
  have hsize : m.size = size := not_not.1 (not_or.1 (refuseIf_ok hfits)).1
  obtain ⟨_, -, hparse⟩ := except_bind_ok hparse
  split at hparse
  · cases hparse
  next header rest _ =>
    obtain ⟨⟨size', count'⟩, -, hparse⟩ := except_bind_ok hparse
    obtain ⟨_, -, hparse⟩ := except_bind_ok hparse
    obtain ⟨⟨chunks, stop, last⟩, hchunks, hparse⟩ := except_bind_ok hparse
    obtain ⟨_, hcover, hparse⟩ := except_bind_ok hparse
    obtain ⟨_, -, hparse⟩ := except_bind_ok hparse
    obtain ⟨_, -, hparse⟩ := except_bind_ok hparse
    cases hparse
    have hstop : stop = size' := not_not.1 (not_or.1 (refuseIf_ok hcover)).1
    rw [hstop] at hchunks
    exact hsize ▸ laid_of_parseChunks hchunks

/-! ## Hashes -/

/-- A scan so far: what is left to read, and the hashes of the chunks. -/
structure Scan.Hashed [Sha256] (content : List UInt8) (s : Scan) (rest : List UInt8) : Prop where
  left : content.drop s.offset = s.chunk ++ rest
  hashes : ∀ c ∈ s.chunks, c.hash = Sha256.digest (c.bytes content)

theorem Scan.Hashed.end [Sha256] {content rest : List UInt8} {s t : Scan} (h : s.Hashed content rest)
    (ht : s.endChunk = .ok t) : t.Hashed content rest := by
  obtain ⟨-, -, rfl⟩ := endChunk_eq_ok ht
  refine ⟨?_, fun c hc => ?_⟩
  · show content.drop (s.offset + s.chunk.length) = rest
    rw [← List.drop_drop, h.left, List.drop_left]
  · rcases List.mem_append.1 hc with hc | hc
    · exact h.hashes c hc
    · rw [List.mem_singleton.1 hc, Chunk.bytes]
      dsimp only
      rw [h.left, List.take_left]

theorem Scan.Hashed.scan [Sha256] {content rest : List UInt8} {s t : Scan} (h : s.Hashed content rest)
    (ht : scanBytes s rest = .ok t) : t.Hashed content [] := by
  induction rest generalizing s with
  | nil =>
    cases ht
    exact h
  | cons byte rest ih =>
    have hpush : (s.push byte).Hashed content rest := by
      refine ⟨?_, h.hashes⟩
      show content.drop s.offset = s.chunk ++ [byte] ++ rest
      rw [h.left, List.append_assoc]
      rfl
    rw [scanBytes] at ht
    split at ht
    · obtain ⟨u, hu, ht⟩ := except_bind_ok ht
      exact ih (hpush.end hu) ht
    · exact ih hpush ht

/-- The chunks of a scan lie in the file and carry the hashes of their bytes. -/
theorem hashes_of_scan [Sha256] {metadataLen : Nat} {content : List UInt8} {m : Manifest}
    (h : scan metadataLen content = .ok m) :
    ∀ c ∈ m.chunks, c.offset + c.length ≤ content.length ∧ c.hash = Sha256.digest (c.bytes content) := by
  have hscanned := scanned_of_scan h
  obtain ⟨s, hscan, h⟩ := except_bind_ok h
  obtain ⟨t, ht, h⟩ := except_bind_ok h
  obtain ⟨_, -, h⟩ := except_bind_ok h
  obtain ⟨_, -, h⟩ := except_bind_ok h
  cases h
  have hstart : Scan.Hashed content {} content := ⟨rfl, fun _ hc => (nomatch hc)⟩
  have hs := hstart.scan hscan
  have hhashed : ∀ c ∈ t.chunks, c.hash = Sha256.digest (c.bytes content) := by
    unfold Scan.finish at ht
    split at ht
    · cases ht
      exact hs.hashes
    · exact (hs.end ht).hashes
  intro c hc
  obtain ⟨-, -, hle⟩ := hscanned.laid.within c hc
  exact ⟨hscanned.size_eq ▸ hle, hhashed c hc⟩

/-! ## Success -/

theorem chain_offset_le {offset stop : Nat} {chunks : List Chunk} (h : Chain offset chunks stop)
    (hfull : ∀ c ∈ chunks, Full c) : stop ≤ offset + chunks.length * maxChunkBytes := by
  induction chunks generalizing offset with
  | nil =>
    cases h
    exact Nat.le_add_right _ _
  | cons chunk chunks ih =>
    obtain ⟨hchunk, hfull⟩ := List.forall_mem_cons.1 hfull
    have hrest := ih h.2 hfull
    have hlen := hchunk.2
    rw [List.length_cons, Nat.succ_mul]
    omega

theorem endChunk_ok [Sha256] {s : Scan} (hs : s.Sound) (hlen : s.chunk.length ≤ maxChunkBytes)
    (hcount : s.chunks.length < maxChunks) : ∃ t, s.endChunk = .ok t := by
  have hoffset := chain_offset_le hs.chain hs.full
  have hmul : s.chunks.length * maxChunkBytes ≤ maxChunks * maxChunkBytes :=
    Nat.mul_le_mul_right _ hcount.le
  have hmax : maxChunks * maxChunkBytes + maxChunkBytes < 2 ^ 64 := by decide
  have hbound : maxChunkBytes < 2 ^ 32 := by decide
  refine ⟨⟨s.chunks ++ [⟨s.offset, s.chunk.length, Sha256.digest s.chunk⟩],
    s.offset + s.chunk.length, [], 0⟩, ?_⟩
  rw [Scan.endChunk, pushChunk, if_neg (by omega), if_neg (by omega), check_bind,
    refuseIf_of_not (by omega)]
  rfl

theorem scanBytes_ok [Sha256] {s : Scan} {bytes : List UInt8} (hs : s.Sound)
    (hlen : s.chunk.length < maxChunkBytes)
    (hcount : s.chunks.length + (pieceLengthsFrom s.chunk.length s.rolling bytes).length ≤ maxChunks) :
    ∃ t, scanBytes s bytes = .ok t := by
  induction bytes generalizing s with
  | nil => exact ⟨s, rfl⟩
  | cons byte bytes ih =>
    have hpushed := length_push s byte
    have hroll : (s.push byte).rolling = (s.rolling <<< 1) + gear byte := rfl
    have hchunks : (s.push byte).chunks = s.chunks := rfl
    rw [scanBytes]
    rw [pieceLengthsFrom] at hcount
    rw [hpushed, hroll]
    split at hcount
    next hend =>
      rw [if_pos hend]
      rw [List.length_cons] at hcount
      obtain ⟨t, ht⟩ := endChunk_ok (hs.push byte) (by omega) (by rw [hchunks]; omega)
      have ht' := ht
      obtain ⟨-, -, rfl⟩ := endChunk_eq_ok ht'
      have hsound := (hs.push byte).end (by have := minChunk_of_endsChunk hend; omega) (by omega) ht
      rw [ht, check_bind]
      have hempty : ([] : List UInt8).length < maxChunkBytes := by decide
      refine ih hsound hempty ?_
      rw [List.length_append, List.length_singleton, hchunks]
      show s.chunks.length + 1 + (pieceLengthsFrom 0 0 bytes).length ≤ maxChunks
      omega
    next hend =>
      rw [if_neg hend]
      refine ih (hs.push byte) ?_ ?_
      · rw [hpushed]
        exact lt_maxChunk_of_not_endsChunk hend
      · rw [hpushed, hroll, hchunks]
        exact hcount

/-- A file of not too many pieces of which the manifest is not too long. -/
def Scannable (content : List UInt8) : Prop :=
  (pieceLengths content).length ≤ maxChunks ∧ bodyLength content + 70 ≤ maxEncodedBytes

theorem scan_ok_iff [Sha256] {content : List UInt8} :
    (∃ m, scan content.length content = .ok m) ↔ Scannable content := by
  constructor
  · rintro ⟨m, h⟩
    have hscanned := scanned_of_scan h
    have hbody := hscanned.body_le
    rw [length_canonicalBody hscanned] at hbody
    refine ⟨?_, hbody⟩
    rw [← hscanned.lengths, List.length_map]
    exact hscanned.count
  · rintro ⟨hcount, hbody⟩
    have hstart : Scan.Sound {} := ⟨rfl, by simp, by decide, by decide⟩
    obtain ⟨s, hs⟩ := @scanBytes_ok _ _ content hstart (by decide)
        ((Nat.zero_add _).trans_le hcount)
    obtain ⟨t, ht⟩ : ∃ t, s.finish = .ok t := by
      obtain ⟨hsound, hlt, -, hlengths⟩ := scanBytes_eq_ok hstart (by decide) hs
      unfold Scan.finish
      split
      · exact ⟨s, rfl⟩
      next hne =>
        have hpos := List.length_pos_iff.2 hne
        have htotal := congrArg List.length hlengths
        rw [Scan.lengths, if_neg (by omega), List.length_append, List.length_map,
          List.length_singleton] at htotal
        change s.chunks.length + 1 = (pieceLengths content).length at htotal
        exact endChunk_ok hsound hlt.le (by omega)
    obtain ⟨hoffset, hlt, hchunks, hlaid, hlengths⟩ := finish_eq_ok hs ht
    have htext : (canonicalBody t.offset t.chunks).length = bodyLength content := by
      rw [length_body_of_laid hlaid, hlengths, hoffset, ← List.length_map (f := Chunk.length), hlengths]
      rfl
    refine ⟨⟨t.offset, t.chunks, Sha256.digest (canonicalBody t.offset t.chunks)⟩, ?_⟩
    rw [scan, hs, check_bind, ht, check_bind, refuseIf_of_not (not_not.2 hoffset), check_bind]
    dsimp only
    rw [refuseIf_of_not (by omega), check_bind]
    rfl

end PacketTide.Cdc
