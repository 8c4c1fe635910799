import Mathlib.Tactic.NormNum
import PacketTide.Proofs.CdcProofs

/-!
# The limit of scanned content manifests

The scan reserves one byte too few for the footer. A file whose canonical body has just the length
that the scan still admits has a manifest that no receiver accepts.
-/

namespace PacketTide.Cdc

open Text

/-! ## The length of the text -/

theorem length_lines {size offset : Nat} {chunks : List Chunk} (h : Laid size offset chunks) :
    ((chunks.map chunkText).flatMap (· ++ [newline])).length =
      linesLength offset (chunks.map Chunk.length) := by
  have htag : (ascii "C").length = 1 := by decide
  induction chunks generalizing offset with
  | nil => rfl
  | cons chunk chunks ih =>
    obtain ⟨rfl, -, -, -, hrest⟩ := h
    have hline : (chunkText chunk).length = 2 + (decimal chunk.offset).length + 1 +
        (decimal chunk.length).length + 1 + 64 := by
      have hhash := length_hash chunk.hash
      simp only [chunkText, chunkFields, List.intercalate_cons_cons, List.intercalate_singleton,
        List.length_append, List.length_singleton, htag, hhash]
      omega
    rw [List.map_cons, List.flatMap_cons, List.length_append, List.length_append,
      List.length_singleton, ih hrest, hline, List.map_cons, linesLength]

theorem length_body_of_laid {size : Nat} {chunks : List Chunk} (h : Laid size 0 chunks) :
    (canonicalBody size chunks).length =
      5 + (decimal size).length + 1 + (decimal chunks.length).length + 1 +
        linesLength 0 (chunks.map Chunk.length) := by
  have htag : (ascii "CDC1").length = 4 := by decide
  have hbody := canonicalBody_eq ⟨size, chunks, Vector.replicate 32 0⟩
  dsimp only at hbody
  rw [hbody, List.flatMap_cons, List.length_append, length_lines h]
  simp only [headerFields, List.intercalate_cons_cons, List.intercalate_singleton,
    List.length_append, List.length_singleton, htag]
  omega

theorem length_canonicalBody [Sha256] {content : List UInt8} {m : Manifest}
    (h : Scanned content m) : (canonicalBody m.size m.chunks).length = bodyLength content := by
  have hcount : m.chunks.length = (pieceLengths content).length := by
    rw [← h.lengths, List.length_map]
  rw [length_body_of_laid h.laid, h.lengths, h.size_eq, hcount]
  rfl

/-! ## Receiving -/

theorem readReuseManifest_manifestPayloads [Sha256] {content : List UInt8} {m : Manifest}
    (h : Scanned content m) (hlen : (encode m).length ≤ maxEncodedBytes) :
    readReuseManifest m.size m.chunks.length m.hash (manifestPayloads m) = .ok m := by
  have hcollect : collectLines maxEncodedBytes "content-defined manifest byte limit exceeded"
      (m.chunks.length + 2) [] (manifestPayloads m) = .ok (encode m, [ascii "CHUNKS_END"]) := by
    have htext : ([] ++ (manifestLines m).flatMap (· ++ [newline])).length ≤ maxEncodedBytes := by
      rw [List.nil_append, ← encode_eq]
      exact hlen
    have hlines := collectLines_eq_ok "content-defined manifest byte limit exceeded"
      [ascii "CHUNKS_END"] htext
    rw [length_manifestLines, List.nil_append, ← encode_eq] at hlines
    rw [manifestPayloads, lines_encode]
    exact hlines
  unfold readReuseManifest
  rw [hcollect, check_bind]
  dsimp only
  rw [expectLine_self, check_bind, parse_encode h.canonical hlen, check_bind, refuseIf_of_not (by simp)]
  rfl

/-- A receiver reads just a manifest whose text is within the limit. -/
theorem readReuseManifest_iff [Sha256] {content : List UInt8} {m : Manifest} (h : Scanned content m) :
    readReuseManifest m.size m.chunks.length m.hash (manifestPayloads m) = .ok m ↔
      bodyLength content + 71 ≤ maxEncodedBytes := by
  have hlen := length_encode m
  rw [length_canonicalBody h] at hlen
  constructor
  · intro hread
    obtain ⟨⟨encoded, payloads⟩, hcollect, hread⟩ := except_bind_ok hread
    obtain ⟨_, -, hread⟩ := except_bind_ok hread
    obtain ⟨_, hparse, -⟩ := except_bind_ok hread
    obtain ⟨_, hrefused, -⟩ := except_bind_ok hparse
    have htext := collectLines_ok hcollect
    rw [List.nil_append, manifestPayloads, lines_encode, List.take_left' (length_manifestLines m),
      ← encode_eq] at htext
    have hle := (not_or.1 (refuseIf_ok hrefused)).1
    rw [htext] at hle
    omega
  · intro hbody
    exact readReuseManifest_manifestPayloads h (by omega)

/-- Every line of a manifest fits into a frame. -/
theorem controlPayload_manifestPayloads [Sha256] {content : List UInt8} {m : Manifest} (h : Scanned content m) :
    ∀ p ∈ manifestPayloads m, controlPayload p := by
  have hdecimal : ∀ {n : Nat}, n ≤ m.size → (decimal n).length ≤ 20 := fun {n} hn => by
    have hsize := h.size_lt
    exact length_decimal_le (by omega) (by omega)
  have hframe : maxControlLine / 2 = 32768 := rfl
  have htag : (ascii "CDC1").length = 4 ∧ (ascii "C").length = 1 ∧ (ascii "CHASH").length = 5 := by decide
  intro p hp
  rw [manifestPayloads, lines_encode] at hp
  rcases List.mem_append.1 hp with hp | hp
  · refine ⟨(ofFields_manifestLines hp).newline_not_mem.1, ?_⟩
    rcases List.mem_cons.1 hp with rfl | hp
    · have hcount : (decimal m.chunks.length).length ≤ 20 := by
        have hle := h.count
        have hmax : maxChunks = 1000000 := rfl
        exact length_decimal_le (by omega) (by omega)
      have hsize := hdecimal (Nat.le_refl m.size)
      refine (length_intercalate_space _).trans ?_
      simp only [headerFields, List.map_cons, List.map_nil, List.sum_cons, List.sum_nil, List.length_cons,
        List.length_nil, htag.1]
      omega
    · rcases List.mem_append.1 hp with hp | hp
      · obtain ⟨c, hc, rfl⟩ := List.mem_map.1 hp
        have hin := (h.laid.within c hc).2.2
        have hoffset := hdecimal (n := c.offset) (by omega)
        have hlength := hdecimal (n := c.length) (by omega)
        refine (length_intercalate_space _).trans ?_
        simp only [chunkFields, List.map_cons, List.map_nil, List.sum_cons, List.sum_nil, List.length_cons,
          List.length_nil, htag.2.1, length_hash]
        omega
      · rw [List.mem_singleton.1 hp]
        refine (length_intercalate_space _).trans ?_
        simp only [List.map_cons, List.map_nil, List.sum_cons, List.sum_nil, List.length_cons,
          List.length_nil, htag.2.2, length_hash]
        omega
  · rw [List.mem_singleton.1 hp]
    decide

section Example

/-- The manifest of the empty file. -/
def emptyManifest : Manifest where
  size := 0
  chunks := []
  hash := ⟨#[0x39, 0x6b, 0x96, 0x1e, 0x22, 0xf6, 0x78, 0x12, 0xc6, 0x39, 0x33, 0xe4, 0xee, 0xd1,
    0xf4, 0x9a, 0xda, 0x43, 0xda, 0xaa, 0xd9, 0xa8, 0x69, 0x27, 0x2f, 0xed, 0x37, 0xec, 0xde, 0xe8,
    0xfc, 0x1e], by decide⟩

/-- The digest of the body of the empty file. -/
local instance emptyDigest : Sha256 where
  digest bytes := if bytes = canonicalBody 0 [] then emptyManifest.hash else Vector.replicate 32 0

end Example

/-! ## The low bits of the rolling hash -/

/-- The bits of the rolling hash that decide where a chunk ends. -/
def low (rolling : UInt64) : Nat := rolling.toNat % 65536

theorem low_step (rolling : UInt64) (byte : UInt8) :
    low ((rolling <<< 1) + gear byte) = (2 * low rolling + low (gear byte)) % 65536 := by
  have hone : (1 : UInt64).toNat % 64 = 1 := rfl
  unfold low
  rw [UInt64.toNat_add, UInt64.toNat_shiftLeft, hone, Nat.shiftLeft_eq]
  omega

theorem endsChunk_eq (length : Nat) (rolling : UInt64) :
    endsChunk length rolling =
      (decide (minChunkBytes ≤ length) && (low rolling == 0 || decide (maxChunkBytes ≤ length))) := by
  have hmask : UInt64.ofNat averageChunkBytes - 1 = 65535 := by decide
  have hbits : (rolling &&& 65535 == 0) = (low rolling == 0) := by
    rw [Bool.eq_iff_iff, beq_iff_eq, beq_iff_eq, ← UInt64.toNat_inj, UInt64.toNat_and]
    have hnat : (65535 : UInt64).toNat = 2 ^ 16 - 1 := rfl
    rw [hnat, Nat.and_two_pow_sub_one_eq_mod]
    rfl
  unfold endsChunk
  rw [hmask, hbits]

/-- The rolling hash after some bytes. -/
def rollOver (rolling : UInt64) (bytes : List UInt8) : UInt64 :=
  bytes.foldl (fun r b => (r <<< 1) + gear b) rolling

/-- After sixteen zeros the low bits stay the same. -/
theorem low_zeros (k : Nat) : low (rollOver 0 (List.replicate (16 + k) 0)) = 0x3251 := by
  induction k with
  | zero => decide +kernel
  | succ k ih =>
    have hsnoc : List.replicate (16 + (k + 1)) (0 : UInt8) = List.replicate (16 + k) 0 ++ [0] :=
      List.replicate_succ'
    have hgear : low (gear 0) = 0xcdaf := by decide +kernel
    have hstep := low_step (rollOver 0 (List.replicate (16 + k) 0)) 0
    rw [ih, hgear] at hstep
    rw [hsnoc, rollOver, List.foldl_append]
    exact hstep

/-! ## Pieces of a scan -/

/-- No chunk ends within the bytes. -/
def Quiet (length : Nat) (rolling : UInt64) : List UInt8 → Prop
  | [] => True
  | byte :: bytes =>
    ¬ endsChunk (length + 1) ((rolling <<< 1) + gear byte) ∧
      Quiet (length + 1) ((rolling <<< 1) + gear byte) bytes

theorem quiet_append {length : Nat} {rolling : UInt64} {bytes rest : List UInt8}
    (h : Quiet length rolling bytes)
    (hr : Quiet (length + bytes.length) (rollOver rolling bytes) rest) :
    Quiet length rolling (bytes ++ rest) := by
  induction bytes generalizing length rolling with
  | nil => exact hr
  | cons byte bytes ih =>
    refine ⟨h.1, ih h.2 ?_⟩
    rw [List.length_cons] at hr
    have hlen : length + 1 + bytes.length = length + (bytes.length + 1) := by omega
    rw [hlen]
    exact hr

/-- Bytes that are too few for a chunk. -/
theorem quiet_of_short {length : Nat} {rolling : UInt64} {bytes : List UInt8}
    (h : length + bytes.length < minChunkBytes) : Quiet length rolling bytes := by
  induction bytes generalizing length rolling with
  | nil => trivial
  | cons byte bytes ih =>
    rw [List.length_cons] at h
    refine ⟨fun hend => ?_, ih (by omega)⟩
    have := minChunk_of_endsChunk hend
    omega

theorem rollOver_snoc (rolling : UInt64) (bytes : List UInt8) (byte : UInt8) :
    rollOver rolling (bytes ++ [byte]) = (rollOver rolling bytes <<< 1) + gear byte := by
  rw [rollOver, List.foldl_append, List.foldl_cons, List.foldl_nil]
  rfl

/-- Zeros never end a chunk before its greatest length. -/
theorem quiet_zeros {k n : Nat} (h : 16 + k + n < maxChunkBytes) :
    Quiet (16 + k) (rollOver 0 (List.replicate (16 + k) 0)) (List.replicate n 0) := by
  induction n generalizing k with
  | zero => trivial
  | succ n ih =>
    have hsnoc : List.replicate (16 + (k + 1)) (0 : UInt8) = List.replicate (16 + k) 0 ++ [0] :=
      List.replicate_succ'
    have hroll := rollOver_snoc 0 (List.replicate (16 + k) 0) 0
    rw [← hsnoc] at hroll
    have hnext := ih (k := k + 1) (by omega)
    have hlow := low_zeros (k + 1)
    have hlong : decide (maxChunkBytes ≤ 16 + (k + 1)) = false := decide_eq_false (by omega)
    rw [List.replicate_succ]
    unfold Quiet
    rw [← hroll, Nat.add_assoc]
    refine ⟨?_, hnext⟩
    rw [endsChunk_eq, hlow, hlong]
    simp

theorem scanBytes_quiet [Sha256] {s : Scan} {bytes : List UInt8}
    (h : Quiet s.chunk.length s.rolling bytes) (rest : List UInt8) :
    scanBytes s (bytes ++ rest) =
      scanBytes { s with chunk := s.chunk ++ bytes, rolling := rollOver s.rolling bytes } rest := by
  induction bytes generalizing s with
  | nil =>
    rw [List.nil_append, List.append_nil]
    rfl
  | cons byte bytes ih =>
    have hlen := length_push s byte
    have hpush : (s.push byte).chunk = s.chunk ++ [byte] := rfl
    have hquiet : Quiet (s.push byte).chunk.length (s.push byte).rolling bytes := by
      rw [hlen]
      exact h.2
    have hend : ¬ endsChunk (s.push byte).chunk.length (s.push byte).rolling := by
      rw [hlen]
      exact h.1
    rw [List.cons_append, scanBytes, if_neg hend, ih hquiet, hpush, List.append_assoc,
      List.singleton_append]
    rfl

/-- The bytes of one chunk. -/
structure Piece (bytes : List UInt8) : Prop where
  quiet : ∃ init last, bytes = init ++ [last] ∧ Quiet 0 0 init
  ends : endsChunk bytes.length (rollOver 0 bytes)
  length_lt : bytes.length < 2 ^ 32

/-- The chunks of pieces from an offset on. -/
def chunksFrom [Sha256] : Nat → List (List UInt8) → List Chunk
  | _, [] => []
  | offset, piece :: pieces =>
    ⟨offset, piece.length, Sha256.digest piece⟩ :: chunksFrom (offset + piece.length) pieces

theorem scanBytes_piece [Sha256] {chunks : List Chunk} {offset : Nat} {piece : List UInt8}
    (h : Piece piece) (hcount : chunks.length < maxChunks) (hoffset : offset + piece.length < 2 ^ 64)
    (rest : List UInt8) :
    scanBytes ⟨chunks, offset, [], 0⟩ (piece ++ rest) =
      scanBytes ⟨chunks ++ [⟨offset, piece.length, Sha256.digest piece⟩], offset + piece.length,
        [], 0⟩ rest := by
  obtain ⟨init, last, hpiece, hquiet⟩ := h.quiet
  have hends := h.ends
  have hlt := h.length_lt
  have hlen : piece.length = init.length + 1 := by
    rw [hpiece, List.length_append, List.length_singleton]
  have hroll : rollOver 0 piece = (rollOver 0 init <<< 1) + gear last := by
    rw [hpiece, rollOver_snoc]
  have hpush : pushChunk chunks offset piece =
      .ok (chunks ++ [⟨offset, piece.length, Sha256.digest piece⟩]) := by
    rw [pushChunk, if_neg (by omega), if_neg (by omega)]
  have hend : Scan.endChunk ⟨chunks, offset, piece, rollOver 0 piece⟩ =
      .ok ⟨chunks ++ [⟨offset, piece.length, Sha256.digest piece⟩], offset + piece.length, [], 0⟩ := by
    unfold Scan.endChunk
    dsimp only
    rw [hpush, check_bind, refuseIf_of_not (by omega)]
    rfl
  have hstep : Scan.push ⟨chunks, offset, init, rollOver 0 init⟩ last =
      ⟨chunks, offset, piece, rollOver 0 piece⟩ := by
    rw [hroll, hpiece]
    rfl
  have hstart := scanBytes_quiet (s := ⟨chunks, offset, [], 0⟩) hquiet (last :: rest)
  rw [List.nil_append] at hstart
  have hsplit : piece ++ rest = init ++ last :: rest := by
    rw [hpiece, List.append_assoc, List.singleton_append]
  rw [hsplit, hstart, scanBytes, hstep, if_pos hends, hend]
  rfl

theorem scanBytes_pieces [Sha256] {pieces : List (List UInt8)} (h : ∀ p ∈ pieces, Piece p)
    {chunks : List Chunk} {offset : Nat} (hcount : chunks.length + pieces.length ≤ maxChunks)
    (hoffset : offset + pieces.flatten.length < 2 ^ 64) :
    scanBytes ⟨chunks, offset, [], 0⟩ pieces.flatten =
      .ok ⟨chunks ++ chunksFrom offset pieces, offset + pieces.flatten.length, [], 0⟩ := by
  induction pieces generalizing chunks offset with
  | nil =>
    rw [List.flatten_nil, List.length_nil, Nat.add_zero, chunksFrom, List.append_nil]
    rfl
  | cons piece pieces ih =>
    obtain ⟨hpiece, h⟩ := List.forall_mem_cons.1 h
    rw [List.flatten_cons, List.length_append] at hoffset
    rw [List.length_cons] at hcount
    rw [List.flatten_cons, scanBytes_piece hpiece (by omega) (by omega), ih h, chunksFrom,
      List.append_assoc, List.singleton_append, List.length_append, Nat.add_assoc]
    · rw [List.length_append, List.length_singleton]
      omega
    · omega

theorem length_chunksFrom [Sha256] (offset : Nat) (pieces : List (List UInt8)) :
    (chunksFrom offset pieces).length = pieces.length := by
  induction pieces generalizing offset with
  | nil => rfl
  | cons piece pieces ih => rw [chunksFrom, List.length_cons, ih, List.length_cons]

theorem lengths_chunksFrom [Sha256] (offset : Nat) (pieces : List (List UInt8)) :
    (chunksFrom offset pieces).map Chunk.length = pieces.map List.length := by
  induction pieces generalizing offset with
  | nil => rfl
  | cons piece pieces ih => rw [chunksFrom, List.map_cons, ih, List.map_cons]

/-- A file that consists of pieces is scanned unless its body is too long. -/
theorem scan_pieces [Sha256] {pieces : List (List UInt8)} (h : ∀ p ∈ pieces, Piece p)
    (hcount : pieces.length ≤ maxChunks) (hsize : pieces.flatten.length < 2 ^ 64)
    (hbody : 5 + (decimal pieces.flatten.length).length + 1 + (decimal pieces.length).length + 1 +
      linesLength 0 (pieces.map List.length) ≤ maxEncodedBytes - 70) :
    scan pieces.flatten.length pieces.flatten = .ok ⟨pieces.flatten.length, chunksFrom 0 pieces,
        Sha256.digest (canonicalBody pieces.flatten.length (chunksFrom 0 pieces))⟩ ∧
      bodyLength pieces.flatten = 5 + (decimal pieces.flatten.length).length + 1 +
        (decimal pieces.length).length + 1 + linesLength 0 (pieces.map List.length) := by
  have hbytes : scanBytes {} pieces.flatten =
      .ok ⟨[] ++ chunksFrom 0 pieces, 0 + pieces.flatten.length, [], 0⟩ :=
    scanBytes_pieces h (by simpa using hcount) (by simpa using hsize)
  rw [List.nil_append, Nat.zero_add] at hbytes
  have hstart : Scan.Sound {} := ⟨rfl, by simp, by decide, by decide⟩
  have hsound := (scanBytes_eq_ok hstart (by decide) hbytes).1
  have hlaid : Laid pieces.flatten.length 0 (chunksFrom 0 pieces ++ []) :=
    laid_append hsound.chain hsound.full rfl
  rw [List.append_nil] at hlaid
  have hlen := length_body_of_laid hlaid
  rw [length_chunksFrom, lengths_chunksFrom] at hlen
  have hmax : maxEncodedBytes = 67108864 := rfl
  have hscan : scan pieces.flatten.length pieces.flatten =
      .ok ⟨pieces.flatten.length, chunksFrom 0 pieces,
        Sha256.digest (canonicalBody pieces.flatten.length (chunksFrom 0 pieces))⟩ := by
    unfold scan
    rw [hbytes, check_bind, Scan.finish, if_pos rfl, check_bind]
    dsimp only
    rw [refuseIf_of_not (by simp), check_bind, refuseIf_of_not (by omega), check_bind]
    rfl
  refine ⟨hscan, ?_⟩
  rw [← length_canonicalBody (scanned_of_scan hscan)]
  exact hlen

/-! ## The length of many lines -/

theorem linesLength_append (offset : Nat) (first second : List Nat) :
    linesLength offset (first ++ second) =
      linesLength offset first + linesLength (offset + first.sum) second := by
  induction first generalizing offset with
  | nil => simp [linesLength]
  | cons length first ih =>
    rw [List.cons_append, linesLength, ih, linesLength, List.sum_cons]
    have hsum : offset + length + first.sum = offset + (length + first.sum) := by omega
    rw [hsum]
    omega

/-- Pieces of one length at offsets with equally many digits. -/
theorem linesLength_replicate {offset length e n : Nat} (h : 10 ^ e ≤ offset)
    (h' : offset + n * length < 10 ^ (e + 1) + length) :
    linesLength offset (List.replicate n length) = n * (70 + e + (decimal length).length) := by
  induction n generalizing offset with
  | zero => rw [List.replicate_zero, linesLength, Nat.zero_mul]
  | succ n ih =>
    have hmul : (n + 1) * length = n * length + length := Nat.succ_mul n length
    have hdigits : (decimal offset).length = e + 1 := by
      have hupper := length_decimal_le (n := offset) (k := e + 1) (by omega) (by omega)
      have hlower := le_length_decimal h
      omega
    rw [List.replicate_succ, linesLength, ih (by omega) (by omega), hdigits, Nat.succ_mul]
    omega

theorem linesLength_replicate_add {offset stop length m n total : Nat} (htotal : total = m + n)
    (hstop : stop = offset + m * length) :
    linesLength offset (List.replicate total length) =
      linesLength offset (List.replicate m length) +
        linesLength stop (List.replicate n length) := by
  rw [htotal, hstop, ← List.replicate_append_replicate, linesLength_append, List.sum_replicate_nat]

/-! ## A file at the limit -/

/-- Zeros and two bytes that end a chunk as early as possible. -/
def shortPiece (k : Nat) : List UInt8 := List.replicate (16 + k) 0 ++ [227] ++ [180]

/-- Zeros, which end a chunk as late as possible. -/
def longPiece (k : Nat) : List UInt8 := List.replicate (16 + k) 0 ++ [0]

theorem length_shortPiece (k : Nat) : (shortPiece k).length = 18 + k := by
  rw [shortPiece, List.length_append, List.length_append, List.length_replicate,
    List.length_singleton, List.length_singleton]
  omega

theorem length_longPiece (k : Nat) : (longPiece k).length = 17 + k := by
  rw [longPiece, List.length_append, List.length_replicate, List.length_singleton]
  omega

theorem piece_shortPiece {k : Nat} (h : 18 + k = minChunkBytes) : Piece (shortPiece k) := by
  have hmin : minChunkBytes = 16384 := rfl
  refine ⟨⟨_, _, rfl, quiet_of_short ?_⟩, ?_, by rw [length_shortPiece]; omega⟩
  · rw [List.length_append, List.length_replicate, List.length_singleton]
    omega
  · have hlow : low (rollOver 0 (shortPiece k)) = 0 := by
      rw [shortPiece, rollOver_snoc, low_step, rollOver_snoc, low_step, low_zeros]
      decide +kernel
    rw [endsChunk_eq, hlow, length_shortPiece, h]
    simp

/-- Zeros and any last byte, as many as there may be. -/
theorem piece_of_zeros {k : Nat} (h : 17 + k = maxChunkBytes) (last : UInt8) :
    Piece (List.replicate (16 + k) 0 ++ [last]) := by
  have hmax : maxChunkBytes = 262144 := rfl
  have hmin : minChunkBytes = 16384 := rfl
  have hlen : (List.replicate (16 + k) (0 : UInt8) ++ [last]).length = 17 + k := by
    rw [List.length_append, List.length_replicate, List.length_singleton]
    omega
  refine ⟨⟨_, _, rfl, ?_⟩, ?_, by omega⟩
  · have hzeros : List.replicate (16 + k) (0 : UInt8) = List.replicate 16 0 ++ List.replicate k 0 :=
      List.replicate_append_replicate.symm
    have hquiet := quiet_zeros (k := 0) (n := k) (by omega)
    rw [hzeros]
    refine quiet_append (quiet_of_short ?_) ?_
    · rw [List.length_replicate]
      omega
    · rw [List.length_replicate]
      exact hquiet
  · have hlong : maxChunkBytes ≤ (List.replicate (16 + k) (0 : UInt8) ++ [last]).length := by
      omega
    rw [endsChunk_eq, decide_eq_true hlong, decide_eq_true (Nat.le_trans (by decide) hlong)]
    simp

theorem piece_longPiece {k : Nat} (h : 17 + k = maxChunkBytes) : Piece (longPiece k) :=
  piece_of_zeros h 0

/-- Many short pieces and some long ones. -/
def atLimit (n j : Nat) : List (List UInt8) :=
  List.replicate n (shortPiece 16366) ++ List.replicate j (longPiece 262127)

theorem piece_of_mem_atLimit {n j : Nat} : ∀ p ∈ atLimit n j, Piece p := by
  intro p hp
  rcases List.mem_append.1 hp with hp | hp
  · rw [List.eq_of_mem_replicate hp]
    exact piece_shortPiece rfl
  · rw [List.eq_of_mem_replicate hp]
    exact piece_longPiece rfl

theorem lengths_atLimit (n j : Nat) :
    (atLimit n j).map List.length = List.replicate n 16384 ++ List.replicate j 262144 := by
  rw [atLimit, List.map_append, List.map_replicate, List.map_replicate, length_shortPiece,
    length_longPiece]

theorem length_flatten_atLimit (n j : Nat) :
    (atLimit n j).flatten.length = n * 16384 + j * 262144 := by
  rw [List.length_flatten, lengths_atLimit, List.sum_append, List.sum_replicate_nat,
    List.sum_replicate_nat]

theorem length_atLimit (n j : Nat) : (atLimit n j).length = n + j := by
  rw [atLimit, List.length_append, List.length_replicate, List.length_replicate]

/-- The first of many short pieces, whose offsets have equally many digits. -/
theorem linesLength_short {offset stop e m n total line : Nat} (hlow : 10 ^ e ≤ offset)
    (hhigh : stop < 10 ^ (e + 1) + 16384) (htotal : total = m + n)
    (hstop : stop = offset + m * 16384) (hline : line = 75 + e) :
    linesLength offset (List.replicate total 16384) =
      m * line + linesLength stop (List.replicate n 16384) := by
  subst hline
  have hdigits : (decimal 16384).length = 5 := by decide
  have hlength : 70 + e + 5 = 75 + e := by omega
  rw [linesLength_replicate_add htotal hstop, linesLength_replicate hlow (by omega), hdigits, hlength]

/-- The lines of the short pieces of the file, by the number of digits of their offsets. -/
theorem linesLength_shortPieces : linesLength 0 (List.replicate 797452 16384) = 67105244 := by
  have hone : linesLength 0 (List.replicate 1 16384) = 75 := by decide
  have hzero : linesLength 0 (List.replicate 797452 16384) =
      linesLength 0 (List.replicate 1 16384) + linesLength 16384 (List.replicate 797451 16384) :=
    linesLength_replicate_add rfl rfl
  have h4 : linesLength 16384 (List.replicate 797451 16384) =
      6 * 79 + linesLength 114688 (List.replicate 797445 16384) :=
    linesLength_short (e := 4) (by norm_num) (by norm_num) rfl rfl rfl
  have h5 : linesLength 114688 (List.replicate 797445 16384) =
      55 * 80 + linesLength 1015808 (List.replicate 797390 16384) :=
    linesLength_short (e := 5) (by norm_num) (by norm_num) rfl rfl rfl
  have h6 : linesLength 1015808 (List.replicate 797390 16384) =
      549 * 81 + linesLength 10010624 (List.replicate 796841 16384) :=
    linesLength_short (e := 6) (by norm_num) (by norm_num) rfl rfl rfl
  have h7 : linesLength 10010624 (List.replicate 796841 16384) =
      5493 * 82 + linesLength 100007936 (List.replicate 791348 16384) :=
    linesLength_short (e := 7) (by norm_num) (by norm_num) rfl rfl rfl
  have h8 : linesLength 100007936 (List.replicate 791348 16384) =
      54932 * 83 + linesLength 1000013824 (List.replicate 736416 16384) :=
    linesLength_short (e := 8) (by norm_num) (by norm_num) rfl rfl rfl
  have h9 : linesLength 1000013824 (List.replicate 736416 16384) =
      549316 * 84 + linesLength 10000007168 (List.replicate 187100 16384) :=
    linesLength_short (e := 9) (by norm_num) (by norm_num) rfl rfl rfl
  have h10 : linesLength 10000007168 (List.replicate 187100 16384) =
      187100 * 85 + linesLength 13065453568 (List.replicate 0 16384) :=
    linesLength_short (e := 10) (by norm_num) (by norm_num) rfl rfl rfl
  have hend : linesLength 13065453568 (List.replicate 0 16384) = 0 := rfl
  omega

/-- The lines of the long pieces of the file. -/
theorem linesLength_longPieces :
    linesLength 13065453568 (List.replicate 41 262144) = 3526 := by
  have hdigits : (decimal 262144).length = 6 := by decide
  have hlow : 10 ^ 10 ≤ 13065453568 := by norm_num
  have hhigh : 13065453568 + 41 * 262144 < 10 ^ (10 + 1) + 262144 := by norm_num
  rw [linesLength_replicate hlow hhigh, hdigits]

theorem linesLength_atLimit :
    linesLength 0 (List.replicate 797452 16384 ++ List.replicate 41 262144) = 67108770 := by
  have hsum : (List.replicate 797452 16384).sum = 13065453568 := List.sum_replicate_nat
  rw [linesLength_append, hsum, linesLength_shortPieces, Nat.zero_add, linesLength_longPieces]

/-- A file of 13076201472 bytes whose manifest is scanned but not parsed. -/
theorem scan_atLimit [Sha256] :
    ∃ m, scan (atLimit 797452 41).flatten.length (atLimit 797452 41).flatten = .ok m ∧
      bodyLength (atLimit 797452 41).flatten = maxEncodedBytes - 70 := by
  have hsize := length_flatten_atLimit 797452 41
  have hcount := length_atLimit 797452 41
  have hdigits : (decimal 13076201472).length = 11 := by decide
  have hnumber : (decimal 797493).length = 6 := by decide
  have hmax : maxChunks = 1000000 := rfl
  have hbody : 5 + (decimal (atLimit 797452 41).flatten.length).length + 1 +
      (decimal (atLimit 797452 41).length).length + 1 +
        linesLength 0 ((atLimit 797452 41).map List.length) = maxEncodedBytes - 70 := by
    rw [hsize, hcount, lengths_atLimit, linesLength_atLimit, hdigits, hnumber]
    rfl
  obtain ⟨hscan, hlength⟩ := scan_pieces piece_of_mem_atLimit (by omega) (by omega) hbody.le
  exact ⟨_, hscan, hlength.trans hbody⟩

end PacketTide.Cdc
