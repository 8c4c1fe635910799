import PacketTide.Cdc
import PacketTide.Proofs.RoundTripProofs

/-!
# Scanned content manifests

What a scan returns is laid out as parsing requires it. Its text is parsed again if it is within the
limit, which the scan computes for a footer that is one byte shorter than the one that is written.
-/

namespace PacketTide.Cdc

open Text

/-! ## Scans -/

/-- Chunks that follow each other without gaps from an offset to another. -/
def Chain : Nat → List Chunk → Nat → Prop
  | offset, [], stop => offset = stop
  | offset, chunk :: chunks, stop =>
    chunk.offset = offset ∧ Chain (offset + chunk.length) chunks stop

/-- A chunk that need not be the last one. -/
def Full (chunk : Chunk) : Prop := minChunkBytes ≤ chunk.length ∧ chunk.length ≤ maxChunkBytes

theorem chain_snoc {offset stop : Nat} {chunks : List Chunk} {chunk : Chunk}
    (h : Chain offset chunks stop) (hc : chunk.offset = stop) :
    Chain offset (chunks ++ [chunk]) (stop + chunk.length) := by
  induction chunks generalizing offset with
  | nil =>
    cases h
    exact ⟨hc, rfl⟩
  | cons first chunks ih => exact ⟨h.1, ih h.2⟩

theorem pushChunk_eq_ok [Sha256] {chunks result : List Chunk} {offset : Nat} {bytes : List UInt8}
    (h : pushChunk chunks offset bytes = .ok result) :
    chunks.length < maxChunks ∧ result = chunks ++ [⟨offset, bytes.length, Sha256.digest bytes⟩] := by
  unfold pushChunk at h
  split_ifs at h with h1 h2
  cases h
  exact ⟨by omega, rfl⟩

theorem endChunk_eq_ok [Sha256] {s t : Scan} (h : s.endChunk = .ok t) :
    s.chunks.length < maxChunks ∧ s.offset + s.chunk.length < 2 ^ 64 ∧
      t = ⟨s.chunks ++ [⟨s.offset, s.chunk.length, Sha256.digest s.chunk⟩],
        s.offset + s.chunk.length, [], 0⟩ := by
  obtain ⟨chunks, hpush, h⟩ := except_bind_ok h
  obtain ⟨_, hoffset, h⟩ := except_bind_ok h
  have hoffset := refuseIf_ok hoffset
  obtain ⟨hlt, rfl⟩ := pushChunk_eq_ok hpush
  cases h
  exact ⟨hlt, by omega, rfl⟩

/-- A scan so far: the chunks end where the chunk that is being read begins. -/
structure Scan.Sound (s : Scan) : Prop where
  chain : Chain 0 s.chunks s.offset
  full : ∀ c ∈ s.chunks, Full c
  count : s.chunks.length ≤ maxChunks
  offset_lt : s.offset < 2 ^ 64

/-- The lengths of the pieces of which a scan knows. -/
def Scan.lengths (s : Scan) : List Nat :=
  s.chunks.map Chunk.length ++ if s.chunk.length = 0 then [] else [s.chunk.length]

theorem Scan.Sound.end [Sha256] {s t : Scan} (hs : s.Sound) (hmin : minChunkBytes ≤ s.chunk.length)
    (hmax : s.chunk.length ≤ maxChunkBytes) (h : s.endChunk = .ok t) : t.Sound := by
  obtain ⟨hlt, hoffset, rfl⟩ := endChunk_eq_ok h
  refine ⟨chain_snoc hs.chain rfl, ?_, ?_, hoffset⟩
  · intro c hc
    rcases List.mem_append.1 hc with hc | hc
    · exact hs.full c hc
    · rw [List.mem_singleton.1 hc]
      exact ⟨hmin, hmax⟩
  · rw [List.length_append, List.length_singleton]
    omega

theorem Scan.Sound.push {s : Scan} (hs : s.Sound) (byte : UInt8) : (s.push byte).Sound :=
  ⟨hs.chain, hs.full, hs.count, hs.offset_lt⟩

theorem length_push (s : Scan) (byte : UInt8) :
    (s.push byte).chunk.length = s.chunk.length + 1 := by
  simp [Scan.push]

theorem minChunk_of_endsChunk {length : Nat} {rolling : UInt64} (h : endsChunk length rolling) :
    minChunkBytes ≤ length := by
  unfold endsChunk at h
  simp only [Bool.and_eq_true, decide_eq_true_eq] at h
  exact h.1

theorem lt_maxChunk_of_not_endsChunk {length : Nat} {rolling : UInt64}
    (h : ¬ endsChunk length rolling) : length < maxChunkBytes := by
  by_contra hge
  have hmin : minChunkBytes ≤ maxChunkBytes := by decide
  refine h ?_
  unfold endsChunk
  simp only [Bool.and_eq_true, Bool.or_eq_true, decide_eq_true_eq]
  exact ⟨by omega, Or.inr (by omega)⟩

/-- A scan cuts the content into its pieces. -/
theorem scanBytes_eq_ok [Sha256] {s t : Scan} {bytes : List UInt8} (hs : s.Sound)
    (hlt : s.chunk.length < maxChunkBytes) (h : scanBytes s bytes = .ok t) :
    t.Sound ∧ t.chunk.length < maxChunkBytes ∧
      t.offset + t.chunk.length = s.offset + s.chunk.length + bytes.length ∧
      t.lengths = s.chunks.map Chunk.length ++
        pieceLengthsFrom s.chunk.length s.rolling bytes := by
  induction bytes generalizing s with
  | nil =>
    cases h
    exact ⟨hs, hlt, rfl, rfl⟩
  | cons byte bytes ih =>
    have hlen := length_push s byte
    have hroll : (s.push byte).rolling = (s.rolling <<< 1) + gear byte := rfl
    unfold scanBytes at h
    unfold pieceLengthsFrom
    dsimp only at h ⊢
    rw [hlen, hroll] at h
    by_cases hend : endsChunk (s.chunk.length + 1) ((s.rolling <<< 1) + gear byte)
    · rw [if_pos hend] at h ⊢
      obtain ⟨u, hu, h⟩ := except_bind_ok h
      have hmin := minChunk_of_endsChunk hend
      have hsound := (hs.push byte).end (by omega) (by omega) hu
      obtain ⟨-, -, rfl⟩ := endChunk_eq_ok hu
      have hempty : ([] : List UInt8).length < maxChunkBytes := by decide
      obtain ⟨ht, hlt', htotal, hlengths⟩ := ih hsound hempty h
      refine ⟨ht, hlt', ?_, ?_⟩
      · rw [htotal, List.length_cons, hlen]
        show s.offset + (s.chunk.length + 1) + 0 + bytes.length = _
        omega
      · rw [hlengths]
        simp [Scan.push]
    · rw [if_neg hend] at h ⊢
      obtain ⟨ht, hlt', htotal, hlengths⟩ :=
        ih (hs.push byte) (hlen ▸ lt_maxChunk_of_not_endsChunk hend) h
      refine ⟨ht, hlt', ?_, ?_⟩
      · rw [htotal, hlen, List.length_cons]
        show s.offset + (s.chunk.length + 1) + bytes.length = _
        omega
      · rw [hlengths, hlen, hroll]
        rfl

/-! ## The layout -/

/-- Chunks that cover an object from an offset on, laid out as parsing requires it. -/
def Laid (size : Nat) : Nat → List Chunk → Prop
  | offset, [] => offset = size
  | offset, chunk :: chunks =>
    chunk.offset = offset ∧ 0 < chunk.length ∧ chunk.length ≤ maxChunkBytes ∧
      (minChunkBytes ≤ chunk.length ∨ offset + chunk.length = size) ∧
      Laid size (offset + chunk.length) chunks

theorem laid_append {size offset stop : Nat} {chunks rest : List Chunk}
    (h : Chain offset chunks stop) (hfull : ∀ c ∈ chunks, Full c) (hr : Laid size stop rest) :
    Laid size offset (chunks ++ rest) := by
  induction chunks generalizing offset with
  | nil =>
    cases h
    exact hr
  | cons chunk chunks ih =>
    obtain ⟨hoffset, hchain⟩ := h
    obtain ⟨hchunk, hfull⟩ := List.forall_mem_cons.1 hfull
    have hmin : 0 < minChunkBytes := by decide
    have := hchunk.1
    exact ⟨hoffset, by omega, hchunk.2, Or.inl hchunk.1, ih hchain hfull⟩

theorem Laid.le {size offset : Nat} {chunks : List Chunk} (h : Laid size offset chunks) :
    offset ≤ size := by
  induction chunks generalizing offset with
  | nil => exact Nat.le_of_eq h
  | cons chunk chunks ih =>
    have := ih h.2.2.2.2
    omega

theorem Laid.within {size offset : Nat} {chunks : List Chunk} (h : Laid size offset chunks) :
    ∀ c ∈ chunks, offset ≤ c.offset ∧ 0 < c.length ∧ c.offset + c.length ≤ size := by
  induction chunks generalizing offset with
  | nil => exact fun _ hc => (nomatch hc)
  | cons chunk chunks ih =>
    obtain ⟨hoffset, hpos, -, -, hrest⟩ := h
    refine List.forall_mem_cons.2 ⟨⟨Nat.le_of_eq hoffset.symm, hpos, hoffset ▸ hrest.le⟩, fun c hc => ?_⟩
    obtain ⟨hle, hin⟩ := ih hrest c hc
    exact ⟨Nat.le_trans (Nat.le_add_right _ _) hle, hin⟩

/-- What a scan has read when its last chunk has been ended. -/
theorem finish_eq_ok [Sha256] {content : List UInt8} {s t : Scan} (hscan : scanBytes {} content = .ok s)
    (ht : s.finish = .ok t) :
    t.offset = content.length ∧ t.offset < 2 ^ 64 ∧ t.chunks.length ≤ maxChunks ∧
      Laid t.offset 0 t.chunks ∧ t.chunks.map Chunk.length = pieceLengths content := by
  have hstart : Scan.Sound {} := ⟨rfl, by simp, by decide, by decide⟩
  obtain ⟨hs, hlt, htotal, hlengths⟩ := scanBytes_eq_ok hstart (by decide) hscan
  simp only [List.length_nil, Nat.zero_add] at htotal
  unfold Scan.finish at ht
  by_cases hempty : s.chunk = []
  · rw [if_pos hempty] at ht
    cases ht
    rw [hempty, List.length_nil, Nat.add_zero] at htotal
    refine ⟨htotal, hs.offset_lt, hs.count, ?_, ?_⟩
    · have hlaid : Laid s.offset 0 (s.chunks ++ []) := laid_append hs.chain hs.full rfl
      rwa [List.append_nil] at hlaid
    · rw [Scan.lengths, hempty] at hlengths
      simpa [pieceLengths] using hlengths
  · rw [if_neg hempty] at ht
    obtain ⟨hcount, hoffset, rfl⟩ := endChunk_eq_ok ht
    have hpos := List.length_pos_of_ne_nil hempty
    refine ⟨htotal, hoffset, ?_, ?_, ?_⟩
    · rw [List.length_append, List.length_singleton]
      omega
    · exact laid_append hs.chain hs.full
        ⟨rfl, hpos, Nat.le_of_lt hlt, Or.inr rfl, rfl⟩
    · rw [Scan.lengths, if_neg (by omega)] at hlengths
      rw [List.map_append]
      exact hlengths

/-- A manifest that can be parsed: its chunks cover the object, and it has the hash of its text. -/
structure Canonical [Sha256] (m : Manifest) : Prop where
  count : m.chunks.length ≤ maxChunks
  laid : Laid m.size 0 m.chunks
  hash_eq : m.hash = Sha256.digest (canonicalBody m.size m.chunks)

/-- What a scan returns. -/
structure Scanned [Sha256] (content : List UInt8) (m : Manifest) : Prop where
  size_eq : m.size = content.length
  size_lt : m.size < 2 ^ 64
  count : m.chunks.length ≤ maxChunks
  laid : Laid m.size 0 m.chunks
  lengths : m.chunks.map Chunk.length = pieceLengths content
  hash_eq : m.hash = Sha256.digest (canonicalBody m.size m.chunks)
  body_le : (canonicalBody m.size m.chunks).length + 70 ≤ maxEncodedBytes

theorem Scanned.canonical [Sha256] {content : List UInt8} {m : Manifest} (h : Scanned content m) :
    Canonical m := ⟨h.count, h.laid, h.hash_eq⟩

theorem scanned_of_scan [Sha256] {metadataLen : Nat} {content : List UInt8} {m : Manifest}
    (h : scan metadataLen content = .ok m) : Scanned content m := by
  obtain ⟨s, hscan, h⟩ := except_bind_ok h
  obtain ⟨t, ht, h⟩ := except_bind_ok h
  obtain ⟨_, -, h⟩ := except_bind_ok h
  obtain ⟨_, hbody, h⟩ := except_bind_ok h
  have hbody := refuseIf_ok hbody
  cases h
  obtain ⟨hsize, hlt, hcount, hlaid, hlengths⟩ := finish_eq_ok hscan ht
  exact ⟨hsize, hlt, hcount, hlaid, hlengths, rfl, Nat.not_lt.1 hbody⟩

/-! ## The text -/

/-- The fields of the line of a chunk. -/
def chunkFields (chunk : Chunk) : List Str :=
  [ascii "C", decimal chunk.offset, decimal chunk.length, hex chunk.hash.bytes]

/-- The line of a chunk without its newline. -/
def chunkText (chunk : Chunk) : Str := [space].intercalate (chunkFields chunk)

/-- The fields of the first line. -/
def headerFields (m : Manifest) : List Str :=
  [ascii "CDC1", decimal m.size, decimal m.chunks.length]

/-- The lines of a manifest. -/
def manifestLines (m : Manifest) : List Str :=
  [space].intercalate (headerFields m) ::
    (m.chunks.map chunkText ++ [[space].intercalate [ascii "CHASH", hex m.hash.bytes]])

theorem plain_chunkFields (chunk : Chunk) : ∀ f ∈ chunkFields chunk, Plain f := by
  have htag : Plain (ascii "C") := by decide
  unfold chunkFields
  simp only [List.forall_mem_cons]
  exact ⟨htag, plain_decimal _, plain_decimal _, plain_hex _, by simp⟩

theorem plain_headerFields (m : Manifest) : ∀ f ∈ headerFields m, Plain f := by
  have htag : Plain (ascii "CDC1") := by decide
  unfold headerFields
  simp only [List.forall_mem_cons]
  exact ⟨htag, plain_decimal _, plain_decimal _, by simp⟩

theorem plain_footerFields (m : Manifest) : ∀ f ∈ [ascii "CHASH", hex m.hash.bytes], Plain f := by
  have htag : Plain (ascii "CHASH") := by decide
  simp only [List.forall_mem_cons]
  exact ⟨htag, plain_hex _, by simp⟩

theorem ofFields_manifestLines {m : Manifest} {l : Str} (h : l ∈ manifestLines m) : OfFields l := by
  rcases List.mem_cons.1 h with rfl | h
  · exact ⟨_, plain_headerFields m, rfl⟩
  · rcases List.mem_append.1 h with h | h
    · obtain ⟨c, -, rfl⟩ := List.mem_map.1 h
      exact ⟨_, plain_chunkFields c, rfl⟩
    · rw [List.mem_singleton.1 h]
      exact ⟨_, plain_footerFields m, rfl⟩

theorem canonicalBody_eq (m : Manifest) :
    canonicalBody m.size m.chunks =
      ([space].intercalate (headerFields m) :: m.chunks.map chunkText).flatMap
        (· ++ [newline]) := by
  have htag : ascii "CDC1 " = ascii "CDC1" ++ [space] := by decide
  have hchunk : ascii "C " = ascii "C" ++ [space] := by decide
  unfold canonicalBody
  rw [List.flatMap_cons, List.flatMap_map, htag, hchunk]
  simp [headerFields, chunkText, chunkFields, List.intercalate_cons_cons]

theorem encode_eq (m : Manifest) : encode m = (manifestLines m).flatMap (· ++ [newline]) := by
  have htag : ascii "CHASH " = ascii "CHASH" ++ [space] := by decide
  unfold encode manifestLines
  rw [canonicalBody_eq, ← List.cons_append, List.flatMap_append, htag]
  simp [List.intercalate_cons_cons]

theorem lines_encode (m : Manifest) : lines (encode m) = manifestLines m := by
  rw [encode_eq]
  exact lines_ofFields fun _ hl => ofFields_manifestLines hl

theorem length_manifestLines (m : Manifest) : (manifestLines m).length = m.chunks.length + 2 := by
  simp [manifestLines]

theorem getLast_encode (m : Manifest) : (encode m).getLast? = some newline := by
  simp [encode]

theorem carriageReturn_not_mem_encode (m : Manifest) : carriageReturn ∉ encode m := by
  rw [encode_eq]
  exact carriageReturn_not_mem_ofFields fun _ hl => ofFields_manifestLines hl

/-- The footer is as long as its tag, 64 digits and a newline. -/
theorem length_encode (m : Manifest) :
    (encode m).length = (canonicalBody m.size m.chunks).length + 71 := by
  have htag : (ascii "CHASH ").length = 6 := by decide
  simp only [encode, List.length_append, List.length_singleton, htag, length_hash]

/-! ## Parsing -/

theorem decodeHash_hex (hash : Hash) : decodeHash (hex hash.bytes) = .ok hash := by
  have hsize : (hexPairs (hex hash.bytes)).toArray.size = 32 := by
    rw [hexPairs_hex]
    simp [Hash.bytes]
  have hform : ¬ ((hex hash.bytes).length ≠ 64 ∨
      (hex hash.bytes).all isLowerHexDigit = false) := by
    rw [length_hash, all_isLowerHexDigit_hex]
    simp
  have hbytes : (⟨(hexPairs (hex hash.bytes)).toArray, hsize⟩ : Hash) = hash := by
    apply Vector.toList_inj.1
    show (hexPairs (hex hash.bytes)).toArray.toList = hash.toList
    rw [hexPairs_hex]
    rfl
  unfold decodeHash
  rw [if_neg hform, dif_pos hsize, hbytes]

theorem parseU64_decimal {n : Nat} (h : n < 2 ^ 64) : parseU64 (decimal n) = .ok n :=
  canonicalUnsigned_decimal _ h

/-- Chunks that are laid out properly are read back from their lines. -/
theorem parseChunks_chunkText {size offset : Nat} {chunks : List Chunk}
    (h : Laid size offset chunks) (hsize : size < 2 ^ 64) (rest : List Str) :
    parseChunks size chunks.length offset (chunks.map chunkText ++ rest) =
      .ok (chunks, size, rest) := by
  induction chunks generalizing offset with
  | nil =>
    obtain rfl : offset = size := h
    rfl
  | cons chunk chunks ih =>
    obtain ⟨rfl, hpos, hmax, hmin, hrest⟩ := h
    have hle := hrest.le
    have hbound : maxChunkBytes < 2 ^ 32 := by decide
    have hsplit := splitOn_fields (plain_chunkFields chunk) (by simp [chunkFields])
    have hoffset := parseU64_decimal (n := chunk.offset) (by omega)
    have hlength := parseU64_decimal (n := chunk.length) (by omega)
    have hlayout : ¬ (chunk.offset ≠ chunk.offset ∨ chunk.length = 0 ∨
        chunk.length > maxChunkBytes ∨
        chunk.length < minChunkBytes ∧ chunk.offset + chunk.length ≠ size) := by
      rintro (hne | hzero | hlong | ⟨hshort, hlast⟩)
      · exact hne rfl
      · omega
      · omega
      · rcases hmin with hmin | hend
        · omega
        · exact hlast hend
    rw [List.length_cons, List.map_cons, List.cons_append, parseChunks, chunkText, hsplit]
    simp only [chunkFields]
    rw [refuseIf_of_not (by simp), check_bind, hoffset, check_bind, hlength, check_bind,
      refuseIf_of_not (by omega), check_bind, refuseIf_of_not hlayout, check_bind,
      refuseIf_of_not (by omega), check_bind, decodeHash_hex, check_bind, ih hrest]
    rfl

theorem parseFooter_hash (m : Manifest) :
    parseFooter [[space].intercalate [ascii "CHASH", hex m.hash.bytes]] = .ok m.hash := by
  have htag : [space].intercalate [ascii "CHASH", hex m.hash.bytes] =
      ascii "CHASH " ++ hex m.hash.bytes := by
    have hlit : ascii "CHASH " = ascii "CHASH" ++ [space] := by decide
    rw [hlit]
    simp [List.intercalate_cons_cons]
  have hstrip : stripPrefix (ascii "CHASH ") (ascii "CHASH " ++ hex m.hash.bytes) =
      some (hex m.hash.bytes) := by
    rw [stripPrefix, if_pos (List.prefix_append _ _), List.drop_left]
  rw [htag]
  simp only [parseFooter, hstrip]
  exact decodeHash_hex m.hash

theorem parseHeader_header {m : Manifest} (hsize : m.size < 2 ^ 64)
    (hcount : m.chunks.length < 2 ^ 64) :
    parseHeader ([space].intercalate (headerFields m)) = .ok (m.size, m.chunks.length) := by
  unfold parseHeader
  rw [splitOn_fields (plain_headerFields m) (by simp [headerFields])]
  simp only [headerFields, parseU64_decimal hsize, parseU64_decimal hcount]
  rfl

theorem Laid.eq_zero_iff {size : Nat} {chunks : List Chunk} (h : Laid size 0 chunks) :
    size = 0 ↔ chunks = [] := by
  cases chunks with
  | nil =>
    have hz : 0 = size := h
    exact ⟨fun _ => rfl, fun _ => hz.symm⟩
  | cons chunk chunks =>
    have hle := h.2.2.2.2.le
    have hpos := h.2.1
    constructor
    · intro hz
      omega
    · nofun

theorem Laid.size_le {size offset : Nat} {chunks : List Chunk} (h : Laid size offset chunks) :
    size ≤ offset + chunks.length * maxChunkBytes := by
  induction chunks generalizing offset with
  | nil => exact Nat.le_of_eq h.symm
  | cons chunk chunks ih =>
    have hlen := h.2.2.1
    have hrest := ih h.2.2.2.2
    rw [List.length_cons, Nat.succ_mul]
    omega

/-- So few chunks make up a size that fits into 64 bits. -/
theorem Canonical.size_lt [Sha256] {m : Manifest} (h : Canonical m) : m.size < 2 ^ 64 := by
  have hsize := h.laid.size_le
  have hle : m.chunks.length * maxChunkBytes ≤ maxChunks * maxChunkBytes := Nat.mul_le_mul_right _ h.count
  have hmax : maxChunks * maxChunkBytes < 2 ^ 64 := by decide
  omega

/-- The text of a canonical manifest is parsed again unless it is too long. -/
theorem parse_encode [Sha256] {m : Manifest} (h : Canonical m)
    (hlen : (encode m).length ≤ maxEncodedBytes) : parse (encode m) = .ok m := by
  have hcount := h.count
  have hmax : maxChunks < 2 ^ 64 := by decide
  have hform : ¬ ((encode m).length > maxEncodedBytes ∨ (encode m).getLast? ≠ some newline ∨
      carriageReturn ∈ encode m) := by
    rw [not_or, not_or, not_not]
    exact ⟨by omega, getLast_encode m, carriageReturn_not_mem_encode m⟩
  have htake : (m.chunks.map chunkText ++
      [[space].intercalate [ascii "CHASH", hex m.hash.bytes]]).take m.chunks.length =
      m.chunks.map chunkText := List.take_left' (by simp)
  have hcover : ¬ (m.size ≠ m.size ∨ ¬(m.size = 0 ↔ m.chunks = [])) := by
    rw [not_or, not_not, not_not]
    exact ⟨rfl, h.laid.eq_zero_iff⟩
  unfold parse
  rw [refuseIf_of_not hform, check_bind, lines_encode, manifestLines]
  dsimp only
  rw [parseHeader_header h.size_lt (by omega), check_bind]
  dsimp only
  rw [refuseIf_of_not (by omega), check_bind, parseChunks_chunkText h.laid h.size_lt, check_bind]
  dsimp only
  rw [refuseIf_of_not hcover, check_bind, parseFooter_hash, check_bind, htake, ← canonicalBody_eq,
    refuseIf_of_not (by simpa using h.hash_eq), check_bind]
  rfl

end PacketTide.Cdc
