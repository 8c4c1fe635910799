import PacketTide.Proofs.BitmapProofs
import PacketTide.ResumeRuns
import PacketTide.Text.Proofs.NumberProofs

/-!
# The format of receipt maps

A map is about one object only, the one that it was written for, and it is read back as it was
written.
-/

namespace PacketTide

open Text

theorem length_hash_bytes (h : Hash) : h.bytes.length = 32 := by simp [Hash.bytes]

theorem hash_bytes_injective {h h' : Hash} (he : h.bytes = h'.bytes) : h = h' :=
  Vector.toList_inj.1 he

theorem eq_of_fields {id id' : Identity} (hs : id.size = id'.size) (hc : id.chunks = id'.chunks)
    (hp : id.payloadBytes = id'.payloadBytes) (hh : id.hash = id'.hash) : id = id' := by
  cases id
  cases id'
  cases hs
  cases hc
  cases hp
  cases hh
  rfl

/-- The words of a map, as they are written. -/
def wordBytes (bitmap : Bitmap) : List UInt8 := bitmap.flatMap fun word => toBeBytes word.toNat

theorem length_wordBytes (bitmap : Bitmap) : (wordBytes bitmap).length = bitmap.length * 8 := by
  induction bitmap with
  | nil => rfl
  | cons word bitmap ih =>
    rw [wordBytes, List.flatMap_cons, List.length_append, length_toBeBytes, List.length_cons]
    rw [wordBytes] at ih
    omega

theorem decodeWords_wordBytes (bitmap : Bitmap) :
    decodeWords bitmap.length (wordBytes bitmap) = bitmap := by
  induction bitmap with
  | nil => rfl
  | cons word bitmap ih =>
    have htake : (wordBytes (word :: bitmap)).take 8 = toBeBytes word.toNat :=
      List.take_left' (length_toBeBytes _)
    have hdrop : (wordBytes (word :: bitmap)).drop 8 = wordBytes bitmap :=
      List.drop_left' (length_toBeBytes _)
    rw [List.length_cons, decodeWords, htake, hdrop, ih, fromBeBytes_toBeBytes word.isLt,
      BitVec.ofNat_toNat, BitVec.setWidth_eq]

/-- The parts of a map, one after the other. -/
theorem mapBytes_eq (id : Identity) (bitmap : Bitmap) :
    mapBytes id bitmap = mapMagic ++ (toBeBytes id.size ++ (toBeBytes id.chunks ++
      (toBeBytes id.payloadBytes ++ (id.hash.bytes ++ wordBytes bitmap)))) := by
  simp [mapBytes, mapPieces, wordBytes, List.flatMap]

theorem length_mapMagic : mapMagic.length = 8 := by decide

theorem length_mapBytes (id : Identity) (bitmap : Bitmap) :
    (mapBytes id bitmap).length = headerLen + bitmap.length * 8 := by
  simp only [mapBytes_eq, List.length_append, length_mapMagic, length_toBeBytes, length_hash_bytes,
    length_wordBytes, headerLen]
  omega

/-- What the header of a map says when the map is taken for one of an object. -/
theorem header_of_decodeMap {id : Identity} {words : Nat} {content : List UInt8} {bitmap : Bitmap}
    (h : decodeMap id words content = some bitmap) :
    fromBeBytes (((content.take headerLen).drop 8).take 8) = id.size ∧
      fromBeBytes (((content.take headerLen).drop 16).take 8) = id.chunks ∧
      fromBeBytes (((content.take headerLen).drop 24).take 8) = id.payloadBytes ∧
      ((content.take headerLen).drop 32).take 32 = id.hash.bytes ∧
      bitmap = decodeWords words (content.drop headerLen) := by
  simp only [decodeMap] at h
  split_ifs at h with h1 h2
  cases h
  simp only [not_or, not_not] at h1
  exact ⟨h1.2.1, h1.2.2.1, h1.2.2.2.1, h1.2.2.2.2, rfl⟩

/-- A map is taken for one of a single object. -/
theorem decodeMap_object {id id' : Identity} {words words' : Nat} {content : List UInt8}
    {bitmap bitmap' : Bitmap} (h : decodeMap id words content = some bitmap)
    (h' : decodeMap id' words' content = some bitmap') : id = id' := by
  obtain ⟨hs, hc, hp, hh, -⟩ := header_of_decodeMap h
  obtain ⟨hs', hc', hp', hh', -⟩ := header_of_decodeMap h'
  exact eq_of_fields (hs.symm.trans hs') (hc.symm.trans hc') (hp.symm.trans hp')
    (hash_bytes_injective (hh.symm.trans hh'))

/-- What is in the places that the header and the words of a map are read from. -/
theorem fields_mapBytes (id : Identity) (bitmap : Bitmap) :
    ((mapBytes id bitmap).take headerLen).take 8 = mapMagic ∧
      fromBeBytes ((((mapBytes id bitmap).take headerLen).drop 8).take 8) = id.size ∧
      fromBeBytes ((((mapBytes id bitmap).take headerLen).drop 16).take 8) = id.chunks ∧
      fromBeBytes ((((mapBytes id bitmap).take headerLen).drop 24).take 8) = id.payloadBytes ∧
      (((mapBytes id bitmap).take headerLen).drop 32).take 32 = id.hash.bytes ∧
      (mapBytes id bitmap).drop headerLen = wordBytes bitmap := by
  have hsplit : mapBytes id bitmap = (mapMagic ++ (toBeBytes id.size ++ (toBeBytes id.chunks ++
      (toBeBytes id.payloadBytes ++ id.hash.bytes)))) ++ wordBytes bitmap := by
    simp [mapBytes_eq]
  have hlen : (mapMagic ++ (toBeBytes id.size ++ (toBeBytes id.chunks ++
      (toBeBytes id.payloadBytes ++ id.hash.bytes)))).length = headerLen := by
    simp [length_mapMagic, length_toBeBytes, length_hash_bytes, headerLen]
  have hhash : id.hash.bytes.take 32 = id.hash.bytes :=
    List.take_of_length_le (Nat.le_of_eq (length_hash_bytes _))
  have h8 : (mapMagic ++ (toBeBytes id.size ++ (toBeBytes id.chunks ++
      (toBeBytes id.payloadBytes ++ id.hash.bytes)))).drop 8 = toBeBytes id.size ++
      (toBeBytes id.chunks ++ (toBeBytes id.payloadBytes ++ id.hash.bytes)) :=
    List.drop_left' length_mapMagic
  have h16 : (mapMagic ++ (toBeBytes id.size ++ (toBeBytes id.chunks ++
      (toBeBytes id.payloadBytes ++ id.hash.bytes)))).drop 16 =
      toBeBytes id.chunks ++ (toBeBytes id.payloadBytes ++ id.hash.bytes) := by
    rw [show 16 = 8 + 8 from rfl, ← List.drop_drop, h8, List.drop_left' (length_toBeBytes _)]
  have h24 : (mapMagic ++ (toBeBytes id.size ++ (toBeBytes id.chunks ++
      (toBeBytes id.payloadBytes ++ id.hash.bytes)))).drop 24 =
      toBeBytes id.payloadBytes ++ id.hash.bytes := by
    rw [show 24 = 16 + 8 from rfl, ← List.drop_drop, h16, List.drop_left' (length_toBeBytes _)]
  have h32 : (mapMagic ++ (toBeBytes id.size ++ (toBeBytes id.chunks ++
      (toBeBytes id.payloadBytes ++ id.hash.bytes)))).drop 32 = id.hash.bytes := by
    rw [show 32 = 24 + 8 from rfl, ← List.drop_drop, h24, List.drop_left' (length_toBeBytes _)]
  rw [hsplit, List.take_left' hlen, List.drop_left' hlen, h8, h16, h24, h32,
    List.take_left' length_mapMagic, List.take_left' (length_toBeBytes _),
    List.take_left' (length_toBeBytes _), List.take_left' (length_toBeBytes _), hhash,
    fromBeBytes_toBeBytes id.size_lt, fromBeBytes_toBeBytes id.chunks_lt,
    fromBeBytes_toBeBytes id.payloadBytes_lt]
  exact ⟨rfl, rfl, rfl, rfl, rfl, rfl⟩

/-- A map is read back as it was written, unless it has bits that no chunk has. -/
theorem decodeMap_mapBytes (id : Identity) (bitmap : Bitmap) :
    decodeMap id bitmap.length (mapBytes id bitmap) =
      if hasStrayBits id.chunks bitmap then none else some bitmap := by
  obtain ⟨hm, hs, hc, hp, hh, hw⟩ := fields_mapBytes id bitmap
  simp only [decodeMap, hm, hs, hc, hp, hh, hw, decodeWords_wordBytes]
  rw [if_neg (by simp)]

theorem decodeMap_of_receiptsIn {content : List UInt8} {id : Identity} {bitmap : Bitmap}
    (h : receiptsIn content id = some bitmap) :
    content.length = headerLen + bitmapWords id.chunks * 8 ∧
      decodeMap id (bitmapWords id.chunks) content = some bitmap := by
  unfold receiptsIn at h
  split_ifs at h with hl
  exact ⟨hl, h⟩

/-- A map holds receipts for one object at most. -/
theorem receiptsIn_object {content : List UInt8} {id id' : Identity} {bitmap bitmap' : Bitmap}
    (h : receiptsIn content id = some bitmap) (h' : receiptsIn content id' = some bitmap') :
    id = id' :=
  decodeMap_object (decodeMap_of_receiptsIn h).2 (decodeMap_of_receiptsIn h').2

theorem length_decodeWords (n : Nat) (bytes : List UInt8) : (decodeWords n bytes).length = n := by
  induction n generalizing bytes with
  | zero => rfl
  | succ n ih => rw [decodeWords, List.length_cons, ih]

theorem length_of_receiptsIn {content : List UInt8} {id : Identity} {bitmap : Bitmap}
    (h : receiptsIn content id = some bitmap) : bitmap.length = bitmapWords id.chunks := by
  obtain ⟨-, -, -, -, rfl⟩ := header_of_decodeMap (decodeMap_of_receiptsIn h).2
  exact length_decodeWords _ _

/-- The receipts in a written map are those that were written, for the object it was written for. -/
theorem receiptsIn_mapBytes {id id' : Identity} {bitmap bitmap' : Bitmap}
    (h : receiptsIn (mapBytes id bitmap) id' = some bitmap') : id' = id ∧ bitmap' = bitmap := by
  obtain ⟨hl, hd⟩ := decodeMap_of_receiptsIn h
  obtain ⟨hs, hc, hp, hh, hb⟩ := header_of_decodeMap hd
  obtain ⟨-, hs', hc', hp', hh', hw⟩ := fields_mapBytes id bitmap
  obtain rfl : id' = id := eq_of_fields (hs.symm.trans hs') (hc.symm.trans hc')
    (hp.symm.trans hp') (hash_bytes_injective (hh.symm.trans hh'))
  rw [length_mapBytes] at hl
  refine ⟨rfl, ?_⟩
  rw [hb, hw, ← show bitmap.length = bitmapWords id'.chunks by omega, decodeWords_wordBytes]

/-! ## Stray bits -/

theorem toNat_lowMask {k : Nat} (hk : k < 64) : ((1#64 <<< k) - 1#64).toNat = 2 ^ k - 1 := by
  have hlt : 2 ^ k < 2 ^ 64 := Nat.pow_lt_pow_right (by decide) hk
  have hpos : 0 < 2 ^ k := Nat.two_pow_pos k
  rw [BitVec.toNat_sub, BitVec.toNat_shiftLeft, BitVec.toNat_ofNat, Nat.shiftLeft_eq]
  rw [Nat.mod_eq_of_lt (by decide : 1 < 2 ^ 64), Nat.one_mul, Nat.mod_eq_of_lt hlt]
  omega

theorem getLsbD_lowMask {k j : Nat} (hk : k < 64) :
    ((1#64 <<< k) - 1#64).getLsbD j = decide (j < k) := by
  rw [BitVec.getLsbD, toNat_lowMask hk, Nat.testBit_two_pow_sub_one]

/-- A bitmap without stray bits records no chunk beyond the last. -/
theorem bitmapFor_of_not_stray {chunks : Nat} {bitmap : Bitmap}
    (hlen : bitmap.length = bitmapWords chunks) (h : hasStrayBits chunks bitmap = false) :
    BitmapFor chunks bitmap where
  length_eq := hlen
  lt_chunks i hi := by
    by_contra hge
    have hplace := lt_length_of_bitmapContains hi
    have hwords : i / 64 + 1 = bitmap.length ∧ chunks % 64 ≠ 0 ∧ chunks % 64 ≤ i % 64 := by
      unfold bitmapWords at hlen
      omega
    obtain ⟨hlast, hpart, hbeyond⟩ := hwords
    have hword : bitmap.getLast? = some bitmap[i / 64] := by
      rw [List.getLast?_eq_getElem?, List.getElem?_eq_getElem (by omega)]
      congr 1
      congr 1
      omega
    have hand : (chunks &&& 63 != 0) = true := by
      rw [Nat.and_two_pow_sub_one_eq_mod chunks 6]
      simpa using hpart
    unfold hasStrayBits at h
    rw [hword, hand, Bool.true_and] at h
    dsimp only at h
    have hbit : bitmap[i / 64].getLsbD (i % 64) = true := by
      rw [bitmapContains_eq, List.getElem?_eq_getElem hplace] at hi
      exact hi
    have hzero := bne_eq_false_iff_eq.1 h
    have hstray : (bitmap[i / 64] &&& ~~~((1#64 <<< (chunks % 64)) - 1#64)).getLsbD (i % 64) =
        true := by
      rw [BitVec.getLsbD_and, BitVec.getLsbD_not, getLsbD_lowMask (Nat.mod_lt _ (by decide)), hbit]
      have hlt : i % 64 < 64 := Nat.mod_lt _ (by decide)
      simp [hlt, Nat.not_lt.2 hbeyond]
    rw [hzero] at hstray
    simp at hstray
theorem not_stray_of_decodeMap {id : Identity} {words : Nat} {content : List UInt8} {bitmap : Bitmap}
    (h : decodeMap id words content = some bitmap) : hasStrayBits id.chunks bitmap = false := by
  unfold decodeMap at h
  dsimp only at h
  split at h
  · cases h
  · split at h
    · cases h
    next hstray =>
      cases h
      exact Bool.eq_false_iff.2 hstray

/-- The receipts of a map are a bitmap for the object. -/
theorem bitmapFor_of_receiptsIn {content : List UInt8} {id : Identity} {bitmap : Bitmap}
    (h : receiptsIn content id = some bitmap) : BitmapFor id.chunks bitmap :=
  bitmapFor_of_not_stray (length_of_receiptsIn h) (not_stray_of_decodeMap (decodeMap_of_receiptsIn h).2)

/-- A bitmap for an object has no stray bits. -/
theorem BitmapFor.not_stray {chunks : Nat} {bitmap : Bitmap} (h : BitmapFor chunks bitmap) :
    hasStrayBits chunks bitmap = false := by
  rcases hlast : bitmap.getLast? with _ | word
  · unfold hasStrayBits
    rw [hlast, Bool.and_false]
  by_cases hpart : chunks % 64 = 0
  · unfold hasStrayBits
    rw [Nat.and_two_pow_sub_one_eq_mod chunks 6, show chunks % 2 ^ 6 = 0 from hpart]
    rfl
  have hzero : word &&& ~~~((1#64 <<< (chunks % 64)) - 1#64) = 0#64 := by
    refine BitVec.eq_of_getLsbD_eq fun j hj => ?_
    rw [BitVec.getLsbD_and, BitVec.getLsbD_not, getLsbD_lowMask (Nat.mod_lt _ (by decide)),
      BitVec.getLsbD_zero]
    by_cases hbit : word.getLsbD j = true
    · -- the bit belongs to a chunk of the object
      rw [List.getLast?_eq_getElem?] at hlast
      have hlength := h.length_eq
      unfold bitmapWords at hlength
      have hcontains : bitmapContains bitmap ((bitmap.length - 1) * 64 + j) = true := by
        have hplace : ((bitmap.length - 1) * 64 + j) / 64 = bitmap.length - 1 := by omega
        have hrest : ((bitmap.length - 1) * 64 + j) % 64 = j := by omega
        rw [bitmapContains_eq, hplace, hrest, hlast]
        exact hbit
      have hlt := h.lt_chunks _ hcontains
      have hbelow : j < chunks % 64 := by omega
      simp [hbelow]
    · rw [Bool.eq_false_iff.2 hbit, Bool.false_and]
  unfold hasStrayBits
  rw [hlast]
  dsimp only
  rw [hzero]
  exact Bool.and_false _

/-- A map that has been written for an object is read back. -/
theorem receiptsIn_mapBytes_self {id : Identity} {bitmap : Bitmap} (h : BitmapFor id.chunks bitmap) :
    receiptsIn (mapBytes id bitmap) id = some bitmap := by
  unfold receiptsIn
  rw [length_mapBytes, h.length_eq, if_pos rfl, ← h.length_eq, decodeMap_mapBytes, h.not_stray]
  rfl

end PacketTide
