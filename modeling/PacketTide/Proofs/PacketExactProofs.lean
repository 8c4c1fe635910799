import PacketTide.PacketMachine
import PacketTide.Proofs.ConsistencyProofs
import PacketTide.Proofs.DatagramProofs
import PacketTide.Proofs.PacketProofs
import PacketTide.Sha2

/-!
# The receiver takes exactly the datagrams that are built

A datagram that passes the checks is the one that is built for its chunk, kind and bytes, and the chunks
of a layout are not empty and make up the object.
-/

namespace PacketTide

open Effects FileSystem FS Prog Text

variable {key : Hash} {layout : ChunkLayout}

/-! ## Chunks -/

/-- The chunks before one make up what comes before it. -/
theorem sum_chunkLength (layout : ChunkLayout) (n : Nat) :
    ((List.range n).map layout.chunkLength).sum = min (n * layout.payloadBytes) layout.size := by
  induction n with
  | zero => rw [Nat.zero_mul, Nat.zero_min]; rfl
  | succ n ih =>
    rw [List.range_succ, List.map_append, List.sum_append, ih, Nat.succ_mul]
    simp only [List.map_cons, List.map_nil, List.sum_cons, List.sum_nil, ChunkLayout.chunkLength]
    omega

theorem Hello.Bounded.inRange {hello : Hello} (h : hello.Bounded) : hello.chunkLayout.InRange where
  size_lt := h.size_lt
  chunks_lt := Nat.lt_of_le_of_lt (Nat.succ_le_succ h.chunks_le) (by decide)
  offset_lt _ hi := h.offset_lt_two_pow hi
  end_le i hi := by
    have hlt := h.offset_lt hi
    have hmin : min (hello.size - i * hello.payloadBytes) hello.payloadBytes ≤
        hello.size - i * hello.payloadBytes := Nat.min_le_left _ _
    show i * hello.payloadBytes + min (hello.size - i * hello.payloadBytes) hello.payloadBytes ≤ hello.size
    omega
  length_lt := Nat.lt_of_le_of_lt (Nat.add_le_add_right h.payloadBytes_le _) (by decide)

theorem Hello.Bounded.chunkLength_pos {hello : Hello} (h : hello.Bounded) {i : Nat}
    (hi : i < hello.chunks) : 1 ≤ hello.chunkLayout.chunkLength i := by
  have hlt := h.offset_lt hi
  have hpos := h.payloadBytes_pos
  show 1 ≤ min (hello.size - i * hello.payloadBytes) hello.payloadBytes
  omega

/-! ## The header -/

theorem toBeBytes16_fromBeBytes {bytes : List UInt8} (h : bytes.length = 2) :
    toBeBytes16 (fromBeBytes bytes) = bytes := by
  have hlt := fromBeBytes_lt bytes
  rw [h] at hlt
  exact fromBeBytes_injective (by rw [h]; rfl) (fromBeBytes_toBeBytes16 hlt)

theorem packetKind_eq_some {byte : UInt8} {repair : Bool} (h : packetKind byte = some repair) :
    byte = if repair then 1 else 0 := by
  unfold packetKind at h
  split at h
  · cases h
    rfl
  · cases h
    rfl
  · cases h

/-- The first bytes of a datagram are the header of what they say. -/
theorem take_eq_packetHeader {packet : List UInt8} {repair : Bool} (hlen : headerSize ≤ packet.length)
    (hversion : packet.head? = some packetVersion)
    (hkind : (packet[9]?).bind packetKind = some repair) :
    packet.take 12 = packetHeader (fromBeBytes ((packet.drop 1).take 8)) repair
      (fromBeBytes ((packet.drop 10).take 2)) := by
  obtain ⟨byte, hbyte, hkind⟩ := Option.bind_eq_some_iff.1 hkind
  have hkindByte := packetKind_eq_some hkind
  obtain ⟨rest, rfl⟩ : ∃ rest, packet = packetVersion :: rest := List.head?_eq_some_iff.1 hversion
  have hlen : 27 ≤ rest.length := Nat.le_of_succ_le_succ hlen
  have hsequence : ((packetVersion :: rest).drop 1).take 8 = rest.take 8 := rfl
  have hpayload : ((packetVersion :: rest).drop 10).take 2 = (rest.drop 9).take 2 := rfl
  have hbyte : rest[8]? = some byte := hbyte
  obtain ⟨hlt, hbyte⟩ := List.getElem?_eq_some_iff.1 hbyte
  rw [hsequence, hpayload, packetHeader, toBeBytes_fromBeBytes (by rw [List.length_take]; omega),
    toBeBytes16_fromBeBytes (by rw [List.length_take, List.length_drop]; omega),
    ← hkindByte]
  have hsplit : rest.take 11 = rest.take 8 ++ (byte :: (rest.drop 9).take 2) := by
    have hcut : rest.take (8 + 3) = rest.take 8 ++ (rest.drop 8).take 3 := List.take_add
    rw [hcut, List.drop_eq_getElem_cons hlt, List.take_succ_cons, hbyte]
  exact congrArg (packetVersion :: ·) hsplit

/-- A byte string is its header, its tag and its payload. -/
theorem packet_parts (packet : List UInt8) :
    packet = packet.take 12 ++ ((packet.drop 12).take 16 ++ packet.drop headerSize) := by
  have hdrop : packet.drop headerSize = (packet.drop 12).drop 16 := by rw [List.drop_drop]; rfl
  rw [hdrop, List.take_append_drop, List.take_append_drop]

/-! ## Checking a datagram -/

/-- What the checks let through. -/
theorem checkPacket_eq_some [Sha256] {bytes : List UInt8} {packet : Packet}
    (h : checkPacket key layout bytes = some packet) :
    packet.sequence < layout.chunks ∧ packet.payload.length = layout.chunkLength packet.sequence ∧
      bytes.length = headerSize + packet.payload.length ∧
      bytes = packetHeader packet.sequence packet.repair packet.payload.length ++
        (udpTagParts key (packetHeader packet.sequence packet.repair packet.payload.length)
          packet.payload ++ packet.payload) := by
  have hsome := checkPacket_some h
  unfold checkPacket at h
  split at h
  · cases h
  next hlen =>
    split at h
    · cases h
    next hversion =>
      dsimp only at h
      split at h
      · cases h
      next repair hkind =>
        split at h
        · cases h
        next hbounds =>
          split at h
          · cases h
          next hverify =>
            split at h
            · cases h
            next hlength =>
              cases h
              have hheader := take_eq_packetHeader (Nat.not_lt.1 hlen) (not_not.1 hversion) hkind
              have hpayload : (bytes.drop headerSize).length = fromBeBytes ((bytes.drop 10).take 2) := by
                rw [List.length_drop]
                omega
              refine ⟨hsome.1, hsome.2, ?_, ?_⟩
              · show bytes.length = headerSize + (bytes.drop headerSize).length
                omega
              · have htag := Auth.constantTimeEq_iff.1 (Bool.not_eq_false _ ▸ hverify)
                dsimp only
                rw [hpayload, ← hheader, htag]
                exact packet_parts bytes

/-- A datagram of the right length is handed over as a whole. -/
theorem received_eq_self {datagram : List UInt8}
    (h : (received layout datagram).length ≤ headerSize + layout.payloadBytes) :
    received layout datagram = datagram := by
  unfold received at h ⊢
  rw [List.length_take] at h
  exact List.take_of_length_le (by omega)

/-- A source of an object that holds the bytes of a chunk in their place. -/
def sourceWith (layout : ChunkLayout) (sequence : Nat) (payload : List UInt8) : List UInt8 :=
  List.replicate (sequence * layout.payloadBytes) 0 ++ (payload ++
    List.replicate (layout.size - (sequence * layout.payloadBytes + payload.length)) 0)

/-- A chunk of a source is built with its bytes. -/
theorem buildPacket_of_slice [Sha256] {source payload : List UInt8} {sequence : Nat} {repair : Bool}
    (hoffset : sequence * layout.payloadBytes < 2 ^ 64)
    (hlt : sequence * layout.payloadBytes < layout.size)
    (hslice : (source.drop (sequence * layout.payloadBytes)).take (layout.chunkLength sequence) = payload)
    (hlength : payload.length = layout.chunkLength sequence) :
    buildPacket source layout.size key sequence repair layout.payloadBytes =
      .ok (packetHeader sequence repair payload.length ++
        (udpTagParts key (packetHeader sequence repair payload.length) payload ++ payload)) := by
  have hmin : min (layout.size - sequence * layout.payloadBytes) layout.payloadBytes = payload.length :=
    hlength.symm
  rw [← hlength] at hslice
  unfold buildPacket
  dsimp only
  rw [if_neg (Nat.not_le.2 hoffset), if_neg (fun h => absurd h.1 (Nat.not_le.2 hlt)), hmin, hslice,
    if_neg (Nat.lt_irrefl _)]

theorem builtFor_sourceWith [Sha256] {packet : Packet} (hrange : layout.InRange)
    (hlt : packet.sequence < layout.chunks)
    (hinside : packet.sequence * layout.payloadBytes < layout.size)
    (hlength : packet.payload.length = layout.chunkLength packet.sequence) :
    BuiltFor key layout packet (packetHeader packet.sequence packet.repair packet.payload.length ++
      (udpTagParts key (packetHeader packet.sequence packet.repair packet.payload.length)
        packet.payload ++ packet.payload)) := by
  have hend := hrange.end_le packet.sequence hlt
  have hslice : ((sourceWith layout packet.sequence packet.payload).drop
      (packet.sequence * layout.payloadBytes)).take (layout.chunkLength packet.sequence) =
        packet.payload := by
    rw [sourceWith, List.drop_left' List.length_replicate, List.take_left' hlength]
  refine ⟨hlt, hlength, sourceWith layout packet.sequence packet.payload, ?_, hslice,
    buildPacket_of_slice (hrange.offset_lt _ (Nat.le_of_lt hlt)) hinside hslice hlength⟩
  simp only [sourceWith, List.length_append, List.length_replicate]
  omega

/-- The datagrams that pass the checks are those that are built. -/
theorem checkPacket_iff [Sha256] {hello : Hello} (hb : hello.Bounded) {packet : Packet}
    {datagram : List UInt8} :
    checkPacket key hello.chunkLayout (received hello.chunkLayout datagram) = some packet ↔
      BuiltFor key hello.chunkLayout packet datagram := by
  constructor
  · intro h
    obtain ⟨hlt, hlength, htotal, hbytes⟩ := checkPacket_eq_some h
    have hle : hello.chunkLayout.chunkLength packet.sequence ≤ hello.payloadBytes := Nat.min_le_right _ _
    have hself := @received_eq_self hello.chunkLayout datagram (by
      rw [htotal, hlength]
      exact Nat.add_le_add_left hle _)
    rw [hself] at hbytes
    rw [hbytes]
    exact builtFor_sourceWith hb.inRange hlt (hb.offset_lt hlt) hlength
  · rintro ⟨hlt, hlength, source, -, hpayload, hbuilt⟩
    have hpos := hb.payloadBytes_pos
    have hmax := hb.inRange.length_lt
    have hcheck := @checkPacket_buildPacket _ hello.chunkLayout _ _ _ _ _
        ⟨hpos, Nat.lt_of_le_of_lt (Nat.le_add_right _ _) hmax⟩ hbuilt
    rw [hcheck, if_neg (Nat.not_le.2 hlt)]
    exact congrArg (fun payload => some (⟨packet.sequence, packet.repair, payload⟩ : Packet)) hpayload

/-- The multiplication that the checks make never overflows. -/
theorem checkPacket64_eq [Sha256] (hrange : layout.InRange) (bytes : List UInt8) :
    checkPacket64 key layout bytes = .ok (checkPacket key layout bytes) := by
  unfold checkPacket64 checkPacket
  split
  · rfl
  split
  · rfl
  rcases hkind : (bytes[9]?).bind packetKind with _ | repair
  · rfl
  by_cases hbounds : layout.chunks ≤ fromBeBytes ((bytes.drop 1).take 8) ∨
      layout.payloadBytes < fromBeBytes ((bytes.drop 10).take 2) ∨
        bytes.length ≠ headerSize + fromBeBytes ((bytes.drop 10).take 2)
  · simp only [if_pos hbounds]
  have hle : fromBeBytes ((bytes.drop 1).take 8) ≤ layout.chunks := by omega
  have hmul : mul64 (fromBeBytes ((bytes.drop 1).take 8)) layout.payloadBytes =
      .ok (fromBeBytes ((bytes.drop 1).take 8) * layout.payloadBytes) :=
    if_neg (Nat.not_le.2 (hrange.offset_lt _ hle))
  simp only [if_neg hbounds, hmul]
  split
  · rfl
  · exact (apply_ite Except.ok _ _ _).symm

/-! ## The codec -/

/-- For a greeting that is read, the numbers of all chunks fit, the chunks are not empty and make up the
object, and a byte string of any length is taken as a chunk just if it was built for it; any other one
only counts as invalid. -/
theorem packet_codec_exact [Sha256] {line : Str} {hello : Hello} (h : parseHello line = .ok hello)
    (key : Hash) :
    hello.chunkLayout.InRange ∧
      (∀ packet, checkPacket64 key hello.chunkLayout packet =
        .ok (checkPacket key hello.chunkLayout packet)) ∧
      (∀ i < hello.chunks, 1 ≤ hello.chunkLayout.chunkLength i ∧
        hello.chunkLayout.chunkLength i ≤ hello.payloadBytes) ∧
      ((List.range hello.chunks).map hello.chunkLayout.chunkLength).sum = hello.size ∧
      ∀ datagram,
        (∀ packet, checkPacket key hello.chunkLayout (received hello.chunkLayout datagram) = some packet ↔
          BuiltFor key hello.chunkLayout packet datagram) ∧
        ∀ file s,
          (∀ packet, BuiltFor key hello.chunkLayout packet datagram →
            receiveDatagram key hello.chunkLayout file s datagram = do
              let s ← acceptPacket file hello.chunkLayout (s.countValid packet.repair) packet
              return s.raiseHighest packet.sequence) ∧
          ((∀ packet, ¬BuiltFor key hello.chunkLayout packet datagram) →
            receiveDatagram key hello.chunkLayout file s datagram = return s.countInvalid) := by
  obtain ⟨hb, -⟩ := parseHello_ok h
  have hsum := sum_chunkLength hello.chunkLayout hello.chunks
  refine ⟨hb.inRange, checkPacket64_eq hb.inRange,
    fun i hi => ⟨hb.chunkLength_pos hi, Nat.min_le_right _ _⟩,
    hsum.trans (Nat.min_eq_right hb.size_le), fun datagram => ⟨fun packet => checkPacket_iff hb, ?_⟩⟩
  intro file s
  constructor
  · intro packet hbuilt
    rw [receiveDatagram, (checkPacket_iff hb).2 hbuilt]
  · intro hnone
    have hcheck : checkPacket key hello.chunkLayout (received hello.chunkLayout datagram) = none := by
      refine Option.eq_none_iff_forall_not_mem.2 fun packet hpacket => ?_
      exact hnone packet ((checkPacket_iff hb).1 hpacket)
    rw [receiveDatagram, hcheck]

section Example

local instance packetDigest : Sha256 := sha2

theorem packet_codec_exact_single :
    let layout := singleHello.chunkLayout
    let key := Vector.replicate 32 0
    layout.InRange ∧
      (∀ packet, checkPacket64 key layout packet = .ok (checkPacket key layout packet)) ∧
      (∀ i < singleHello.chunks, 1 ≤ layout.chunkLength i ∧
        layout.chunkLength i ≤ singleHello.payloadBytes) ∧
      ((List.range singleHello.chunks).map layout.chunkLength).sum = singleHello.size ∧
      ∀ datagram,
        (∀ packet, checkPacket key layout (received layout datagram) = some packet ↔
          BuiltFor key layout packet datagram) ∧
        ∀ file s,
          (∀ packet, BuiltFor key layout packet datagram →
            receiveDatagram key layout file s datagram = do
              let s ← acceptPacket file layout (s.countValid packet.repair) packet
              return s.raiseHighest packet.sequence) ∧
          ((∀ packet, ¬BuiltFor key layout packet datagram) →
            receiveDatagram key layout file s datagram = return s.countInvalid) :=
  packet_codec_exact parseHello_single _

end Example

end PacketTide
