import PacketTide.FileSystem.Proofs.BytesProofs
import PacketTide.Proofs.BitmapProofs
import PacketTide.Proofs.DiskProofs
import PacketTide.Proofs.HelloProofs

/-!
# Datagrams keep the receiver consistent

The receipts, the counter, the hash and the open file fit together, and every datagram keeps it so: a
chunk is written once, and only beyond what has been hashed.
-/

namespace PacketTide

open Effects FileSystem FS Prog

/-- The receipts, the counter and the hash fit the content of the open file. -/
structure Receiving.Sound (r : UdpReceiver) (content : List UInt8) (s : Receiving) : Prop where
  partPath : s.resume.partPath = partOf r.destination
  mapPath : s.resume.mapPath = mapOf r.destination
  identity : s.resume.identity = r.identity
  bitmap : BitmapFor r.hello.chunks s.resume.bitmap
  count : s.resume.receivedCount = bitmapCount s.resume.bitmap
  size : content.length = r.hello.size
  frontier_le : s.hashFrontier ≤ r.hello.chunks
  received : ∀ i < s.hashFrontier, bitmapContains s.resume.bitmap i = true
  hashed : s.hashed = content.take (min (s.hashFrontier * r.hello.payloadBytes) r.hello.size)

/-! ## The hash frontier -/

theorem frontierFrom_spec (bitmap : Bitmap) (n start : Nat) :
    start ≤ frontierFrom bitmap n start ∧ frontierFrom bitmap n start ≤ start + n ∧
      (∀ i, start ≤ i → i < frontierFrom bitmap n start → bitmapContains bitmap i = true) ∧
      (frontierFrom bitmap n start < start + n →
        bitmapContains bitmap (frontierFrom bitmap n start) = false) := by
  induction n generalizing start with
  | zero =>
    refine ⟨Nat.le_refl _, Nat.le_refl _, ?_, ?_⟩
    · intro i hi hi'
      exact absurd hi' (Nat.not_lt.2 hi)
    · intro h
      exact absurd h (Nat.lt_irrefl _)
  | succ n ih =>
    rw [frontierFrom]
    by_cases hbit : bitmapContains bitmap start = true
    · rw [if_pos hbit]
      obtain ⟨hge, hle, hall, hstop⟩ := ih (start + 1)
      refine ⟨by omega, by omega, ?_, ?_⟩
      · intro i hi hi'
        rcases Nat.eq_or_lt_of_le hi with rfl | hi
        · exact hbit
        · exact hall i hi hi'
      · intro h
        exact hstop (by omega)
    · rw [if_neg hbit]
      refine ⟨Nat.le_refl _, by omega, ?_, ?_⟩
      · intro i hi hi'
        exact absurd hi' (Nat.not_lt.2 hi)
      · intro _
        exact Bool.eq_false_iff.2 hbit

/-- The state after the hash frontier has been advanced. -/
def Receiving.advanced (r : UdpReceiver) (content : List UInt8) (s : Receiving) : Receiving :=
  let stop := frontierFrom s.resume.bitmap (r.hello.chunks - s.hashFrontier) s.hashFrontier
  { s with
    hashFrontier := stop
    hashed := content.take (min (stop * r.hello.payloadBytes) r.hello.size) }

section

variable {r : UdpReceiver} {file : Loc} {content : List UInt8} {s : Receiving} {fs : FS}

theorem Receiving.Sound.advanced (h : s.Sound r content) : (s.advanced r content).Sound r content := by
  obtain ⟨hge, hle, hall, -⟩ := frontierFrom_spec s.resume.bitmap
    (r.hello.chunks - s.hashFrontier) s.hashFrontier
  have hfrontier := h.frontier_le
  refine { h with frontier_le := ?_, received := ?_, hashed := rfl }
  · show frontierFrom _ _ _ ≤ _
    omega
  · intro i hi
    by_cases hlt : i < s.hashFrontier
    · exact h.received i hlt
    · exact hall i (Nat.not_lt.1 hlt) hi

/-- Hashing from one frontier to another extends the hashed part of the content. -/
theorem take_append_range (content : List UInt8) (size : Nat) {start stop : Nat} (h : start ≤ stop) :
    content.take (min start size) ++ (content.drop start).take (min stop size - start) =
      content.take (min stop size) := by
  by_cases hsize : start ≤ size
  · have hsplit : min stop size = start + (min stop size - start) := by omega
    rw [Nat.min_eq_left hsize]
    conv_rhs => rw [hsplit, List.take_add]
  · have hstart : min start size = size := by omega
    have hstop : min stop size = size := by omega
    have hzero : size - start = 0 := by omega
    rw [hstart, hstop, hzero, List.take_zero, List.append_nil]

/-- Advancing the hash frontier never fails and hashes what it passes. -/
theorem run_advance (hb : r.hello.Bounded) (hs : s.Sound r content)
    (hd : OnDisk r.pid r.destination file content fs) :
    ∃ t, (advanceHashFrontier file r.hello.chunkLayout s).run machine fs =
        (.ok (s.advanced r content), t) ∧ t.Looks fs.home fs.view := by
  obtain ⟨hge, hle, -, -⟩ := frontierFrom_spec s.resume.bitmap
    (r.hello.chunks - s.hashFrontier) s.hashFrontier
  have hfrontier := hs.frontier_le
  have hstart := hb.offset_lt_two_pow hfrontier
  have hstop : frontierFrom s.resume.bitmap (r.hello.chunks - s.hashFrontier) s.hashFrontier *
      r.hello.payloadBytes < 2 ^ 64 := hb.offset_lt_two_pow (by omega)
  have hend : min (frontierFrom s.resume.bitmap (r.hello.chunks - s.hashFrontier) s.hashFrontier *
      r.hello.payloadBytes) r.hello.size ≤ content.length := by
    rw [hs.size]
    exact Nat.min_le_right _ _
  obtain ⟨t, hrun, hlooks⟩ := run_hashRange ⟨rfl, rfl⟩ hd.shape hend (Nat.le_refl _) s.hashed
  have hrange := take_append_range content r.hello.size
    (Nat.mul_le_mul_right r.hello.payloadBytes hge)
  rw [← hs.hashed] at hrange
  rw [hrange] at hrun
  refine ⟨t, ?_, hlooks⟩
  have hlt : ¬(2 ^ 64 ≤ s.hashFrontier * r.hello.payloadBytes ∨
      2 ^ 64 ≤ frontierFrom s.resume.bitmap (r.hello.chunks - s.hashFrontier) s.hashFrontier *
        r.hello.payloadBytes) := by
    omega
  have hnext : advanceHashFrontier file r.hello.chunkLayout s = _ := if_neg hlt
  rw [hnext]
  exact run_bind_ok hrun

/-! ## Chunks -/

/-- A valid datagram is about a chunk of the object and has its length. -/
theorem checkPacket_some [Sha256] {key : Hash} {layout : ChunkLayout} {bytes : List UInt8}
    {packet : Packet} (h : checkPacket key layout bytes = some packet) :
    packet.sequence < layout.chunks ∧ packet.payload.length =
      min (layout.size - packet.sequence * layout.payloadBytes) layout.payloadBytes := by
  unfold checkPacket at h
  split at h
  · cases h
  split at h
  · cases h
  dsimp only at h
  split at h
  · cases h
  split at h
  · cases h
  next hbounds =>
    split at h
    · cases h
    split at h
    · cases h
    next hlen =>
      cases h
      obtain ⟨hchunks, hrest⟩ := not_or.1 hbounds
      obtain ⟨-, hlength⟩ := not_or.1 hrest
      refine ⟨Nat.not_le.1 hchunks, ?_⟩
      rw [List.length_drop, not_not.1 hlength, Nat.add_sub_cancel_left]
      exact not_not.1 hlen

/-- The state after the bytes of a new chunk have been written. -/
def Receiving.stored (s : Receiving) (packet : Packet) : Receiving :=
  ((s.countValid packet.repair).countAccepted packet).markReceived packet.sequence

/-- What a datagram does to the variables of the loop and to the content of the open file. -/
inductive Took [Sha256] (r : UdpReceiver) (s : Receiving) (content : List UInt8)
    (datagram : List UInt8) : Receiving → List UInt8 → Prop where
  | invalid (h : checkPacket r.key r.hello.chunkLayout (received r.hello.chunkLayout datagram) = none) :
      Took r s content datagram s.countInvalid content
  | duplicate {packet : Packet}
      (h : checkPacket r.key r.hello.chunkLayout (received r.hello.chunkLayout datagram) = some packet)
      (hbit : bitmapContains s.resume.bitmap packet.sequence = true) :
      Took r s content datagram
        ((s.countValid packet.repair).countDuplicate.raiseHighest packet.sequence) content
  | accepted {packet : Packet} {written : List UInt8} {s' : Receiving}
      (h : checkPacket r.key r.hello.chunkLayout (received r.hello.chunkLayout datagram) = some packet)
      (hbit : bitmapContains s.resume.bitmap packet.sequence = false)
      (hwritten : written = splice (packet.sequence * r.hello.payloadBytes) packet.payload content)
      (hs' : s' = s.stored packet ∨ s' = (s.stored packet).advanced r written) :
      Took r s content datagram (s'.raiseHighest packet.sequence) written

/-- The bytes of a chunk lie inside the object. -/
theorem payload_inside {packet : Packet} (hb : r.hello.Bounded)
    (hsequence : packet.sequence < r.hello.chunks) (hlen : packet.payload.length =
      min (r.hello.size - packet.sequence * r.hello.payloadBytes) r.hello.payloadBytes) :
    packet.sequence * r.hello.payloadBytes + packet.payload.length ≤ r.hello.size := by
  have hlt := hb.offset_lt hsequence
  rw [hlen]
  omega

/-- A chunk that is missing lies beyond what has been hashed. -/
theorem Receiving.Sound.frontier_le_of_missing (h : s.Sound r content) {sequence : Nat}
    (hbit : bitmapContains s.resume.bitmap sequence = false) : s.hashFrontier ≤ sequence := by
  by_contra hlt
  rw [h.received sequence (Nat.not_le.1 hlt)] at hbit
  cases hbit

theorem Receiving.Sound.stored {packet : Packet} (hb : r.hello.Bounded) (h : s.Sound r content)
    (hsequence : packet.sequence < r.hello.chunks)
    (hlen : packet.payload.length =
      min (r.hello.size - packet.sequence * r.hello.payloadBytes) r.hello.payloadBytes)
    (hbit : bitmapContains s.resume.bitmap packet.sequence = false) :
    (s.stored packet).Sound r
      (splice (packet.sequence * r.hello.payloadBytes) packet.payload content) := by
  have hinside := payload_inside hb hsequence hlen
  rw [← h.size] at hinside
  have hplace := h.bitmap.place_lt hsequence
  have hoffset : s.hashFrontier * r.hello.payloadBytes ≤
      packet.sequence * r.hello.payloadBytes :=
    Nat.mul_le_mul_right _ (h.frontier_le_of_missing hbit)
  refine ⟨h.partPath, h.mapPath, h.identity, h.bitmap.insert hsequence, ?_, ?_, h.frontier_le, ?_,
    ?_⟩
  · show s.resume.receivedCount + 1 = _
    rw [h.count]
    exact (bitmapCount_bitmapInsert hplace hbit).symm
  · rw [length_splice hinside, h.size]
  · intro i hi
    exact bitmapContains_insert_of (h.received i hi)
  · have hkeep : ((splice (packet.sequence * r.hello.payloadBytes) packet.payload content).drop 0).take
          (min (s.hashFrontier * r.hello.payloadBytes) r.hello.size) =
        (content.drop 0).take (min (s.hashFrontier * r.hello.payloadBytes) r.hello.size) :=
      range_splice_of_disjoint hinside (Or.inl (by omega))
    rw [List.drop_zero, List.drop_zero] at hkeep
    exact h.hashed.trans hkeep.symm

theorem Receiving.Sound.raiseHighest (h : s.Sound r content) (sequence : Nat) :
    (s.raiseHighest sequence).Sound r content := { h with }

/-- A datagram keeps the receiver sound. -/
theorem Took.sound [Sha256] {datagram content' : List UInt8} {s' : Receiving} (hb : r.hello.Bounded)
    (hs : s.Sound r content) (h : Took r s content datagram s' content') : s'.Sound r content' := by
  cases h with
  | invalid _ => exact { hs with }
  | duplicate _ _ => exact { hs with }
  | accepted h hbit hwritten hs' =>
    obtain ⟨hsequence, hlen⟩ := checkPacket_some h
    have hstored := hs.stored hb hsequence hlen hbit
    rw [← hwritten] at hstored
    rcases hs' with rfl | rfl
    · exact hstored.raiseHighest _
    · exact hstored.advanced.raiseHighest _

/-- The loop takes every datagram. -/
theorem run_receiveDatagram [Sha256] (hb : r.hello.Bounded) (hs : s.Sound r content)
    (hd : OnDisk r.pid r.destination file content fs) (datagram : List UInt8) :
    ∃ s' content' t, (receiveDatagram r.key r.hello.chunkLayout file s datagram).run machine fs =
        (.ok s', t) ∧ Took r s content datagram s' content' ∧
      t.Looks fs.home (Function.update fs.view file (some (.file content'))) := by
  have hsame : fs.Looks fs.home (Function.update fs.view file (some (.file content))) := by
    rw [← hd.shape, Function.update_eq_self]
    exact ⟨rfl, rfl⟩
  unfold receiveDatagram
  rcases hcheck : checkPacket r.key r.hello.chunkLayout (received r.hello.chunkLayout datagram) with
    _ | packet
  · exact ⟨_, content, fs, rfl, .invalid hcheck, hsame⟩
  obtain ⟨hsequence, hlen⟩ := checkPacket_some hcheck
  dsimp only
  unfold acceptPacket
  rcases hbit : bitmapContains s.resume.bitmap packet.sequence with _ | _
  · obtain ⟨t, hwrite, ht⟩ := hd.write (packet.sequence * r.hello.payloadBytes) packet.payload
    have hstored := hs.stored hb hsequence hlen hbit
    have hnew : bitmapContains (s.countValid packet.repair).resume.bitmap packet.sequence = false :=
      hbit
    rw [if_pos hnew]
    by_cases hadvance : (s.stored packet).resume.receivedCount % 64 = 0 ∨
        packet.repair ∧ packet.sequence = (s.stored packet).hashFrontier
    · obtain ⟨u, hrun, hu⟩ := run_advance hb hstored (hd.holds ht)
      refine ⟨_, _, u, ?_, .accepted hcheck hbit rfl (Or.inr rfl), hu.1.trans ht.1, hu.2.trans ht.2⟩
      refine (run_bind_ok (a := (s.stored packet).advanced r _) (t := u) ?_).trans rfl
      refine (run_ask_ok hwrite).trans ?_
      exact (congrArg (fun p : FsProg Receiving => p.run machine t) (if_pos hadvance)).trans hrun
    · refine ⟨_, _, t, ?_, .accepted hcheck hbit rfl (Or.inl rfl), ht⟩
      refine (run_bind_ok (a := s.stored packet) (t := t) ?_).trans rfl
      refine (run_ask_ok hwrite).trans ?_
      exact congrArg (fun p : FsProg Receiving => p.run machine t) (if_neg hadvance)
  · have hold : ¬bitmapContains (s.countValid packet.repair).resume.bitmap packet.sequence = false := by
      show ¬bitmapContains s.resume.bitmap packet.sequence = false
      rw [hbit]
      decide
    rw [if_neg hold]
    exact ⟨_, content, fs, rfl, .duplicate hcheck hbit, hsame⟩

end

end PacketTide
