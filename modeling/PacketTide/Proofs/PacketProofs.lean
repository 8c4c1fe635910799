import PacketTide.Packet
import PacketTide.Proofs.SessionProofs

/-!
# Datagrams are read back

The datagram that is built for a chunk passes all checks of the receiver, which reads from it what was
put into it.
-/

namespace PacketTide

open FileSystem Text

variable {key : Hash} {layout : ChunkLayout} {source : List UInt8} {sequence : Nat} {repair : Bool}

/-- The bytes of a chunk of a source. -/
def ChunkLayout.payload (layout : ChunkLayout) (source : List UInt8) (sequence : Nat) : List UInt8 :=
  (source.drop (sequence * layout.payloadBytes)).take
    (min (layout.size - sequence * layout.payloadBytes) layout.payloadBytes)

theorem fromBeBytes_toBeBytes16 {n : Nat} (h : n < 2 ^ 16) : fromBeBytes (toBeBytes16 n) = n := by
  have hk := fromBeBytes_positions n 2
  rw [Nat.mod_eq_of_lt (by omega)] at hk
  exact hk

theorem length_packetHeader (sequence : Nat) (repair : Bool) (n : Nat) :
    (packetHeader sequence repair n).length = 12 := rfl

theorem length_udpTagParts [Sha256] (header payload : List UInt8) :
    (udpTagParts key header payload).length = 16 := by
  unfold udpTagParts
  rw [List.length_take, Hash.bytes, Vector.length_toList]
  rfl

/-- What a built datagram looks like. -/
theorem buildPacket_ok [Sha256] {packet : List UInt8}
    (h : buildPacket source layout.size key sequence repair layout.payloadBytes = .ok packet) :
    sequence * layout.payloadBytes < 2 ^ 64 ∧
      (layout.payload source sequence).length =
        min (layout.size - sequence * layout.payloadBytes) layout.payloadBytes ∧
      packet = packetHeader sequence repair (layout.payload source sequence).length ++
        (udpTagParts key (packetHeader sequence repair (layout.payload source sequence).length)
          (layout.payload source sequence) ++ layout.payload source sequence) := by
  unfold buildPacket at h
  dsimp only at h
  split at h
  · cases h
  next hoffset =>
    split at h
    · cases h
    · split at h
      · cases h
      next hlen =>
        have hexact : (layout.payload source sequence).length =
            min (layout.size - sequence * layout.payloadBytes) layout.payloadBytes :=
          Nat.le_antisymm (List.length_take_le _ _) (Nat.not_lt.1 hlen)
        refine ⟨Nat.not_le.1 hoffset, hexact, ?_⟩
        rw [hexact]
        exact (Except.ok.inj h).symm

/-- The receiver reads from a datagram the chunk that it was built for, if there is that chunk. -/
theorem checkPacket_buildPacket [Sha256] {packet : List UInt8}
    (hpayload : 0 < layout.payloadBytes ∧ layout.payloadBytes < 2 ^ 16)
    (h : buildPacket source layout.size key sequence repair layout.payloadBytes = .ok packet) :
    checkPacket key layout (received layout packet) =
      if layout.chunks ≤ sequence then none
      else some ⟨sequence, repair, layout.payload source sequence⟩ := by
  obtain ⟨hoffset, hlen, rfl⟩ := buildPacket_ok h
  have hle : (layout.payload source sequence).length ≤ layout.payloadBytes :=
    hlen ▸ Nat.min_le_right _ _
  generalize hbytes : layout.payload source sequence = payload at *
  have hnumber : sequence < 2 ^ 64 :=
    Nat.lt_of_le_of_lt (Nat.le_mul_of_pos_right _ hpayload.1) hoffset
  generalize htag : udpTagParts key (packetHeader sequence repair payload.length) payload = tag
  have htaglen : tag.length = 16 := htag ▸ length_udpTagParts _ _
  have hheader := length_packetHeader sequence repair payload.length
  have hpacketlen : (packetHeader sequence repair payload.length ++ (tag ++ payload)).length =
      headerSize + payload.length := by
    rw [List.length_append, List.length_append, hheader, htaglen, headerSize]
    omega
  have hreceived : received layout (packetHeader sequence repair payload.length ++ (tag ++ payload)) =
      packetHeader sequence repair payload.length ++ (tag ++ payload) :=
    List.take_of_length_le (by rw [hpacketlen]; omega)
  have hhead : (packetHeader sequence repair payload.length ++ (tag ++ payload)).head? =
      some packetVersion := rfl
  have hsequence : fromBeBytes
      (((packetHeader sequence repair payload.length ++ (tag ++ payload)).drop 1).take 8) = sequence :=
    fromBeBytes_toBeBytes hnumber
  have hkind : ((packetHeader sequence repair payload.length ++ (tag ++ payload))[9]?).bind packetKind =
      some repair := by
    cases repair <;> rfl
  have hlength : fromBeBytes
      (((packetHeader sequence repair payload.length ++ (tag ++ payload)).drop 10).take 2) =
        payload.length :=
    fromBeBytes_toBeBytes16 (by omega)
  have htake : (packetHeader sequence repair payload.length ++ (tag ++ payload)).take 12 =
      packetHeader sequence repair payload.length := List.take_left' hheader
  have hdrop : (packetHeader sequence repair payload.length ++ (tag ++ payload)).drop headerSize =
      payload := by
    rw [← List.append_assoc]
    exact List.drop_left' (by rw [List.length_append, hheader, htaglen]; rfl)
  have hmiddle : ((packetHeader sequence repair payload.length ++ (tag ++ payload)).drop 12).take 16 =
      tag := by
    rw [List.drop_left' hheader]
    exact List.take_left' htaglen
  have hbounds : (layout.chunks ≤ sequence ∨ layout.payloadBytes < payload.length ∨
      headerSize + payload.length ≠ headerSize + payload.length) ↔ layout.chunks ≤ sequence := by
    omega
  have hverify : verifyUdpTagParts key (packetHeader sequence repair payload.length) payload tag =
      true := by
    rw [verifyUdpTagParts, htag]
    exact Auth.constantTimeEq_self tag
  unfold checkPacket
  rw [hreceived]
  simp only [hpacketlen, hhead, hsequence, hkind, hlength, htake, hdrop, hmiddle, hverify, hbounds]
  rw [if_neg (by omega), if_neg (not_not.2 rfl)]
  split
  · rfl
  · rw [if_neg Bool.true_eq_false.mp, if_neg (not_not.2 hlen)]

end PacketTide
