import PacketTide.Proofs.ManifestProofs
import PacketTide.ReceiveLoop

/-!
# What an accepted greeting says
-/

namespace PacketTide

open FileSystem Text

/-- The numbers of a greeting that is accepted. -/
structure Hello.Bounded (hello : Hello) : Prop where
  size_lt : hello.size < 2 ^ 64
  payloadBytes_ge : minUdpPayloadBytes ≤ hello.payloadBytes
  payloadBytes_le : hello.payloadBytes ≤ maxUdpPayloadBytes
  reportInterval_ge : minReportInterval ≤ hello.reportInterval
  chunks_eq : hello.chunks = (hello.size + hello.payloadBytes - 1) / hello.payloadBytes
  chunks_le : hello.chunks ≤ maxChunks
  repairGrace_ge : hello.reportInterval ≤ hello.repairGrace

theorem canonicalUnsigned_lt {message : String} {value : Str} {n : Nat}
    (h : canonicalUnsigned message value = .ok n) : n < 2 ^ 64 := by
  unfold canonicalUnsigned at h
  split at h
  · cases h
  · unfold parseUnsigned at h
    rcases hv : (if ((stripPrefix [43] value).getD value).isEmpty = true then none
        else (digitsValue 10 ((stripPrefix [43] value).getD value)).filter (· < 2 ^ 64)) with _ | m
    · rw [hv] at h
      cases h
    · rw [hv] at h
      cases h
      split at hv
      · cases hv
      · exact of_decide_eq_true (Option.filter_eq_some_iff.1 hv).2

theorem ofCheck_ok {α : Type} {r : Check α} {a : α} (h : ofCheck r = .ok a) : r = .ok a := by
  rcases r with e | a'
  · cases h
  · cases h
    rfl

theorem checkHello_ok {hello : Hello} {u : Unit} (h : checkHello hello = .ok u)
    (hsize : hello.size < 2 ^ 64) : hello.Bounded := by
  obtain ⟨_, hpayload, h⟩ := except_bind_ok h
  obtain ⟨_, hinterval, h⟩ := except_bind_ok h
  obtain ⟨_, hchunks, h⟩ := except_bind_ok h
  obtain ⟨_, hmax, h⟩ := except_bind_ok h
  obtain ⟨_, hgrace, -⟩ := except_bind_ok h
  have hpayload := refuseIf_ok hpayload
  have hinterval := refuseIf_ok hinterval
  have hchunks := refuseIf_ok hchunks
  have hmax := refuseIf_ok hmax
  have hgrace := refuseIf_ok hgrace
  exact ⟨hsize, by omega, by omega, by omega, not_not.1 hchunks, by omega, by omega⟩

/-- A greeting that is parsed is bounded, and its hash can be decoded. -/
theorem parseHello_ok {line : Str} {hello : Hello} (h : parseHello line = .ok hello) :
    hello.Bounded ∧ ∃ bytes, Auth.decodeArray 32 hello.hash = .ok bytes := by
  unfold parseHello at h
  split at h
  next transport size hash session chunks payloadBytes reportInterval repairGrace reuse _ =>
    split at h
    · cases h
    obtain ⟨_, -, h⟩ := except_bind_ok h
    obtain ⟨_, -, h⟩ := except_bind_ok h
    obtain ⟨sizeValue, hsize, h⟩ := except_bind_ok h
    obtain ⟨_, -, h⟩ := except_bind_ok h
    obtain ⟨_, -, h⟩ := except_bind_ok h
    obtain ⟨_, -, h⟩ := except_bind_ok h
    obtain ⟨_, -, h⟩ := except_bind_ok h
    obtain ⟨_, -, h⟩ := except_bind_ok h
    obtain ⟨bytes, hbytes, h⟩ := except_bind_ok h
    obtain ⟨_, hcheck, h⟩ := except_bind_ok h
    cases h
    exact ⟨checkHello_ok (ofCheck_ok hcheck) (canonicalUnsigned_lt (ofCheck_ok hsize)), bytes, hbytes⟩
  next => cases h

namespace Hello.Bounded

variable {hello : Hello}

theorem payloadBytes_pos (h : hello.Bounded) : 0 < hello.payloadBytes :=
  Nat.lt_of_lt_of_le (by decide) h.payloadBytes_ge

/-- The chunks cover the object. -/
theorem size_le (h : hello.Bounded) : hello.size ≤ hello.chunks * hello.payloadBytes := by
  have hpos := h.payloadBytes_pos
  have hdiv := Nat.div_add_mod (hello.size + hello.payloadBytes - 1) hello.payloadBytes
  have hmod := Nat.mod_lt (hello.size + hello.payloadBytes - 1) hpos
  rw [← h.chunks_eq, Nat.mul_comm] at hdiv
  omega

/-- Every chunk begins inside the object. -/
theorem offset_lt (h : hello.Bounded) {i : Nat} (hi : i < hello.chunks) :
    i * hello.payloadBytes < hello.size := by
  have hpos := h.payloadBytes_pos
  have hdiv := Nat.div_add_mod (hello.size + hello.payloadBytes - 1) hello.payloadBytes
  rw [← h.chunks_eq, Nat.mul_comm] at hdiv
  have hle : (i + 1) * hello.payloadBytes ≤ hello.chunks * hello.payloadBytes :=
    Nat.mul_le_mul_right _ hi
  rw [Nat.succ_mul] at hle
  omega

/-- Offsets within the chunks are far from the end of the numbers of 64 bits. -/
theorem offset_lt_two_pow (h : hello.Bounded) {i : Nat} (hi : i ≤ hello.chunks) :
    i * hello.payloadBytes < 2 ^ 64 := by
  have hle : i * hello.payloadBytes ≤ maxChunks * maxUdpPayloadBytes :=
    Nat.mul_le_mul (Nat.le_trans hi h.chunks_le) h.payloadBytes_le
  exact Nat.lt_of_le_of_lt hle (by decide)

theorem chunks_lt (h : hello.Bounded) : hello.chunks < 2 ^ 64 :=
  Nat.lt_of_le_of_lt h.chunks_le (by decide)

end Hello.Bounded

/-- The object of a greeting has its numbers. -/
theorem identity_fields {hello : Hello} {id : Identity} (h : hello.identity = some id) :
    id.size = hello.size ∧ id.chunks = hello.chunks ∧ id.payloadBytes = hello.payloadBytes := by
  unfold Hello.identity at h
  split at h
  · cases h
  · split at h
    · cases h
      exact ⟨rfl, rfl, rfl⟩
    · cases h

end PacketTide
