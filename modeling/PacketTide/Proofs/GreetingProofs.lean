import PacketTide.Proofs.HelloProofs
import PacketTide.Proofs.RoundTripProofs
import PacketTide.Proofs.SessionProofs

/-!
# Greetings are read as they were meant

A greeting of a sender is parsed to what the sender has put into it, unless one of its numbers is out of
bounds.
-/

namespace PacketTide

open Text

theorem except_bind_iff {ε α β : Type} {x : Except ε α} {f : α → Except ε β} {b : β} :
    (x >>= f) = .ok b ↔ ∃ a, x = .ok a ∧ f a = .ok b := by
  constructor
  · exact except_bind_ok
  · rintro ⟨a, rfl, h⟩
    exact h

theorem ofCheck_iff {α : Type} {r : Check α} {a : α} : ofCheck r = .ok a ↔ r = .ok a := by
  constructor
  · exact ofCheck_ok
  · rintro rfl
    rfl

theorem refuseIf_iff {c : Prop} [Decidable c] {message : String} {u : Unit} :
    refuseIf c message = .ok u ↔ ¬c := by
  constructor
  · exact refuseIf_ok
  · exact refuseIf_of_not

/-- The bounds of a receiver. -/
theorem checkHello_iff {hello : Hello} {u : Unit} :
    checkHello hello = .ok u ↔
      (minUdpPayloadBytes ≤ hello.payloadBytes ∧ hello.payloadBytes ≤ maxUdpPayloadBytes) ∧
      (minReportInterval ≤ hello.reportInterval ∧ hello.reportInterval ≤ maxReportInterval) ∧
      hello.chunks = (hello.size + hello.payloadBytes - 1) / hello.payloadBytes ∧
      hello.chunks ≤ maxChunks ∧
      (hello.reportInterval ≤ hello.repairGrace ∧ hello.repairGrace ≤ maxRepairGrace) ∧
      (hello.reuseManifest.isSome → hello.transport = .udp) := by
  simp only [checkHello, except_bind_iff, refuseIf_iff, exists_const, not_or, Nat.not_lt, not_not, not_and]

/-- A number is read back as it was written. -/
theorem canonicalUnsigned_decimal_iff {message : String} {n m : Nat} :
    canonicalUnsigned message (decimal n) = .ok m ↔ n < 2 ^ 64 ∧ m = n := by
  constructor
  · intro h
    have hne : (decimal n).isEmpty = false := List.isEmpty_eq_false_iff.2 (decimal_ne_nil n)
    have hprefix : (stripPrefix [43] (decimal n)).getD (decimal n) = decimal n := by
      rw [stripPrefix_decimal (by decide), Option.getD_none]
    by_cases hlt : n < 2 ^ 64
    · rw [canonicalUnsigned_decimal message hlt] at h
      cases h
      exact ⟨hlt, rfl⟩
    · unfold canonicalUnsigned at h
      split at h
      · cases h
      · rw [parseUnsigned, hprefix, hne, digitsValue_decimal] at h
        simp only [Bool.false_eq_true, if_false, Option.filter_some, decide_eq_true_eq, hlt] at h
        cases h
  · rintro ⟨hlt, rfl⟩
    exact canonicalUnsigned_decimal message hlt

namespace SendGreeting

/-- What a receiver makes of a greeting. -/
def heard (g : SendGreeting) : Hello where
  transport := g.transport
  size := g.size
  hash := hex g.expectedHash.bytes
  session := g.offeredSession.toList
  chunks := g.chunks
  payloadBytes := g.payloadBytes
  reportInterval := g.reportInterval
  repairGrace := g.repairGrace
  reuseManifest := g.reuse

/-- The numbers of a greeting fit into their types. -/
structure Typed (g : SendGreeting) : Prop where
  size_lt : g.size < 2 ^ 64
  chunks_lt : g.chunks < 2 ^ 64
  payloadBytes_lt : g.payloadBytes < 2 ^ 64
  reportInterval_lt : g.reportInterval < 2 ^ 64
  repairGrace_lt : g.repairGrace < 2 ^ 64
  reuse_le : ∀ r ∈ g.reuse, r.1 ≤ Cdc.maxChunks

variable {g : SendGreeting} {hello : Hello}

theorem fields_graphic (g : SendGreeting) : ∀ f ∈ g.fields, Graphic f ∧ f ≠ [] := by
  have hdecimal : ∀ n, Graphic (decimal n) ∧ decimal n ≠ [] := fun n => ⟨graphic_decimal n, decimal_ne_nil n⟩
  have hhex : ∀ {bytes : List UInt8} {n : Nat}, bytes.length = n + 1 → Graphic (hex bytes) ∧ hex bytes ≠ [] := by
    intro bytes n hlen
    refine ⟨graphic_hex bytes, fun hnil => ?_⟩
    have htwice := length_hex bytes
    rw [hnil, hlen, List.length_nil] at htwice
    omega
  have hwire : Graphic g.transport.wireName ∧ g.transport.wireName ≠ [] := by
    cases g.transport <;> exact ⟨by unfold Graphic; decide +kernel, by decide⟩
  have hreuse : ∀ f ∈ reuseGreeting g.reuse, Graphic f ∧ f ≠ [] := by
    rcases g.reuse with _ | ⟨count, hash⟩
    · exact List.forall_mem_singleton.2 ⟨by unfold Graphic; decide +kernel, by decide⟩
    · exact List.forall_mem_cons.2 ⟨⟨by unfold Graphic; decide +kernel, by decide⟩, List.forall_mem_cons.2
        ⟨hdecimal count, List.forall_mem_singleton.2 (hhex (length_hash_bytes hash))⟩⟩
  intro f hf
  rcases List.mem_append.1 hf with hf | hf
  · simp only [List.mem_cons, List.not_mem_nil, or_false] at hf
    rcases hf with rfl | rfl | rfl | rfl | rfl | rfl | rfl | rfl
    · exact hwire
    · exact hdecimal _
    · exact hhex (length_hash_bytes _)
    · exact hhex g.offeredSession.length_toList
    · exact hdecimal _
    · exact hdecimal _
    · exact hdecimal _
    · exact hdecimal _
  · exact hreuse f hf

theorem parseTransport_wireName (t : Transport) : parseTransport t.wireName = .ok t := by
  cases t <;> decide

theorem parseReuse_greeting {reuse found : Option (Nat × Hash)} :
    parseReuse (reuseGreeting reuse) = .ok found ↔ (∀ r ∈ reuse, r.1 ≤ Cdc.maxChunks) ∧ found = reuse := by
  rcases reuse with _ | ⟨count, hash⟩
  · have hplain : parseReuse (reuseGreeting none) = .ok none := rfl
    rw [hplain, Except.ok.injEq]
    simp [eq_comm]
  · have hmax : Cdc.maxChunks < 2 ^ 64 := by decide
    have hdecode : Auth.decodeArray 32 (hex hash.bytes) = .ok hash.bytes :=
      Auth.decodeArray_hex (length_hash_bytes hash)
    have hsize : hash.bytes.toArray.size = 32 := by simp [Hash.bytes]
    have hhash : (⟨hash.bytes.toArray, hsize⟩ : Hash) = hash := rfl
    rw [reuseGreeting, parseReuse, if_neg (not_not.2 rfl)]
    simp only [except_bind_iff, ofCheck_iff, parseCanonicalU64, canonicalUnsigned_decimal_iff, refuseIf_iff,
      hdecode, Except.ok.injEq, exists_eq_left', dif_pos hsize, hhash]
    constructor
    · rintro ⟨m, ⟨-, rfl⟩, -, hle, hfound⟩
      refine ⟨fun r hr => ?_, (Except.ok.inj hfound).symm⟩
      cases hr
      exact Nat.not_lt.1 hle
    · rintro ⟨hle, rfl⟩
      have hcount := hle _ rfl
      exact ⟨count, ⟨by omega, rfl⟩, (), Nat.not_lt.2 hcount, rfl⟩

/-- A greeting is read unless a number in it is out of bounds. -/
theorem parseHello_iff :
    parseHello g.hello = .ok hello ↔ g.Typed ∧ checkHello g.heard = .ok () ∧ hello = g.heard := by
  have hsession := Auth.decodeArray_hex g.offeredSession.length_toList
  have hhash := Auth.decodeArray_hex (length_hash_bytes g.expectedHash)
  have hne : reuseGreeting g.reuse ≠ [] := by
    rcases g.reuse with _ | ⟨count, hash⟩ <;> exact List.cons_ne_nil _ _
  rw [SendGreeting.hello, parseHello, splitWhitespace_fields g.fields_graphic, SendGreeting.fields]
  simp only [List.cons_append, List.nil_append, if_neg hne, except_bind_iff, ofCheck_iff,
    parseTransport_wireName, parseReuse_greeting, parseCanonicalU64, canonicalUnsigned_decimal_iff,
    hsession, hhash, Except.ok.injEq, exists_eq_left']
  constructor
  · rintro ⟨_, ⟨hreuse, rfl⟩, _, ⟨hsize, rfl⟩, _, ⟨hchunks, rfl⟩, _, ⟨hpayload, rfl⟩, _, ⟨hinterval, rfl⟩, _,
      ⟨hgrace, rfl⟩, u, hcheck, hhello⟩
    exact ⟨⟨hsize, hchunks, hpayload, hinterval, hgrace, hreuse⟩, hcheck, (Except.ok.inj hhello).symm⟩
  · rintro ⟨ht, hcheck, rfl⟩
    exact ⟨_, ⟨ht.reuse_le, rfl⟩, _, ⟨ht.size_lt, rfl⟩, _, ⟨ht.chunks_lt, rfl⟩, _, ⟨ht.payloadBytes_lt, rfl⟩, _,
      ⟨ht.reportInterval_lt, rfl⟩, _, ⟨ht.repairGrace_lt, rfl⟩, (), hcheck, rfl⟩

end SendGreeting

end PacketTide
