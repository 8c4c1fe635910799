import PacketTide.BinaryChecks
import PacketTide.Proofs.FreshnessProofs
import PacketTide.Proofs.HandshakeProofs
import PacketTide.Proofs.HelloProofs
import PacketTide.Proofs.ManifestProofs
import PacketTide.Sha2

/-!
# Attainable hashes

Greetings are decoded with upper-case digits and signs, but hashes are compared as lower-case text. A
greeting asks for something that can be received exactly if its hash is written in lower-case digits.
-/

namespace PacketTide

open Effects FileSystem Prog Text

variable {hello : Hello} {bytes : List UInt8}

namespace Auth

/-- A text that is decoded is the text of its bytes exactly if it has only lower-case digits. -/
theorem hex_eq_iff {value : Str} {n : Nat} (h : decodeArray n value = .ok bytes) :
    value = hex bytes ↔ value.all isLowerHexDigit = true := by
  constructor
  · rintro rfl
    exact List.all_eq_true.2 fun b hb => isLowerHexDigit_of_mem_hex hb
  · intro hlower
    have hlength : value.length = n * 2 := by
      unfold decodeArray at h
      split at h
      · cases h
      next hlen => exact not_not.1 hlen
    have hvalue := hex_hexPairs value (by omega) hlower
    have hpairs : (hexPairs value).length = n := by
      have htwice := length_hex (hexPairs value)
      rw [hvalue, hlength] at htwice
      omega
    have hdecoded := decodeArray_hex hpairs
    rw [hvalue, h] at hdecoded
    rw [Except.ok.inj hdecoded, hvalue]

end Auth

theorem identity_of_decoded (hb : hello.Bounded) (h : Auth.decodeArray 32 hello.hash = .ok bytes) :
    ∃ id, hello.identity = some id ∧ id.hash.bytes = bytes := by
  have hlength : bytes.toArray.size = 32 := Auth.length_decodeArray h
  have hpayload : maxUdpPayloadBytes < 2 ^ 64 := by decide
  have hchunks : maxChunks < 2 ^ 64 := by decide
  have hle := hb.payloadBytes_le
  have hle' := hb.chunks_le
  refine ⟨⟨hello.size, hello.chunks, hello.payloadBytes, ⟨bytes.toArray, hlength⟩, hb.size_lt, by omega,
    by omega⟩, ?_, rfl⟩
  unfold Hello.identity
  rw [h]
  exact dif_pos ⟨hlength, hb.size_lt, by omega, by omega⟩

/-- Texts and bytes agree on every hash if they agree on the one that is announced. -/
theorem hex_eq_hash_iff (h : hello.hash = hex bytes) (digest : Hash) :
    hex digest.bytes = hello.hash ↔ digest.bytes = bytes := by
  rw [h]
  exact ⟨Auth.hex_injective, fun heq => by rw [heq]⟩

section

variable [Sha256]

theorem holdsObject_eq (h : hello.hash = hex bytes) (destination : Path) :
    holdsObject destination hello = ByBytes.holdsObject bytes destination hello.size := by
  unfold holdsObject ByBytes.holdsObject
  congr 1
  funext found
  cases found with
  | error e => rfl
  | ok metadata => simp only [hex_eq_hash_iff h]

theorem completeTcp_eq (h : hello.hash = hex bytes) (temporary destination : Path) (file : Loc)
    (hashed : List UInt8) (answer : Except AnyError Str) :
    completeTcp temporary destination hello file hashed answer =
      ByBytes.completeTcp bytes temporary destination file hashed answer := by
  unfold completeTcp ByBytes.completeTcp
  simp only [ne_eq, hex_eq_hash_iff h, ite_not]

theorem completeTcp4_eq (h : hello.hash = hex bytes) (temporary destination : Path) (file : Loc)
    (answer : Except AnyError Str) :
    completeTcp4 temporary destination hello file answer =
      ByBytes.completeTcp4 bytes temporary destination file answer := by
  unfold completeTcp4 ByBytes.completeTcp4
  simp only [ne_eq, hex_eq_hash_iff h, ite_not]

theorem completeReceiving_eq {r : UdpReceiver} (h : r.hello.hash = hex bytes) (file : Loc) (s : Receiving)
    (socketDrops : Option Nat) :
    completeReceiving r file s socketDrops =
      ByBytes.completeReceiving bytes r file s socketDrops := by
  unfold completeReceiving ByBytes.completeReceiving
  congr 1
  funext s'
  by_cases hgap : s'.hashFrontier ≠ r.hello.chunks
  · rw [if_pos hgap, if_pos hgap]
  · rw [if_neg hgap, if_neg hgap]
    simp only [ne_eq, hex_eq_hash_iff h, ite_not]

/-- The hash of an accepted greeting is attainable exactly if it is written in lower-case digits. -/
theorem attainable_iff {line : Str} (h : parseHello line = .ok hello) :
    ∃ bytes, Auth.decodeArray 32 hello.hash = .ok bytes ∧
      (Attainable hello bytes ↔ hello.hash.all isLowerHexDigit = true) := by
  obtain ⟨hbounded, bytes, hbytes⟩ := parseHello_ok h
  refine ⟨bytes, hbytes, fun ha => (Auth.hex_eq_iff hbytes).1 ha.text, fun hlower => ?_⟩
  have htext := (Auth.hex_eq_iff hbytes).2 hlower
  refine ⟨htext, identity_of_decoded hbounded hbytes, holdsObject_eq htext, completeTcp_eq htext,
    completeTcp4_eq htext, ?_⟩
  rintro r file s socketDrops rfl
  exact completeReceiving_eq htext file s socketDrops

end

namespace Sample

/-- The greeting of an empty file, with a hash as it may be spelled. -/
def greetingWith (hash : Str) : Str :=
  [space].intercalate [ascii "UDP", ascii "0", hash, hex (List.replicate 16 0), ascii "0", ascii "256",
    ascii "50", ascii "125", ascii "R0"]

def lowerHash : Str := hex (List.replicate 32 0xAB)

def upperHash : Str := (List.replicate 32 (ascii "AB")).flatten

end Sample

section Example

open Sample

local instance checkedDigest : Sha256 := sha2

theorem attainable_lower : ∃ hello bytes, parseHello (greetingWith lowerHash) = .ok hello ∧
    Auth.decodeArray 32 hello.hash = .ok bytes ∧
    (Attainable hello bytes ↔ hello.hash.all isLowerHexDigit = true) := by
  have hok : (parseHello (greetingWith lowerHash)).isOk = true := by decide +kernel
  cases hparse : parseHello (greetingWith lowerHash) with
  | error stop =>
    rw [hparse] at hok
    cases hok
  | ok hello =>
    obtain ⟨bytes, hbytes, hiff⟩ := attainable_iff hparse
    exact ⟨hello, bytes, rfl, hbytes, hiff⟩

/-- A greeting with a hash in upper case is accepted and can never be satisfied. -/
theorem not_attainable :
    ¬ ∀ (line : Str) (hello : Hello), parseHello line = .ok hello →
      ∃ bytes, Auth.decodeArray 32 hello.hash = .ok bytes ∧ Attainable hello bytes := by
  intro hall
  have hhash : (parseHello (greetingWith upperHash)).toOption.map Hello.hash = some upperHash := by
    decide +kernel
  cases hparse : parseHello (greetingWith upperHash) with
  | error stop =>
    rw [hparse] at hhash
    cases hhash
  | ok hello =>
    rw [hparse] at hhash
    have hupper : hello.hash = upperHash := Option.some.inj hhash
    obtain ⟨bytes, hbytes, hattainable⟩ := hall _ hello hparse
    have hlower := (Auth.hex_eq_iff hbytes).1 hattainable.text
    rw [hupper] at hlower
    exact absurd hlower (by decide +kernel)

end Example

end PacketTide
