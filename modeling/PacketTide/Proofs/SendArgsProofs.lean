import PacketTide.Proofs.CdcProofs
import PacketTide.Proofs.GreetingProofs
import PacketTide.Proofs.InstalledProofs
import PacketTide.SendArgs

/-!
# What senders may propose

The greeting that `send` builds from its arguments is read by a receiver as it was meant exactly if the
repair cooldown is below 120002 milliseconds: the sender does not bound this option, and the receiver
bounds what follows from it.
-/

namespace PacketTide

open Text

section

variable [Surroundings] {arguments : List Str} {args : SendArgs}

omit [Surroundings] in
@[simp]
theorem asMillis_millis (n : Nat) : asMillis (millis n) = n := by
  unfold asMillis millis
  omega

/-! ## Accepted arguments -/

omit [Surroundings] in
theorem parseUdpPayloadBytes_range {n : Nat} (h : parseUdpPayloadBytes arguments = .ok n) :
    minUdpPayloadBytes ≤ n ∧ n ≤ maxUdpPayloadBytes := by
  obtain ⟨value, -, h⟩ := except_bind_ok h
  obtain ⟨_, hrange, h⟩ := except_bind_ok h
  have hrange := refuseIf_ok hrange
  cases h
  push Not at hrange
  exact hrange

omit [Surroundings] in
theorem parseReportInterval_range {d : Nat} (h : parseReportInterval arguments = .ok d) :
    ∃ n, d = millis n ∧ minReportInterval ≤ n ∧ n ≤ maxReportInterval := by
  obtain ⟨value, -, h⟩ := except_bind_ok h
  obtain ⟨_, hrange, h⟩ := except_bind_ok h
  have hrange := refuseIf_ok hrange
  cases h
  push Not at hrange
  exact ⟨value, rfl, hrange⟩

/-- What the options of a sender are known to satisfy. -/
structure SendArgs.Accepted (args : SendArgs) : Prop where
  payloadBytes : minUdpPayloadBytes ≤ args.udpPayloadBytes ∧ args.udpPayloadBytes ≤ maxUdpPayloadBytes
  reportInterval : ∃ n, args.reportInterval = millis n ∧ minReportInterval ≤ n ∧ n ≤ maxReportInterval
  udp_of_reuse : args.reuseChunks → args.transport = .udp

theorem accepted_of_parseSend (h : parseSend arguments = .ok args) : args.Accepted := by
  obtain ⟨_, -, h⟩ := except_bind_ok h
  obtain ⟨parsed, hread, h⟩ := except_bind_ok h
  obtain ⟨_, -, h⟩ := except_bind_ok h
  obtain ⟨_, hreuse, h⟩ := except_bind_ok h
  obtain ⟨_, -, h⟩ := except_bind_ok h
  cases h
  -- the options are read one after another
  obtain ⟨_, -, hread⟩ := except_bind_ok hread
  obtain ⟨_, -, hread⟩ := except_bind_ok hread
  obtain ⟨_, -, hread⟩ := except_bind_ok hread
  obtain ⟨_, -, hread⟩ := except_bind_ok hread
  obtain ⟨_, -, hread⟩ := except_bind_ok hread
  obtain ⟨_, -, hread⟩ := except_bind_ok hread
  obtain ⟨_, -, hread⟩ := except_bind_ok hread
  obtain ⟨_, -, hread⟩ := except_bind_ok hread
  obtain ⟨_, -, hread⟩ := except_bind_ok hread
  obtain ⟨_, -, hread⟩ := except_bind_ok hread
  obtain ⟨_, -, hread⟩ := except_bind_ok hread
  obtain ⟨_, hpayload, hread⟩ := except_bind_ok hread
  obtain ⟨_, hinterval, hread⟩ := except_bind_ok hread
  obtain ⟨_, -, hread⟩ := except_bind_ok hread
  obtain ⟨_, -, hread⟩ := except_bind_ok hread
  obtain ⟨_, -, hread⟩ := except_bind_ok hread
  cases hread
  have hreuse := refuseIf_ok hreuse
  push Not at hreuse
  exact ⟨parseUdpPayloadBytes_range hpayload, parseReportInterval_range hinterval, hreuse⟩

/-! ## Proposals -/

variable [Sha256] {size metadataLen : Nat} {expectedHash : Hash} {content : List UInt8}
  {offeredSession : Vector UInt8 16} {g : SendGreeting}

/-- A receiver has understood what a sender was asked to propose. -/
structure Understood (args : SendArgs) (size : Nat) (expectedHash : Hash) (metadataLen : Nat)
    (content : List UInt8) (offeredSession : Vector UInt8 16) (hello : Hello) : Prop where
  transport : hello.transport = args.transport
  hash : hello.hash = hex expectedHash.bytes
  session : hello.session = offeredSession.toList
  chunks : hello.chunks = (size + args.udpPayloadBytes - 1) / args.udpPayloadBytes
  size : hello.size = size
  payloadBytes : hello.payloadBytes = args.udpPayloadBytes
  reportInterval : millis hello.reportInterval = args.reportInterval
  repairGrace : hello.repairGrace = asMillis (max (args.repairCooldown / 2) args.reportInterval)
  reuse : (hello.reuseManifest.isSome ↔ args.reuseChunks) ∧
    ∀ r ∈ hello.reuseManifest, ∃ manifest, Cdc.scan metadataLen content = .ok manifest ∧
      r = (manifest.chunks.length, manifest.hash)

/-- The reuse field of a greeting. -/
theorem reuse_of_greeting {reuse : Option Cdc.Manifest}
    (h : args.reuseManifest metadataLen content = .ok reuse) :
    (reuse.isSome ↔ args.reuseChunks) ∧ ∀ m ∈ reuse, Cdc.scan metadataLen content = .ok m := by
  unfold SendArgs.reuseManifest at h
  split at h
  next hreuse =>
    cases hscan : Cdc.scan metadataLen content with
    | error text =>
      rw [hscan] at h
      cases h
    | ok manifest =>
      rw [hscan] at h
      cases h
      refine ⟨by simp [hreuse], fun m hm => ?_⟩
      cases hm
      rfl
  next hreuse =>
    cases h
    exact ⟨by simpa using hreuse, fun m hm => nomatch hm⟩

omit [Sha256] in
/-- The bound of a receiver on the repair grace, as a bound on an option of the sender. -/
theorem repairGrace_le_iff (h : args.Accepted) :
    asMillis (max (args.repairCooldown / 2) args.reportInterval) ≤ maxRepairGrace ↔
      args.repairCooldown < millis 120002 := by
  obtain ⟨n, hn, -, hle⟩ := h.reportInterval
  have hgrace : maxRepairGrace = 60000 := rfl
  have hinterval : maxReportInterval = 10000 := rfl
  simp only [asMillis, millis] at hn ⊢
  omega

omit [Sha256] in
theorem reportInterval_le_repairGrace :
    asMillis args.reportInterval ≤ asMillis (max (args.repairCooldown / 2) args.reportInterval) :=
  Nat.div_le_div_right (le_max_right _ _)

/-- What `send` puts into its greeting has been accepted by all checks of the sender. -/
theorem greeting_of_ok (h : args.greeting size expectedHash metadataLen content offeredSession = .ok g) :
    g.chunks ≤ maxChunks ∧ ∃ reuse, args.reuseManifest metadataLen content = .ok reuse ∧
      g = ⟨args.transport, size, expectedHash, offeredSession,
        (size + args.udpPayloadBytes - 1) / args.udpPayloadBytes, args.udpPayloadBytes,
        asMillis args.reportInterval, asMillis (max (args.repairCooldown / 2) args.reportInterval),
        reuse.map fun manifest => (manifest.chunks.length, manifest.hash)⟩ := by
  obtain ⟨reuse, hreuse, h⟩ := except_bind_ok h
  obtain ⟨_, hchunks, h⟩ := except_bind_ok h
  cases h
  exact ⟨Nat.not_lt.1 (refuseIf_ok hchunks), reuse, hreuse, rfl⟩

/-- All checks of the receiver but the bound on the repair grace pass. -/
theorem parseHello_greeting_iff (ha : args.Accepted) {hello : Hello}
    (hg : args.greeting size expectedHash metadataLen content offeredSession = .ok g) :
    parseHello g.hello = .ok hello ↔ args.repairCooldown < millis 120002 ∧ hello = g.heard := by
  rw [SendGreeting.parseHello_iff, ← repairGrace_le_iff ha]
  obtain ⟨hchunks, reuse, hreuse, rfl⟩ := greeting_of_ok hg
  obtain ⟨hsome, hscanned⟩ := reuse_of_greeting hreuse
  constructor
  · rintro ⟨-, hcheck, rfl⟩
    obtain ⟨-, -, -, -, hgrace, -⟩ := checkHello_iff.1 hcheck
    exact ⟨hgrace.2, rfl⟩
  · rintro ⟨hgrace, rfl⟩
    obtain ⟨hmin, hmax⟩ := ha.payloadBytes
    obtain ⟨n, hn, hlow, hhigh⟩ := ha.reportInterval
    have hinterval : asMillis args.reportInterval = n := by rw [hn, asMillis_millis]
    have hpos : 0 < args.udpPayloadBytes := Nat.lt_of_lt_of_le (by decide) hmin
    have hsize : size ≤ maxChunks * maxUdpPayloadBytes := by
      have hceil := Nat.lt_mul_div_succ (size + args.udpPayloadBytes - 1) hpos
      have hbound : args.udpPayloadBytes * ((size + args.udpPayloadBytes - 1) / args.udpPayloadBytes) ≤
          maxChunks * maxUdpPayloadBytes := by
        rw [Nat.mul_comm]
        exact Nat.mul_le_mul hchunks hmax
      rw [Nat.mul_succ] at hceil
      omega
    have hcount : maxChunks = 536870912 := rfl
    have hpayload : maxUdpPayloadBytes = 1424 := rfl
    have hgraceMax : maxRepairGrace = 60000 := rfl
    have hintervalMax : maxReportInterval = 10000 := rfl
    refine ⟨⟨?_, ?_, ?_, ?_, ?_, ?_⟩, ?_, rfl⟩
    · show size < 2 ^ 64
      rw [hcount, hpayload] at hsize
      omega
    · show _ < 2 ^ 64
      dsimp only at hchunks ⊢
      omega
    · show args.udpPayloadBytes < 2 ^ 64
      omega
    · show asMillis args.reportInterval < 2 ^ 64
      omega
    · show _ < 2 ^ 64
      dsimp only at hgrace ⊢
      omega
    · intro r hr
      obtain ⟨manifest, hmanifest, rfl⟩ := Option.mem_map.1 hr
      exact (Cdc.scanned_of_scan (hscanned manifest hmanifest)).count
    · refine checkHello_iff.2 ⟨ha.payloadBytes, ?_, rfl, hchunks, ⟨?_, hgrace⟩, fun hreuses => ?_⟩
      · exact hinterval ▸ ⟨hlow, hhigh⟩
      · exact reportInterval_le_repairGrace
      · have hreuses' : (reuse.map fun m => (m.chunks.length, m.hash)).isSome := hreuses
        rw [Option.isSome_map] at hreuses'
        exact ha.udp_of_reuse (hsome.1 hreuses')

/-- What a sender may propose is understood exactly if the repair cooldown is below 120002 milliseconds. -/
theorem proposal_understood_iff (h : parseSend arguments = .ok args)
    (hg : args.greeting size expectedHash metadataLen content offeredSession = .ok g) :
    (∃ hello, parseHello g.hello = .ok hello ∧
        Understood args size expectedHash metadataLen content offeredSession hello) ↔
      args.repairCooldown < millis 120002 := by
  have ha := accepted_of_parseSend h
  constructor
  · rintro ⟨hello, hparse, -⟩
    exact ((parseHello_greeting_iff ha hg).1 hparse).1
  · intro hcooldown
    refine ⟨g.heard, (parseHello_greeting_iff ha hg).2 ⟨hcooldown, rfl⟩, ?_⟩
    obtain ⟨-, reuse, hreuse, rfl⟩ := greeting_of_ok hg
    obtain ⟨hsome, hscanned⟩ := reuse_of_greeting hreuse
    obtain ⟨n, hn, -, -⟩ := ha.reportInterval
    refine ⟨rfl, rfl, rfl, rfl, rfl, rfl, ?_, rfl, ?_, fun r hr => ?_⟩
    · show millis (asMillis args.reportInterval) = args.reportInterval
      rw [hn, asMillis_millis]
    · show (Option.map _ reuse).isSome ↔ _
      rw [Option.isSome_map, hsome]
    · obtain ⟨manifest, hmanifest, rfl⟩ := Option.mem_map.1 hr
      exact ⟨manifest, hscanned manifest hmanifest, rfl⟩

end

namespace Sample

/-- Addresses are taken as they are written, and rates are whole numbers. -/
scoped instance plainSurroundings : Surroundings where
  Socket := Str
  toSocketAddrs value := .ok [value]
  Rate := Nat
  parseRate := parseU64Option
  isFinite _ := true
  nonPositive rate := rate == 0
  less a b := decide (a < b)

/-- The arguments of a sender that leaves a repair alone for a number of milliseconds. -/
def argumentsWith (cooldown : String) : List Str :=
  (["--connect", "127.0.0.1:7000", "--udp-target", "127.0.0.1:7001", "--file", "object",
    "--transport", "udp", "--key-file", "key", "--repair-cooldown-ms", cooldown]).map ascii

/-- What `send` proposes for an empty file. -/
def proposalWith (cooldown : String) : Check (SendArgs × SendGreeting) := do
  let args ← parseSend (argumentsWith cooldown)
  let g ← args.greeting 0 hashOfNothing 0 [] (Vector.replicate 16 0)
  return (args, g)

end Sample

section Example

open Sample

theorem proposal_understood_quick :
    ∃ args g, proposalWith "120001" = .ok (args, g) ∧
      ((∃ hello, parseHello g.hello = .ok hello ∧
        Understood args 0 hashOfNothing 0 [] (Vector.replicate 16 0) hello) ↔
      args.repairCooldown < millis 120002) := by
  have hok : (proposalWith "120001").isOk = true := by decide +kernel
  cases hproposal : proposalWith "120001" with
  | error text =>
    rw [hproposal] at hok
    cases hok
  | ok found =>
    obtain ⟨args, hargs, h⟩ := except_bind_ok hproposal
    obtain ⟨g, hg, h⟩ := except_bind_ok h
    cases h
    exact ⟨args, g, rfl, proposal_understood_iff hargs hg⟩

/-- A sender that leaves repairs alone for more than two minutes is refused. -/
theorem not_proposal_understood :
    ¬ ∀ (arguments : List Str) (args : SendArgs) (size metadataLen : Nat) (expectedHash : Hash)
        (content : List UInt8) (offeredSession : Vector UInt8 16) (g : SendGreeting),
      parseSend arguments = .ok args →
      args.greeting size expectedHash metadataLen content offeredSession = .ok g →
      ∃ hello, parseHello g.hello = .ok hello ∧
        Understood args size expectedHash metadataLen content offeredSession hello := by
  intro hall
  have hgrace : (proposalWith "120002").toOption.map (fun found => found.2.repairGrace) = some 60001 := by
    decide +kernel
  cases hproposal : proposalWith "120002" with
  | error text =>
    rw [hproposal] at hgrace
    cases hgrace
  | ok found =>
    obtain ⟨args, hargs, h⟩ := except_bind_ok hproposal
    obtain ⟨g, hg, h⟩ := except_bind_ok h
    cases h
    obtain ⟨hello, hhello, -⟩ := hall _ _ _ _ _ _ _ _ hargs hg
    obtain ⟨-, hcheck, -⟩ := SendGreeting.parseHello_iff.1 hhello
    obtain ⟨-, -, -, -, ⟨-, hle⟩, -⟩ := checkHello_iff.1 hcheck
    rw [hproposal] at hgrace
    have hvalue : g.repairGrace = 60001 := Option.some.inj hgrace
    have hbound : g.repairGrace ≤ maxRepairGrace := hle
    rw [hvalue] at hbound
    exact absurd hbound (by decide)

end Example

end PacketTide
