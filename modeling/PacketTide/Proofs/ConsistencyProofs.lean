import PacketTide.Proofs.MomentProofs
import PacketTide.Proofs.ResumeRunsProofs

/-!
# The hash of an object

In every state that the loop may reach the counter counts the receipts, and the hash is that of the
beginning of the file, which is not written again. So the digest at the end is that of the whole file.
-/

namespace PacketTide

open Effects FileSystem FS Prog Text

section

variable {r : UdpReceiver} {file : Loc} {content : List UInt8} {s : Receiving} {fs : FS} {site : Site}
  {a b : LoopState}

/-! ## Reachable states -/

/-- A state of the loop in which the receipts, the hash and the open file fit together. -/
def Settled (r : UdpReceiver) (file : Loc) (a : LoopState) : Prop :=
  ∃ content, a.receiving.Sound r content ∧ OnDisk r.pid r.destination file content a.site.fs

theorem settled_starts [Sha256] (hr : r.Invoked) (h : Starts r file a) : Settled r file a := by
  obtain ⟨site, clock, hs, hrun⟩ := h
  obtain ⟨reused, content, hentered⟩ := returns_startReceiving hr clock hs _ _ hrun
  exact ⟨content, hentered.sound, hentered.disk⟩

theorem Settled.step [Sha256] (hr : r.Invoked) (ha : Settled r file a) (h : TurnStep r file a b) :
    Settled r file b ∧ a.receiving.hashed <+: b.receiving.hashed ∧
      a.receiving.hashFrontier ≤ b.receiving.hashFrontier := by
  have hb := hr.able.bounded
  obtain ⟨content, hs, hd⟩ := ha
  obtain ⟨turn, hrun⟩ := h
  obtain ⟨content', hwent⟩ := wentOn_of_succeeds hb hs hd hrun
  obtain ⟨s₁, s₂, u, pongs, lines, htook, hs₂, -, -, -, hreported, -, -⟩ := hwent.begun
  refine ⟨⟨content', hwent.sound, hwent.disk⟩, ?_, ?_⟩
  · rw [hreported.hashed_eq.1, (Receiving.hashed_checkpointed _ _).1, hs₂,
      (Receiving.hashed_hear _ _ _).1]
    exact htook.hashed_prefix hb hs
  · rw [hreported.hashed_eq.2, (Receiving.hashed_checkpointed _ _).2, hs₂,
      (Receiving.hashed_hear _ _ _).2]
    exact htook.frontier_le

theorem Settled.steps [Sha256] (hr : r.Invoked) (ha : Settled r file a)
    (h : Relation.ReflTransGen (TurnStep r file) a b) :
    Settled r file b ∧ a.receiving.hashed <+: b.receiving.hashed ∧
      a.receiving.hashFrontier ≤ b.receiving.hashFrontier := by
  induction h with
  | refl => exact ⟨ha, List.prefix_refl _, Nat.le_refl _⟩
  | tail _ hstep ih =>
    obtain ⟨hsettled, hprefix, hle⟩ := ih.1.step hr hstep
    exact ⟨hsettled, ih.2.1.trans hprefix, Nat.le_trans ih.2.2 hle⟩

theorem LoopReachable.settled [Sha256] (hr : r.Invoked) (h : LoopReachable r file b) :
    Settled r file b := by
  obtain ⟨a, hstart, hsteps⟩ := h
  exact ((settled_starts hr hstart).steps hr hsteps).1

section

variable {P : Nat → List UInt8 → Prop}

theorem writes_onFiles {α : Type} {p : FsProg α} (hp : p.Only fun c => (SiteCall.file c).Writes P) :
    (onFiles p).Only (SiteCall.Writes P) := by
  induction p with
  | done r => exact trivial
  | call c next ih => exact ⟨hp.1, fun r => ih r (hp.2 r)⟩

theorem writes_sendControl {payload : Str} : (sendControl payload).Only (SiteCall.Writes P) :=
  ⟨trivial, fun r => by cases r <;> exact trivial⟩

theorem writes_checkpoint {pid : Nat} {state : ResumeState} :
    (state.checkpoint pid file).Only fun c => (SiteCall.file c).Writes P := by
  have hwrite : ∀ (h : Loc) (pieces : List (List UInt8)),
      (writeAll h pieces).Only fun c => (SiteCall.file c).Writes P := by
    intro h pieces
    induction pieces with
    | nil => exact trivial
    | cons piece pieces ih => exact (only_ask trivial).bind fun _ => ih
  exact (only_ask trivial).bind fun _ => (only_ask trivial).bind fun _ => (hwrite _ _).bind fun _ =>
    (only_ask trivial).bind fun _ => only_ask trivial

theorem writes_advance {layout : ChunkLayout} :
    (advanceHashFrontier file layout s).Only fun c => (SiteCall.file c).Writes P := by
  have hrange : ∀ (byteEnd n offset : Nat) (hashed : List UInt8),
      (hashRange file byteEnd n offset hashed).Only fun c => (SiteCall.file c).Writes P := by
    intro byteEnd n
    induction n with
    | zero => exact fun _ _ => trivial
    | succ n ih =>
      intro offset hashed
      rw [hashRange]
      exact only_ite ((only_ask trivial).bind fun _ => only_ite only_failWith (ih _ _)) trivial
  exact only_ite only_failWith ((hrange _ _ _ _).bind fun _ => only_done _)

/-- What a turn writes is the chunk of a datagram that is new. -/
theorem writes_receiveTurn [Sha256] (turn : Turn)
    (hP : ∀ datagram packet, checkPacket r.key r.hello.chunkLayout (received r.hello.chunkLayout datagram) =
      some packet → bitmapContains s.resume.bitmap packet.sequence = false →
        P (packet.sequence * r.hello.payloadBytes) packet.payload) :
    (receiveTurn r file s turn).Only (SiteCall.Writes P) := by
  have hflush : ∀ s : Receiving, (flushReceipts r.pid file s).Only
      fun c => (SiteCall.file c).Writes P := by
    intro s
    exact only_ite writes_checkpoint (only_done _)
  have htake : (takeSocket r file s turn.socket).Only fun c => (SiteCall.file c).Writes P := by
    rcases turn.socket with e | _ | datagram
    · exact (hflush s).bind fun _ => only_done _
    · exact only_done _
    · unfold takeSocket receiveDatagram
      dsimp only
      split
      · exact only_done _
      next packet hcheck =>
        refine Only.bind ?_ fun _ => only_done _
        unfold acceptPacket
        split
        next hbit =>
          exact (only_ask (hP datagram packet hcheck hbit)).bind fun _ => only_ite writes_advance (only_done _)
        next => exact only_done _
  have hevents : ∀ (events : List ControlEvent) (s : Receiving),
      (takeEvents r.pid file turn.endedClock s events).Only (SiteCall.Writes P) := by
    intro events
    induction events with
    | nil => exact fun _ => only_done _
    | cons event events ih =>
      intro s
      cases event with
      | ended => exact ih _
      | ping => exact writes_sendControl.bind fun _ => ih _
      | completeAck => exact only_done _
      | cancel reason => exact (writes_onFiles (hflush s)).bind fun _ => only_done _
      | error text => exact (writes_onFiles (hflush s)).bind fun _ => only_done _
  refine ((writes_onFiles htake).bind fun _ => hevents _ _).bind fun s₂ => only_ite ?_ ?_
  · refine Only.bind ?_ fun _ => only_done _
    refine (writes_onFiles writes_advance).bind fun _ => only_ite (only_done _) ?_
    have hsync : (ask (.sync file)).Only fun c => (SiteCall.file c).Writes P := only_ask trivial
    refine (writes_onFiles hsync).bind fun _ => only_ite ?_ ?_
    · refine writes_sendControl.bind fun _ => (writes_onFiles ?_).bind fun _ => only_done _
      unfold ResumeState.discard
      exact (only_request trivial).bind fun _ => (only_request trivial).bind fun _ => only_done _
    · refine (writes_onFiles ?_).bind fun _ => writes_sendControl.bind fun _ =>
        writes_sendControl.bind fun _ => only_done _
      refine (only_ask trivial).bind fun _ => (only_request trivial).bind fun _ => ?_
      split <;> exact only_done _
  · refine (writes_onFiles (only_ite ?_ (only_done _))).bind fun _ => Only.bind ?_ fun _ => only_done _
    · exact writes_checkpoint.bind fun _ => only_done _
    · exact only_ite (writes_sendControl.bind fun _ => only_done _) (only_done _)

end

end

/-! ## A receiver of one byte -/

section Example

def singleGreeting : Str :=
  ascii "UDP 1 0101010101010101010101010101010101010101010101010101010101010101" ++
    ascii " 00000000000000000000000000000000 1 256 100 200 R0"

def singleHello : Hello where
  transport := .udp
  size := 1
  hash := (List.replicate 32 (ascii "01")).flatten
  session := List.replicate 16 0
  chunks := 1
  payloadBytes := 256
  reportInterval := 100
  repairGrace := 200
  reuseManifest := none

theorem parseHello_single : parseHello singleGreeting = .ok singleHello := by rfl

/-- A receiver of one byte at a relative destination. -/
def singleReceiver : UdpReceiver where
  pid := 7
  destination := singleFile
  hello := singleHello
  identity := singleByte 1
  key := Vector.replicate 32 0

theorem invoked_single [Sha256] : singleReceiver.Invoked :=
  ⟨⟨singleGreeting, parseHello_single⟩, rfl, fun _ _ h => nomatch h⟩

theorem sited_empty (pid : Nat) : Sited pid FS.empty.home FS.empty.view singleFile :=
  ⟨clean_empty.names_ne, clean_empty.dirs, clean_empty.part, clean_empty.map,
    clean_empty.temporary pid⟩

/-- The variables of the loop of a receiver of one byte that holds nothing yet. -/
def singleStart : Receiving := (Receiving.start (.fresh singleFile (singleByte 1))).enterLoop 0

/-- A digest function by which every content has the hash of the greeting. -/
def constantDigest : Sha256 := ⟨fun _ => Vector.replicate 32 1⟩

/-- A datagram with the only chunk. -/
def singleDatagram : List UInt8 :=
  [4] ++ List.replicate 8 0 ++ [0, 0, 1] ++ List.replicate 16 1 ++ [7]

/-- The files and the control channel when that loop starts. -/
def singleSite : Site := ((@startReceiving constantDigest singleReceiver 0).run siteMachine ⟨FS.empty, {}⟩).2

end Example

end PacketTide
