import Mathlib.Logic.Relation
import PacketTide.ReceiveLoop
import PacketTide.ResumeRuns

/-!
# Runs of a receiver of datagrams

The states that a receiver may be in when a turn of its loop begins, whatever the network, the sender
and the clock do, and whichever calls are refused.
-/

namespace PacketTide

open Effects FileSystem Prog Text

/-- A receiver is called with a greeting that has been parsed, and with a manifest that has been read as
the greeting announces it. -/
structure UdpReceiver.Invoked [Sha256] (r : UdpReceiver) : Prop where
  parsed : ∃ line, parseHello line = .ok r.hello
  identity : r.hello.identity = some r.identity
  manifest : ∀ m candidate, r.reuse = some (m, candidate) → ∃ count hash payloads,
    Cdc.readReuseManifest r.hello.size count hash payloads = .ok m

/-- The receipts of the object on disk. -/
def receiptsOnDisk (r : UdpReceiver) (fs : FS) : Option Bitmap :=
  receiptsAt r.identity (fs.view (fs.home ++ (mapOf r.destination).names))

/-- The variables of the loop, the files and the control channel. -/
structure LoopState where
  receiving : Receiving
  site : Site

/-- The loop starts in a directory that is in order. -/
def Starts [Sha256] (r : UdpReceiver) (file : Loc) (a : LoopState) : Prop :=
  ∃ site clock, Sited r.pid site.fs.home site.fs.view r.destination ∧
    Succeeds siteMachine siteRefuse (startReceiving r clock) site (file, a.receiving) a.site

/-- One turn, after which the loop goes on. -/
def TurnStep [Sha256] (r : UdpReceiver) (file : Loc) (a b : LoopState) : Prop :=
  ∃ turn, Succeeds siteMachine siteRefuse (receiveTurn r file a.receiving turn) a.site
    (.running b.receiving) b.site

/-- The states that the loop may be in. -/
def LoopReachable [Sha256] (r : UdpReceiver) (file : Loc) (b : LoopState) : Prop :=
  ∃ a, Starts r file a ∧ Relation.ReflTransGen (TurnStep r file) a b

/-- The receipts, the counter and the hash fit the open file. -/
structure Consistent (r : UdpReceiver) (file : Loc) (s : Receiving) (fs : FS) : Prop where
  bitmap : BitmapFor r.hello.chunks s.resume.bitmap
  count : s.resume.receivedCount = bitmapCount s.resume.bitmap
  hashed : ∃ content, fs.view file = some (.file content) ∧ content.length = r.hello.size ∧
    s.hashed = content.take (min (s.hashFrontier * r.hello.payloadBytes) r.hello.size)

/-- A place holds the object of a greeting. -/
def HoldsObject [Sha256] (hello : Hello) (s : Option Shape) : Prop :=
  ∃ content, s = some (.file content) ∧ hex (Sha256.digest content).bytes = hello.hash

/-- The destination is as it was, and the partial file, while it is there, begins with what has been
hashed. -/
structure Steady (dest : Path) (file : Loc) (hashed : List UInt8) (fs t : FS) : Prop where
  home : t.home = fs.home
  destination : t.view (fs.home ++ dest.names) = fs.view (fs.home ++ dest.names)
  begins : ∀ content, t.view file = some (.file content) → hashed <+: content

/-- The same, but the object may have taken the place of the destination. -/
structure Undamaged [Sha256] (r : UdpReceiver) (file : Loc) (hashed : List UInt8) (fs t : FS) :
    Prop where
  home : t.home = fs.home
  destination : t.view (fs.home ++ r.destination.names) = fs.view (fs.home ++ r.destination.names) ∨
    HoldsObject r.hello (t.view (fs.home ++ r.destination.names))
  begins : ∀ content, t.view file = some (.file content) → hashed <+: content

/-- A call that writes at a position only what is allowed there, and that resizes nothing. -/
def SiteCall.Writes (P : Nat → List UInt8 → Prop) : SiteCall → Prop
  | .file (.writeAt _ offset bytes) => P offset bytes
  | .file (.setLen _ _) => False
  | _ => True

/-- A call for the mature frontier. -/
structure FrontierCall where
  now : Instant
  current : Nat
  grace : Nat

/-- The answers to calls one after the other. -/
def matureFrontiers (retention : Nat) : List (Instant × Nat) → List FrontierCall → List Nat
  | _, [] => []
  | history, c :: calls =>
    let (history, answer) := matureFrontier history c.now c.current c.grace retention
    answer :: matureFrontiers retention history calls

/-- A call tells what is current. -/
def FrontierCall.observation (c : FrontierCall) : Instant × Nat := (c.now, c.current)

/-- The last frontier that was told of no later than a time, or nothing if there was none by then. -/
def FrontierAt (observed : List (Instant × Nat)) (time : Instant) (answer : Nat) : Prop :=
  (∃ (j : Nat) (e : Instant × Nat), observed[j]? = some e ∧ e.1 ≤ time ∧ e.2 = answer ∧
      ∀ k > j, ∀ later : Instant × Nat, observed[k]? = some later → time < later.1) ∨
    (∀ e ∈ observed, time < e.1) ∧ answer = 0

end PacketTide
