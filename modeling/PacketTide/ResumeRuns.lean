import Mathlib.Logic.Relation
import PacketTide.FileSystem.View
import PacketTide.Resume

/-!
# Runs of the receiver on one destination

Receivers run one after the other on the same destination, for any objects, and each may be killed
at any point of any operation. The world keeps, beside the file system, the bytes that were written
for each chunk of each object.
-/

namespace PacketTide

open Effects FileSystem Prog ResumeState

/-- The receipts that a map holds for an object. -/
def receiptsIn (content : List UInt8) (id : Identity) : Option Bitmap :=
  if content.length = headerLen + bitmapWords id.chunks * 8 then
    decodeMap id (bitmapWords id.chunks) content
  else none

/-- The receipts of an object in what is at the place of its map. -/
def receiptsAt (id : Identity) (s : Option Shape) : Option Bitmap :=
  match s with
  | some (.file content) => receiptsIn content id
  | _ => none

/-- The bytes that were last written for each chunk of each object. -/
abbrev Written : Type := Identity → Nat → Option (List UInt8)

/-- The same after the bytes of a chunk have been written. -/
def Written.record (written : Written) (id : Identity) (sequence : Nat) (bytes : List UInt8) :
    Written :=
  fun id' i => if id' = id ∧ i = sequence then some bytes else written id' i

/-- A running receiver: its process, its open partial file and its resume state. -/
structure Session where
  pid : Nat
  file : Loc
  state : ResumeState

/-- A file system with what was written for each chunk and the receiver that is running. -/
structure World where
  fs : FS
  written : Written
  session : Option Session

/-- The directories above a destination are real, and its artifacts are absent or regular files. -/
structure Sited (pid : Nat) (home : Loc) (v : View) (dest : Path) : Prop where
  names_ne : dest.names ≠ []
  dirs : DirsTo home v dest.names
  part : Leaf (v (home ++ (partOf dest).names))
  map : Leaf (v (home ++ (mapOf dest).names))
  temporary : Leaf (v (home ++ (temporaryOf pid (mapOf dest)).names))

/-- The artifacts beside a destination are absent or regular files, and no map holds a receipt. -/
structure Clean (dest : Path) (fs : FS) : Prop where
  names_ne : dest.names ≠ []
  dirs : DirsTo fs.home fs.view dest.names
  part : Leaf (fs.view (fs.home ++ (partOf dest).names))
  map : Leaf (fs.view (fs.home ++ (mapOf dest).names))
  temporary : ∀ pid, Leaf (fs.view (fs.home ++ (temporaryOf pid (mapOf dest)).names))
  no_receipts : ∀ id bitmap, receiptsAt id (fs.view (fs.home ++ (mapOf dest).names)) = some bitmap →
    ∀ i, bitmapContains bitmap i = false

/-- Nothing has changed outside the destination itself. -/
def OnlyDestination (dest : Path) (fs t : FS) : Prop :=
  t.home = fs.home ∧ ∀ q, ¬ fs.home ++ dest.names <+: q → t.view q = fs.view q

/-- One step of the world. A receiver that is killed, or that stops with an error, leaves one of the
states in which a kill may find the operation. A kill of `open` has to be spared by a relation,
through which a theorem can speak about some of the kills only. -/
inductive Step (spared : Nat → Identity → FS → FS → Prop) (dest : Path) : World → World → Prop where
  /-- Between runs the destination may be removed or replaced. -/
  | destination {fs t : FS} {written : Written} (h : OnlyDestination dest fs t) :
      Step spared dest ⟨fs, written, none⟩ ⟨t, written, none⟩
  | opened {fs t : FS} {written : Written} {pid : Nat} {id : Identity} {file : Loc}
      {state : ResumeState} (h : (openState pid dest id).run machine fs = (.ok (file, state), t)) :
      Step spared dest ⟨fs, written, none⟩ ⟨t, written, some ⟨pid, file, state⟩⟩
  | openKilled {fs t : FS} {written : Written} {pid : Nat} {id : Identity}
      (h : Cut machine (openState pid dest id) fs t) (hs : spared pid id fs t) :
      Step spared dest ⟨fs, written, none⟩ ⟨t, written, none⟩
  | stored {fs t : FS} {written : Written} {s : Session} {sequence : Nat} {bytes : List UInt8}
      {state : ResumeState}
      (h : (s.state.storeChunk s.file sequence bytes).run machine fs = (.ok state, t)) :
      Step spared dest ⟨fs, written, some s⟩
        ⟨t, if s.state.accepts sequence bytes then
            written.record s.state.identity sequence bytes else written,
          some { s with state := state }⟩
  /-- A chunk may count as written or not when the receiver is killed while it stores it. -/
  | storeKilled {fs t : FS} {written written' : Written} {s : Session} {sequence : Nat}
      {bytes : List UInt8} (h : Cut machine (s.state.storeChunk s.file sequence bytes) fs t)
      (hw : written' = written ∨ s.state.accepts sequence bytes ∧
        written' = written.record s.state.identity sequence bytes) :
      Step spared dest ⟨fs, written, some s⟩ ⟨t, written', none⟩
  | checkpointed {fs t : FS} {written : Written} {s : Session}
      (h : (s.state.checkpoint s.pid s.file).run machine fs = (.ok (), t)) :
      Step spared dest ⟨fs, written, some s⟩ ⟨t, written, some s⟩
  | checkpointKilled {fs t : FS} {written : Written} {s : Session}
      (h : Cut machine (s.state.checkpoint s.pid s.file) fs t) :
      Step spared dest ⟨fs, written, some s⟩ ⟨t, written, none⟩
  | installed {fs t : FS} {written : Written} {s : Session}
      (h : Cut machine (s.state.install dest) fs t) :
      Step spared dest ⟨fs, written, some s⟩ ⟨t, written, none⟩
  | discarded {fs t : FS} {written : Written} {s : Session}
      (h : Cut machine s.state.discard fs t) :
      Step spared dest ⟨fs, written, some s⟩ ⟨t, written, none⟩

/-- The worlds that receivers may lead to from a file system without receipts. -/
def Reachable (spared : Nat → Identity → FS → FS → Prop) (dest : Path) (w : World) : Prop :=
  ∃ fs, Clean dest fs ∧ Relation.ReflTransGen (Step spared dest) ⟨fs, fun _ _ => none, none⟩ w

/-- Whatever object is opened next, the chunks it is resumed with are in the partial file as they
were written. -/
def OpensTruthfully (dest : Path) (w : World) : Prop :=
  ∀ pid id file state t, (openState pid dest id).run machine w.fs = (.ok (file, state), t) →
    ∀ i, bitmapContains state.bitmap i →
      ∃ content, t.view (t.home ++ (partOf dest).names) = some (.file content) ∧
        w.written id i = some (id.chunkOf i content)

/-- A kill of `open` that falls after the partial file has been extended and before `open`
returns. -/
def KilledAfterResize (pid : Nat) (dest : Path) (id : Identity) (fs t : FS) : Prop :=
  ∃ fs₁ file fs₂, (resumable dest id).run machine fs = (.ok none, fs₁) ∧
    (emptyPart dest id).run machine fs₁ = (.ok file, fs₂) ∧
    Cut machine ((fresh dest id).checkpoint pid file) fs₂ t

/-- The map of a destination holds receipts of an object of a given size. -/
def StaleReceipts (dest : Path) (size : Nat) (fs : FS) : Prop :=
  ∃ id bitmap i, id.size = size ∧
    receiptsAt id (fs.view (fs.home ++ (mapOf dest).names)) = some bitmap ∧ bitmapContains bitmap i

/-- Every kill of `open`. -/
def AnyKill (_ : Nat) (_ : Identity) (_ _ : FS) : Prop := True

/-- The kills of `open` that leave no receipts of an object of the size that the partial file has
just been extended to. -/
def WithoutStaleReceipts (dest : Path) (pid : Nat) (id : Identity) (fs t : FS) : Prop :=
  KilledAfterResize pid dest id fs t → ¬ StaleReceipts dest id.size t

end PacketTide
