import PacketTide.Feedback
import Mathlib.Algebra.BigOperators.Group.Finset.Basic
import Mathlib.Data.NNRat.Order

/-!
# Repairs

The sender queues the chunks that a report names and sends them again. It remembers when a chunk was
last sent again, so that reports that cross the repair on their way do not queue it a second time.
Times are in seconds.
-/

namespace PacketTide

open Text

def maxQueuedRepairs : Nat := 65536

/-- The chunks that are to be sent again. -/
structure RepairQueue where
  queue : List Nat := []
  /-- The set of the chunks in the queue. -/
  queued : List Nat := []
  /-- When chunks were last sent again: the entries of a map, in any order. -/
  lastSent : List (Nat × ℚ) := []
  cooldown : ℚ
  deriving DecidableEq

/-- The chunks whose repair is remembered. -/
def RepairQueue.remembered (q : RepairQueue) : List Nat := q.lastSent.map Prod.fst

/-! ## Reading ranges -/

def parseChunkNumber (value : Str) : Check Nat :=
  match parseUnsigned 64 10 value with
  | some n => .ok n
  | none => .error (Auth.parseError value)

/-- The characters of a text in ASCII. -/
def asciiText (value : Str) : String := String.ofList (value.map fun b => Char.ofNat b.toNat)

def parseRange (value : Str) : Check (Nat × Nat) :=
  match splitOnce hyphen value with
  | some (start, stop) => do
    let start ← parseChunkNumber start
    let stop ← parseChunkNumber stop
    refuseIf (stop < start) ("invalid missing range " ++ asciiText value)
    return (start, stop)
  | none => do
    let sequence ← parseChunkNumber value
    return (sequence, sequence)

/-! ## Queueing -/

/-- Queue a chunk, unless it is queued or its repair is remembered. -/
def RepairQueue.enqueue (q : RepairQueue) (sequence : Nat) : RepairQueue :=
  if sequence ∉ q.remembered ∧ sequence ∉ q.queued then
    { q with queue := q.queue ++ [sequence], queued := sequence :: q.queued }
  else q

/-- Queue a number of chunks from one on: the queue, and whether it is full. -/
def RepairQueue.enqueueRun : Nat → Nat → RepairQueue → RepairQueue × Bool
  | 0, _, q => (q, false)
  | n + 1, sequence, q =>
    if maxQueuedRepairs ≤ q.queued.length then (q, true)
    else enqueueRun n (sequence + 1) (q.enqueue sequence)

/-- Queue the chunks of some ranges. What has been queued before an error stays queued. -/
def enqueueRanges (chunks : Nat) : List Str → RepairQueue → RepairQueue × Check Unit
  | [], q => (q, .ok ())
  | range :: ranges, q =>
    match parseRange range with
    | .error e => (q, .error e)
    | .ok (start, stop) =>
      if chunks ≤ stop then (q, .error "receiver requested a chunk beyond the file")
      else
        match q.enqueueRun (stop + 1 - start) start with
        | (q, true) => (q, .ok ())
        | (q, false) => enqueueRanges chunks ranges q

def enqueueRepairs (q : RepairQueue) (ranges : Str) (chunks : Nat) : RepairQueue × Check Unit :=
  enqueueRanges chunks ((ranges.splitOn comma).filter (· ≠ [])) q

/-- The chunks of some ranges, in order. -/
def sequencesOf (ranges : List (Nat × Nat)) : List Nat :=
  ranges.flatMap fun range => List.range' range.1 (range.2 + 1 - range.1)

/-- Forget the repairs that are at least a cooldown old. -/
def RepairQueue.expire (q : RepairQueue) (now : ℚ) : RepairQueue :=
  { q with lastSent := q.lastSent.filter fun entry => max 0 (now - entry.2) < q.cooldown }

/-! ## Taking -/

/-- In which order a map is iterated over: the key that comes first. -/
structure FirstKey where
  first : List (Nat × ℚ) → Nat
  mem : ∀ entries, entries ≠ [] → first entries ∈ entries.map Prod.fst

/-- The order in which the entries are listed. -/
instance : Inhabited FirstKey where
  default :=
    { first := fun entries => (entries.headD (0, 0)).1
      mem := fun entries h => by
        obtain ⟨entry, rest, rfl⟩ := List.exists_cons_of_ne_nil h
        exact List.mem_cons_self }

/-- The chunk that the map forgets to make room, if it is full. -/
def RepairQueue.victim (q : RepairQueue) (order : FirstKey) : Option Nat :=
  if maxQueuedRepairs ≤ q.lastSent.length then some (order.first q.lastSent) else none

/-- Remember that a chunk is sent again. -/
def RepairQueue.remember (q : RepairQueue) (order : FirstKey) (sequence : Nat) (now : ℚ) :
    RepairQueue :=
  let kept := q.lastSent.filter fun entry => q.victim order ≠ some entry.1
  { q with lastSent := (sequence, now) :: kept.filter fun entry => entry.1 ≠ sequence }

/-- The queue after its first chunk has been taken. -/
def RepairQueue.pop (q : RepairQueue) (sequence : Nat) (order : FirstKey) (now : ℚ) : RepairQueue :=
  ({ q with queue := q.queue.tail, queued := q.queued.erase sequence } : RepairQueue).remember
    order sequence now

/-- The chunks that have been taken, each with the time when this was recorded, and what is left. -/
structure Taken where
  entries : List (Nat × ℚ)
  repairs : RepairQueue
  now : ℚ

/-- Take chunks from the queue, at most so many. For each of them the map may be iterated over in
another order, and the clock moves on. -/
def takeRepairs (orders : Nat → FirstKey) (delays : Nat → ℚ≥0) (now : ℚ) (q : RepairQueue) :
    Nat → Taken
  | 0 => ⟨[], q, now⟩
  | limit + 1 =>
    match q.queue with
    | [] => ⟨[], q, now⟩
    | sequence :: _ =>
      let now := now + delays 0
      let rest := takeRepairs (fun k => orders (k + 1)) (fun k => delays (k + 1)) now
        (q.pop sequence (orders 0) now) limit
      { rest with entries := (sequence, now) :: rest.entries }

/-- Whenever taking chunks makes the map forget a chunk, the chunks taken before, the queue and the
chunk that is forgotten are related. -/
def EachForgotten (P : List Nat → RepairQueue → Nat → Prop) (orders : Nat → FirstKey)
    (delays : Nat → ℚ≥0) (now : ℚ) (q : RepairQueue) (taken : List Nat) : Nat → Prop
  | 0 => True
  | limit + 1 =>
    match q.queue with
    | [] => True
    | sequence :: _ =>
      (∀ forgotten, q.victim (orders 0) = some forgotten → P taken q forgotten) ∧
        EachForgotten P (fun k => orders (k + 1)) (fun k => delays (k + 1)) (now + delays 0)
          (q.pop sequence (orders 0) (now + delays 0)) (taken ++ [sequence]) limit

/-- The chunk that is forgotten has been sent again no later than any other that is remembered. -/
def Oldest (_ : List Nat) (q : RepairQueue) (forgotten : Nat) : Prop :=
  ∀ e ∈ q.lastSent, e.1 = forgotten → ∀ e' ∈ q.lastSent, e.2 ≤ e'.2

/-- No chunk has to be forgotten, or all chunks that are remembered when the last one is forgotten
were sent again at one and the same time. -/
def ForgetsAlike (delays : Nat → ℚ≥0) (now : ℚ) (q : RepairQueue) (limit : Nat) : Prop :=
  q.lastSent.length + min limit q.queue.length ≤ maxQueuedRepairs ∨
    ∃ t, (∀ e ∈ q.lastSent, e.2 = t) ∧ ∀ k, k + 1 < min limit q.queue.length →
      now + ∑ i ∈ Finset.range (k + 1), (delays i : ℚ) = t

/-! ## Runs -/

/-- What happens to a queue. -/
inductive RepairOp where
  | enqueue (ranges : Str) (chunks : Nat)
  | expire
  | take (orders : Nat → FirstKey) (delays : Nat → ℚ≥0) (limit : Nat)
  | wait (time : ℚ≥0)

/-- A queue with the time, and with everything that has been taken from it. -/
structure Repairing where
  repairs : RepairQueue
  now : ℚ
  log : List (Nat × ℚ) := []

def Repairing.new (cooldown now : ℚ) : Repairing := ⟨{ cooldown }, now, []⟩

def Repairing.step (r : Repairing) : RepairOp → Repairing
  | .enqueue ranges chunks => { r with repairs := (enqueueRepairs r.repairs ranges chunks).1 }
  | .expire => { r with repairs := r.repairs.expire r.now }
  | .take orders delays limit =>
    let taken := takeRepairs orders delays r.now r.repairs limit
    ⟨taken.repairs, taken.now, r.log ++ taken.entries⟩
  | .wait time => { r with now := r.now + time }

def Repairing.run (r : Repairing) (ops : List RepairOp) : Repairing := ops.foldl Repairing.step r

/-- The chunks that an operation puts into the queue, behind those that are there. -/
def Repairing.entering (r : Repairing) : RepairOp → List Nat
  | .enqueue ranges chunks =>
    (enqueueRepairs r.repairs ranges chunks).1.queue.drop r.repairs.queue.length
  | _ => []

/-- All chunks that are put into the queue in a run, in order. -/
def Repairing.entered : Repairing → List RepairOp → List Nat
  | _, [] => []
  | r, op :: ops => r.entering op ++ (r.step op).entered ops

/-- The reports are about an object with so many chunks. -/
def RepairOp.About (chunks : Nat) : RepairOp → Prop
  | .enqueue _ n => n = chunks
  | _ => True

/-- The queue, its set and the map belong together, and stay within their bounds. -/
structure RepairQueue.Consistent (chunks : Nat) (q : RepairQueue) : Prop where
  queue_nodup : q.queue.Nodup
  queued_nodup : q.queued.Nodup
  remembered_nodup : q.remembered.Nodup
  mem_queued : ∀ s, s ∈ q.queued ↔ s ∈ q.queue
  disjoint : ∀ s ∈ q.queued, s ∉ q.remembered
  queued_le : q.queued.length ≤ maxQueuedRepairs
  remembered_le : q.remembered.length ≤ maxQueuedRepairs
  lt_chunks : ∀ s ∈ q.queue, s < chunks

/-- Every operation of a run is related to the queue that it meets. -/
def Repairing.Along (P : Repairing → RepairOp → Prop) (r : Repairing) : List RepairOp → Prop
  | [] => True
  | op :: ops => P r op ∧ (r.step op).Along P ops

/-- The chunks other than one that have been sent again since a time. -/
def othersSince (log : List (Nat × ℚ)) (sequence : Nat) (since : ℚ) : Finset Nat :=
  ((log.filter fun e => since ≤ e.2).map Prod.fst).toFinset.erase sequence

/-- A chunk is sent again before its cooldown is over only if so many others have been sent again since
that not all of them can be remembered. -/
def SpacedUnlessForgotten (cooldown : ℚ) (log : List (Nat × ℚ)) : Prop :=
  ∀ before sequence t₁ between t₂ after,
    log = before ++ (sequence, t₁) :: between ++ (sequence, t₂) :: after →
    t₁ + cooldown ≤ t₂ ∨
      maxQueuedRepairs ≤ (othersSince (before ++ (sequence, t₁) :: between) sequence t₁).card

/-- The takes of a run forget alike. -/
def Repairing.TakesAlike (r : Repairing) : RepairOp → Prop
  | .take _ delays limit => ForgetsAlike delays r.now r.repairs limit
  | _ => True

end PacketTide
