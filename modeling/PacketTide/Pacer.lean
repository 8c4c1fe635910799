import Mathlib.Algebra.Order.Floor.Semiring
import Mathlib.Data.Rat.Floor
import Mathlib.Data.Rat.Cast.Order

/-!
# Pacing

The sender sleeps between datagrams to keep to a rate. Rates, times and durations are exact rational
numbers here, in bytes per second and in seconds.
-/

namespace PacketTide

structure Pacer where
  bytesPerSecond : ℚ
  started : ℚ
  bytesSent : Nat := 0
  bytesSinceWait : Nat := 0
  batchBytes : Nat
  deriving DecidableEq

namespace Pacer

/-- How many bytes are sent between two looks at the clock. -/
def batchFor (bytesPerSecond : ℚ) : Nat := ⌊min (max (bytesPerSecond * (2 / 1000)) 1200) 65536⌋₊

def new (bytesPerSecond now : ℚ) : Pacer where
  bytesPerSecond
  started := now
  batchBytes := batchFor bytesPerSecond

/-- Count the bytes of a datagram at a time. The result has the state after it and how long the call
sleeps. -/
def accountAndWait (p : Pacer) (bytes : Nat) (now : ℚ) : Pacer × ℚ :=
  let bytesSent := (p.bytesSent + bytes) % 2 ^ 64
  let bytesSinceWait := (p.bytesSinceWait + bytes) % 2 ^ 64
  if bytesSinceWait < p.batchBytes then ({ p with bytesSent, bytesSinceWait }, 0)
  else
    let target := bytesSent / p.bytesPerSecond
    let elapsed := now - p.started
    ({ p with bytesSent, bytesSinceWait := 0 }, if elapsed < target then target - elapsed else 0)

end Pacer

/-! ## Runs of calls -/

/-- A call of `accountAndWait`, with the times at which it is entered and returns. -/
structure PacedCall where
  entered : ℚ
  bytes : Nat
  returned : ℚ
  deriving DecidableEq

/-- The calls are made one after the other, from a time on, and each returns no earlier than it has
slept. -/
def Timely (p : Pacer) (now : ℚ) : List PacedCall → Prop
  | [] => True
  | c :: calls =>
    now ≤ c.entered ∧ c.entered + (p.accountAndWait c.bytes c.entered).2 ≤ c.returned ∧
      Timely (p.accountAndWait c.bytes c.entered).1 c.returned calls

/-- The state of the pacer after some calls. -/
def Pacer.after (p : Pacer) (calls : List PacedCall) : Pacer :=
  calls.foldl (fun p c => (p.accountAndWait c.bytes c.entered).1) p

/-- When the last of some calls has returned. -/
def returnOf (now : ℚ) (calls : List PacedCall) : ℚ := calls.foldl (fun _ c => c.returned) now

/-- The bytes of all calls. -/
def totalBytes (calls : List PacedCall) : Nat := (calls.map PacedCall.bytes).sum

/-- The bytes of the calls that return after a time, and at the latest at another. -/
def windowBytes (calls : List PacedCall) (t₁ t₂ : ℚ) : Nat :=
  totalBytes (calls.filter fun c => t₁ < c.returned ∧ c.returned ≤ t₂)

/-- At a constant rate, no window between the returns of two calls has more bytes than the rate
allows, a batch and a datagram. -/
def BurstsBounded (rate started : ℚ) (datagram : Nat) (calls : List PacedCall) : Prop :=
  ∀ c₁ ∈ calls, ∀ c₂ ∈ calls, c₁.returned ≤ c₂.returned →
    (windowBytes calls c₁.returned c₂.returned : ℚ) ≤
      rate * (c₂.returned - c₁.returned) + (Pacer.new rate started).batchBytes + datagram

/-- The bytes of some calls are at most a datagram and a byte short of what the rate allows up to a
time. -/
def OnSchedule (rate started : ℚ) (datagram : Nat) (calls : List PacedCall) (now : ℚ) : Prop :=
  rate * (now - started) ≤ totalBytes calls + datagram + 1

end PacketTide
